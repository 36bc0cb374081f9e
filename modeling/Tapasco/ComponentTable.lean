import Tapasco.Lib.Lists
import Mathlib.Data.List.Find
import Mathlib.Algebra.Group.Nat.Defs

/-!
# The Driver's Table of Platform Components

The status core of a device describes its platform components in a message. The driver reads the
message when it sets up the device, and keeps the components in a table of fixed size, in which it
later looks up their offsets by name. This module embeds both.

The library that decodes the message calls `add_component` for each component, and from there
`parse_string` for its name as long as bytes of the name are left. A call fills the field of the
name from its start, so that of a long name only what the last call has read remains. The number of
calls of `add_component` is not limited either: `writes` has the entries that are written, whether
they are in the table or not.
-/

open List

namespace Tapasco.ComponentTable

def tlkmComponentMax : ℕ := 16

def tlkmComponentsNameMax : ℕ := 32

/-- The offset of an unused entry, `-1`. -/
def noComponent : ℕ := 2 ^ 64 - 1

/-- A component in the message. -/
structure Platform where
  name : List UInt8
  offset : ℕ
  size : ℕ

/-- An entry of the table, with the bytes of the field for the name. -/
structure Component where
  name : List UInt8
  offset : ℕ
  size : ℕ

structure Device where
  components : List Component
  length_components : components.length = tlkmComponentMax

/-- `parse_string`, called until no bytes are left. -/
def parseString (bytes : List UInt8) : List UInt8 :=
  if 31 < bytes.length then parseString (bytes.drop 31)
  else bytes ++ replicate (tlkmComponentsNameMax - bytes.length) 0
termination_by bytes.length
decreasing_by
  rw [length_drop]
  omega

/-- The device, the counter of `add_component`, and the indices of the entries written so far. -/
structure Decoding where
  dev : Device
  cntr : ℕ
  writes : List ℕ

def Platform.toComponent (p : Platform) : Component :=
  ⟨parseString p.name, p.offset, p.size⟩

def addComponent (d : Decoding) (p : Platform) : Decoding where
  dev := ⟨d.dev.components.set d.cntr p.toComponent, length_set.trans d.dev.length_components⟩
  cntr := d.cntr + 1
  writes := d.writes ++ [d.cntr]

def Component.clear (c : Component) : Component :=
  { c with name := replicate tlkmComponentsNameMax 0, offset := noComponent }

/-- `tlkm_status_init`, for the components of a message. -/
def tlkmStatusInit (dev : Device) (msg : List Platform) : Decoding :=
  msg.foldl addComponent
    ⟨⟨dev.components.map .clear, (length_map _).trans dev.length_components⟩, 0, []⟩

/-- Whether `strncmp` finds no difference in the first `n` bytes. -/
def strncmp : ℕ → List UInt8 → List UInt8 → Bool
  | n + 1, a :: as, b :: bs => a = b && (a = 0 || strncmp n as bs)
  | _, _, _ => true

/-- `tlkm_status_get_component_base`, for a name that ends with a zero byte. -/
def tlkmStatusGetComponentBase (dev : Device) (c : List UInt8) : ℕ :=
  ((dev.components.find? fun e => strncmp tlkmComponentsNameMax (c ++ [0]) e.name).map
    Component.offset).getD noComponent

/-- **Names are compared to their end**, if the name in the field ends before the field does. -/
theorem strncmp_iff {c name : List UInt8} (hc : 0 ∉ c) (hn : 0 ∉ name) {n k : ℕ}
    (hl : name.length < n) : strncmp n (c ++ [0]) (name ++ replicate (k + 1) 0) ↔ c = name := by
  induction n generalizing c name with
  | zero => exact absurd hl (Nat.not_lt_zero _)
  | succ n ih =>
    cases c with
    | nil =>
      cases name with
      | nil => simp [strncmp, replicate_succ]
      | cons b name => simpa [strncmp] using ne_of_not_mem_cons hn
    | cons a c =>
      have ha : a ≠ 0 := (ne_of_not_mem_cons hc).symm
      cases name with
      | nil => simp [strncmp, replicate_succ, ha]
      | cons b name =>
        have hr := ih (not_mem_of_not_mem_cons hc) (not_mem_of_not_mem_cons hn)
          (Nat.lt_of_succ_lt_succ hl)
        simp [strncmp, ha, hr]

/-- The name is text without a zero byte, and shorter than its field. -/
def Platform.Fits (p : Platform) : Prop :=
  p.name.length < tlkmComponentsNameMax ∧ 0 ∉ p.name

theorem strncmp_toComponent {p : Platform} (h : p.Fits) {c : List UInt8} (hc : 0 ∉ c) :
    strncmp tlkmComponentsNameMax (c ++ [0]) p.toComponent.name = decide (p.name = c) := by
  have hlt : p.name.length < 32 := h.1
  have hf : p.toComponent.name = p.name ++ replicate (31 - p.name.length + 1) 0 := by
    have hs : tlkmComponentsNameMax - p.name.length = 31 - p.name.length + 1 :=
      Nat.succ_sub (Nat.le_of_lt_succ hlt)
    simp only [Platform.toComponent]
    rw [parseString, if_neg (by omega), hs]
  rw [hf, Bool.eq_iff_iff, strncmp_iff hc h.2 h.1, decide_eq_true_iff, eq_comm]

/-! ### Decoding a message -/

/-- **The entries are written one after the other**, from where the counter stands. -/
theorem foldl_addComponent (msg : List Platform) {d : Decoding} {pre post : List Component}
    (hd : d.dev.components = pre ++ post) (hc : d.cntr = pre.length)
    (hl : msg.length ≤ post.length) :
    (msg.foldl addComponent d).dev.components =
        pre ++ msg.map Platform.toComponent ++ post.drop msg.length ∧
      (msg.foldl addComponent d).writes = d.writes ++ range' d.cntr msg.length := by
  induction msg generalizing d pre post with
  | nil => simp [hd]
  | cons p msg ih =>
    cases post with
    | nil => exact absurd hl (Nat.not_succ_le_zero _)
    | cons e post =>
      have hs : (addComponent d p).dev.components = (pre ++ [p.toComponent]) ++ post := by
        simp only [addComponent]
        rw [hd, hc, Lists.set_append_cons, append_assoc]
        rfl
      obtain ⟨hco, hw⟩ := ih hs (by simp [addComponent, hc])
        (Nat.le_of_succ_le_succ hl)
      refine ⟨?_, ?_⟩
      · rw [foldl_cons, hco]
        simp
      · rw [foldl_cons, hw]
        simp [addComponent, range'_succ]

theorem tlkmStatusInit_spec (dev : Device) {msg : List Platform}
    (hl : msg.length ≤ tlkmComponentMax) :
    (tlkmStatusInit dev msg).dev.components =
        msg.map Platform.toComponent ++ (dev.components.map .clear).drop msg.length ∧
      (tlkmStatusInit dev msg).writes = List.range msg.length := by
  rw [List.range_eq_range']
  exact foldl_addComponent msg (nil_append _).symm rfl
    (hl.trans_eq ((length_map _).trans dev.length_components).symm)

theorem offset_find?_clear (l : List Component) (m : ℕ) (p : Component → Bool) :
    ((((l.map .clear).drop m).find? p).map Component.offset).getD noComponent = noComponent := by
  cases hf : ((l.map .clear).drop m).find? p with
  | none => rfl
  | some e =>
    obtain ⟨e', -, rfl⟩ := mem_map.mp (mem_of_mem_drop (mem_of_find?_eq_some hf))
    rfl

/-- **Decoding stays in the table and a lookup finds the first component with the name**, or returns
`-1`, for every message with at most as many components as the table has entries, and with names
that are shorter than their field. -/
theorem component_base_eq (dev : Device) {msg : List Platform}
    (hlen : msg.length ≤ tlkmComponentMax) (hfits : ∀ p ∈ msg, p.Fits) :
    (∀ i ∈ (tlkmStatusInit dev msg).writes, i < tlkmComponentMax) ∧
      ∀ c : List UInt8, 0 ∉ c →
        tlkmStatusGetComponentBase (tlkmStatusInit dev msg).dev c =
          ((msg.find? fun p => p.name = c).map Platform.offset).getD noComponent := by
  obtain ⟨hcomp, hwrites⟩ := tlkmStatusInit_spec dev hlen
  refine ⟨fun i hi => ?_, fun c hc => ?_⟩
  · rw [hwrites, List.mem_range] at hi
    exact hi.trans_le hlen
  · have hfind : (msg.find? ((fun e => strncmp tlkmComponentsNameMax (c ++ [0]) e.name) ∘
        Platform.toComponent)) = msg.find? fun p => p.name = c :=
      find?_congr fun p hp => strncmp_toComponent (hfits p hp) hc
    rw [tlkmStatusGetComponentBase, hcomp, find?_append, find?_map, hfind]
    cases msg.find? fun p => p.name = c with
    | none => exact offset_find?_clear ..
    | some p => rfl

def emptyDevice : Device :=
  ⟨replicate 16 ⟨[], 0, 0⟩, rfl⟩

theorem component_base_eq_two :
    tlkmStatusGetComponentBase (tlkmStatusInit emptyDevice [⟨[65], 16, 1⟩, ⟨[66], 32, 1⟩]).dev
      [66] = 32 :=
  (component_base_eq emptyDevice (by decide)
    (by simp [Platform.Fits, tlkmComponentsNameMax])).2 [66] (by decide)

/-- A component with a name of 32 bytes is not found. -/
theorem long_name_not_found :
    tlkmStatusGetComponentBase (tlkmStatusInit emptyDevice [⟨replicate 32 65, 16, 1⟩]).dev
      (replicate 32 65) = noComponent := by
  have hname : parseString (replicate 32 65) = 65 :: replicate 31 0 := by
    rw [parseString, if_pos (by decide), parseString]
    rfl
  rw [tlkmStatusGetComponentBase, (tlkmStatusInit_spec emptyDevice (by decide)).1, map_singleton,
    Platform.toComponent, hname]
  decide

end Tapasco.ComponentTable
