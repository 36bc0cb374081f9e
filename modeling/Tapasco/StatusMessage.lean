import Tapasco.AddressMap
import Tapasco.Lib.Word
import Tapasco.StatusImage

/-!
# From the Block Design to the Status Message

The scripts number the processing elements in three places. `arch_connect_interrupts` in
`axi4mm.tcl` names the interrupts of a cell after the cell's place in the sorted list of cells.
`make_status_config_json` in `ip.tcl` writes one slot for each entry of the address map. And
`json_to_status` counts the slots of type `Kernel`: these are the processing elements of the
status message, each with the interrupts whose name has its number, and a slot of type
`Memory` belongs to the last of them. The runtime waits for the first interrupt of a processing
element (`Scheduler::new` in `scheduler.rs`).

`json_to_status` takes the end of the slot with the greatest offset for the size of the
architecture. It looks at one memory for each processing element only.
-/

open List

namespace Tapasco.StatusMessage

open AddressMap HexText

/-! ### The JSON file -/

/-- The offset of an entry from the base address, as `format "0x%016x"` cuts it off. -/
def relative (base : ℕ) (offset : ℕ) : ℕ :=
  (((offset : ℤ) - base) % 2 ^ 64).toNat

/-- The text of a 64-bit number, `format "0x%016x"`. -/
def hexText (n : ℕ) : List Char :=
  '0' :: 'x' :: (leBytes 8 n).reverse.flatMap hexByte

/-- Field `Type` of a slot. -/
inductive SlotType where
  | kernel | memory

/-- An entry of the JSON file. -/
structure Slot where
  type : SlotType
  slotId : ℕ
  kernel : ℕ
  offset : List Char
  size : List Char
  vlnv : String

/-- The slot of an entry of the address map. -/
def makeSlot (base : ℕ) (pes : List Cell) (e : (Key × Entry) × ℕ) : Slot :=
  match e.1.2.kind with
  | .register =>
    { type := .kernel
      slotId := e.2
      kernel := (pes[e.1.1.1]?.map Cell.id).getD 0
      offset := hexText (relative base e.1.2.offset)
      size := hexText e.1.2.range
      vlnv := (pes[e.1.1.1]?.map Cell.vlnv).getD "" }
  | .memory =>
    { type := .memory
      slotId := e.2
      kernel := 0
      offset := hexText (relative base e.1.2.offset)
      size := hexText e.1.2.range
      vlnv := "None" }

/-- The composition of `make_status_config_json`. -/
def makeSlots (base : ℕ) (pes : List Cell) : List Slot :=
  (getAddressMap base pes).zipIdx.map (makeSlot base pes)

/-- The clock of an interrupt. Any other is an error in `create_subsystem_intc`. -/
inductive Clk where
  | host | design
  deriving DecidableEq

/-- The name of an interrupt pin of a processing element. -/
def intrName (i peSubInterrupt : ℕ) : List Char :=
  'P' :: 'E' :: '_' :: (Nat.toDigits 10 i ++ '_' :: Nat.toDigits 10 peSubInterrupt)

/-- Model of `arch_connect_interrupts`, for the cells from number `n` on. -/
def archConnectInterrupts (n : ℕ) (ips : List Cell) : List (List Char × Clk) :=
  (ips.zipIdx n).flatMap fun ip =>
    (List.range ip.1.interruptPins).map fun sub => (intrName ip.2 sub, .design)

/-- The two ways in which platforms number interrupt lines in `create_subsystem_intc`: all together,
or the first four for the host clock. -/
inductive Intc where
  | shared | hostFirst
  deriving DecidableEq

/-- The list `int_mapping` of `create_subsystem_intc`. -/
def intMapping (intc : Intc) : ℕ → ℕ → List Clk → List ℕ
  | _, _, [] => []
  | intHost, intDesign, clk :: l =>
    match intc, clk with
    | .shared, _ => intDesign :: intMapping intc intHost (intDesign + 1) l
    | .hostFirst, .host => intHost :: intMapping intc (intHost + 1) intDesign l
    | .hostFirst, .design => (4 + intDesign) :: intMapping intc intHost (intDesign + 1) l

structure JsonInterrupt where
  name : List Char
  mapping : ℕ

/-- The interrupts of `make_status_config_json`. -/
def makeInterrupts (intc : Intc) (interrupts : List (List Char × Clk)) : List JsonInterrupt :=
  List.zipWith JsonInterrupt.mk (interrupts.map Prod.fst)
    (intMapping intc 0 0 (interrupts.map Prod.snd))

/-! ### The status message -/

structure Interrupt where
  mapping : ℕ
  name : List Char
  deriving DecidableEq

structure MemoryArea where
  base : ℕ
  size : ℕ

/-- A processing element in the status message. -/
structure StatusPe where
  name : String
  id : ℕ
  offset : ℕ
  size : ℕ
  localMemory : Option MemoryArea
  interrupts : List Interrupt

/-- The part of the status message that describes the architecture. -/
structure Status where
  archSize : ℕ
  pes : List StatusPe

/-- The errors of `json_to_status` for a composition. -/
inductive JsonError where
  | hexToInt | memoryWithoutPE

/-- `trim_start_matches("0x")`. -/
def trimStartMatches : List Char → List Char
  | '0' :: 'x' :: l => trimStartMatches l
  | l => l

def fromHexStr (s : List Char) : Except JsonError ℕ :=
  match readHex (trimStartMatches s) with
  | some n => if n < 2 ^ 64 then .ok n else .error .hexToInt
  | none => .error .hexToInt

/-- A match of the expression `PE_(\d+)_(\d+)` at the beginning of a text. -/
def peReStart : List Char → Option (List Char × List Char)
  | 'P' :: 'E' :: '_' :: l =>
    match l.dropWhile Char.isDigit with
    | '_' :: r =>
      if l.takeWhile Char.isDigit = [] ∨ r.takeWhile Char.isDigit = [] then none
      else some (l.takeWhile Char.isDigit, r.takeWhile Char.isDigit)
    | _ => none
  | _ => none

/-- The two groups of the first match of `pe_re`. -/
def peRe : List Char → Option (List Char × List Char)
  | [] => none
  | c :: l => (peReStart (c :: l)).or (peRe l)

/-- The body of the loop that collects the interrupts by the number in their name. -/
def addInterrupt (interruptsPes : ℕ → List Interrupt) (interrupt : JsonInterrupt) :
    ℕ → List Interrupt :=
  match peRe interrupt.name with
  | some (i, sub) =>
    let peid := Nat.ofDigitChars 10 i 0
    Function.update interruptsPes peid (interruptsPes peid ++ [⟨interrupt.mapping, sub⟩])
  | none => interruptsPes

def interruptsPes (interrupts : List JsonInterrupt) : ℕ → List Interrupt :=
  interrupts.foldl addInterrupt fun _ => []

/-- The body of the loop over the composition. Every number is asked for once, so the
interrupts need not be removed from the map. -/
def addSlot (interruptsPes : ℕ → List Interrupt) (s : List StatusPe × ℕ) (pe : Slot) :
    Except JsonError (List StatusPe × ℕ) := do
  let addr ← fromHexStr pe.offset
  let size ← fromHexStr pe.size
  match pe.type with
  | .memory =>
    match s.1.getLast? with
    | none => .error .memoryWithoutPE
    | some last => .ok (s.1.dropLast ++ [{ last with localMemory := some ⟨addr, size⟩ }], s.2)
  | .kernel =>
    let new : StatusPe :=
      { name := pe.vlnv
        id := pe.kernel % 2 ^ 32
        offset := addr
        size := size
        localMemory := none
        interrupts := interruptsPes s.2 }
    .ok (s.1 ++ [new], s.2 + 1)

/-- One comparison of the search for the last window. -/
def laterWindow (m w : ℕ × ℕ) : ℕ × ℕ :=
  if w.1 ≥ m.1 then w else m

/-- The size of the architecture: the end of the last window. -/
def archSize (pes : List StatusPe) : ℕ :=
  let m := pes.foldl
    (fun m pe =>
      let m := laterWindow m (pe.offset, pe.size)
      match pe.localMemory with
      | some i => laterWindow m (i.base, i.size)
      | none => m)
    (0, 0)
  Word64.wrappingAdd m.1 m.2

/-- Model of `run`, for the architecture. -/
def run (interrupts : List JsonInterrupt) (composition : List Slot) : Except JsonError Status := do
  let s ← composition.foldlM (addSlot (interruptsPes interrupts)) ([], 0)
  .ok { archSize := archSize s.1, pes := s.1 }

/-- The status message for a block design. The platform's interrupts are created before and
after those of the architecture. -/
def statusMessage (intc : Intc) (before after : List (List Char × Clk)) (base : ℕ)
    (pes : List Cell) : Except JsonError Status :=
  run (makeInterrupts intc (before ++ archConnectInterrupts 0 pes ++ after)) (makeSlots base pes)

/-- The interrupts for which the runtime waits: a processing element without interrupts gets the
number after the last one. -/
def interruptIds : ℕ → List StatusPe → List ℕ
  | _, [] => []
  | interruptId, pe :: pes =>
    let interruptId :=
      match pe.interrupts with
      | [] => interruptId
      | i :: _ => i.mapping
    interruptId :: interruptIds (interruptId + 1 + if pe.localMemory.isSome then 1 else 0) pes

/-! ### Numbers as text -/

theorem trimStartMatches_of_not_mem {l : List Char} (h : 'x' ∉ l) : trimStartMatches l = l := by
  match l with
  | [] => rfl
  | [c] => simp [trimStartMatches]
  | c :: d :: l =>
    have hd : d ≠ 'x' := fun hd => h (by simp [hd])
    simp [trimStartMatches, hd]

theorem fromHexStr_hexText {n : ℕ} (hn : n < 2 ^ 64) : fromHexStr (hexText n) = .ok n := by
  have hx : 'x' ∉ (leBytes 8 n).reverse.flatMap hexByte := fun h =>
    forall_mem_flatMap_hexByte (P := (· ≠ 'x')) (by decide) _ _ h rfl
  have hne : (leBytes 8 n).reverse ≠ [] := by simp [leBytes]
  have hv : (leBytes 8 n).reverse.foldl (fun k b => k * 256 + b.toNat) 0 = n := by
    rw [foldl_reverse_eq_ofLeBytes, ofLeBytes_leBytes]
    exact Nat.mod_eq_of_lt hn
  rw [fromHexStr, hexText, trimStartMatches, trimStartMatches_of_not_mem hx,
    readHex_flatMap_hexByte hne, hv]
  exact if_pos hn

theorem relative_lt (base off : ℕ) : relative base off < 2 ^ 64 := by
  rw [relative]
  omega

/-! ### The loop over the composition -/

/-- An entry of the address map that becomes a processing element. -/
def isRegister (e : Key × Entry) : Bool :=
  e.2.kind = .register

/-- The window of an entry as the status message has it. -/
def window (base : ℕ) (e : Key × Entry) : ℕ × ℕ :=
  (relative base e.2.offset, e.2.range)

/-- The windows of a processing element and its memory. -/
def StatusPe.windows (pe : StatusPe) : List (ℕ × ℕ) :=
  (pe.offset, pe.size) :: (pe.localMemory.map fun i => (i.base, i.size)).toList

/-- The state of the loop after some entries of the address map. -/
structure Composed (base : ℕ) (ints : ℕ → List Interrupt) (es : List (Key × Entry))
    (s : List StatusPe × ℕ) : Prop where
  pes : s.1.map (fun pe => ((pe.offset, pe.size), pe.interrupts)) =
    (es.filter isRegister).zipIdx.map fun e => (window base e.1, ints e.2)
  count : s.2 = s.1.length
  windows : ∀ w ∈ s.1.flatMap StatusPe.windows, w ∈ es.map (window base)
  last : ∀ e, es.getLast? = some e → window base e ∈ s.1.flatMap StatusPe.windows

variable {e : Key × Entry} {es : List (Key × Entry)}

section Loop

variable {base : ℕ} {pes : List Cell} {ints : ℕ → List Interrupt} {s s' : List StatusPe × ℕ}

theorem addSlot_makeSlot (e : Key × Entry) (he : e.2.range < 2 ^ 64) (n : ℕ)
    (h : addSlot ints s (makeSlot base pes (e, n)) = .ok s') :
    (isRegister e = true ∧ ∃ new : StatusPe, s' = (s.1 ++ [new], s.2 + 1) ∧
      (new.offset, new.size) = window base e ∧ new.localMemory = none ∧
      new.interrupts = ints s.2) ∨
    (isRegister e = false ∧ ∃ pes' last, s.1 = pes' ++ [last] ∧
      s' = (pes' ++ [{ last with localMemory := some ⟨(window base e).1, e.2.range⟩ }], s.2)) := by
  have ho := fromHexStr_hexText (relative_lt base e.2.offset)
  have hs := fromHexStr_hexText he
  cases hk : e.2.kind with
  | register =>
    simp only [addSlot, makeSlot, hk, ho, hs, bind, Except.bind] at h
    refine .inl ⟨by simp [isRegister, hk], _, (Except.ok.inj h).symm, rfl, rfl, rfl⟩
  | memory =>
    simp only [addSlot, makeSlot, hk, ho, hs, bind, Except.bind] at h
    cases hl : s.1.getLast? with
    | none => simp [hl] at h
    | some last =>
      simp only [hl] at h
      obtain ⟨pes', hp'⟩ := getLast?_eq_some_iff.mp hl
      rw [hp', dropLast_concat] at h
      exact .inr ⟨by simp [isRegister, hk], pes', last, hp', (Except.ok.inj h).symm⟩

theorem composed_step (he : e.2.range < 2 ^ 64) {n : ℕ} (hs : Composed base ints es s)
    (h : addSlot ints s (makeSlot base pes (e, n)) = .ok s') :
    Composed base ints (es ++ [e]) s' := by
  have hl : s.1.length = (es.filter isRegister).length := by
    simpa using congrArg List.length hs.pes
  rcases addSlot_makeSlot e he n h with ⟨hr, new, rfl, hwin, hm, hi⟩ |
    ⟨hr, pes', last, hla, rfl⟩
  · have hwi : new.windows = [window base e] := by
      rw [StatusPe.windows, hwin, hm]
      rfl
    constructor
    · rw [filter_append, filter_cons_of_pos hr, filter_nil, zipIdx_append,
        map_append, map_append, hs.pes]
      simp [hwin, hi, hs.count, hl]
    · simp [hs.count]
    · intro w hw
      rw [flatMap_append, flatMap_singleton, hwi, mem_append] at hw
      rw [map_append, mem_append]
      exact hw.imp (hs.windows w) id
    · intro e' he'
      rw [getLast?_concat, Option.some.injEq] at he'
      rw [flatMap_append, flatMap_singleton, hwi, ← he']
      exact mem_append_right _ (mem_singleton_self _)
  · -- the memory replaces one that the last processing element may have had
    obtain ⟨hp, hc, hwin, -⟩ := hs
    rw [hla] at hp hc hwin
    constructor
    · rw [filter_append, filter_cons_of_neg (by simp [hr]), filter_nil, append_nil, ← hp]
      simp
    · simpa using hc
    · intro w hw
      rw [map_append, mem_append]
      rw [flatMap_append, flatMap_singleton, mem_append] at hw
      rcases hw with hw | hw
      · exact .inl (hwin w (by rw [flatMap_append]; exact mem_append_left _ hw))
      rcases mem_cons.mp hw with rfl | hw
      · refine .inl (hwin _ ?_)
        rw [flatMap_append, flatMap_singleton]
        exact mem_append_right _ mem_cons_self
      · exact .inr (by simpa [window] using hw)
    · intro e' he'
      rw [getLast?_concat, Option.some.injEq] at he'
      rw [flatMap_append, flatMap_singleton, ← he']
      exact mem_append_right _ (by simp [StatusPe.windows, window])

theorem foldlM_makeSlot_concat
    (h : ((es ++ [e]).zipIdx.map (makeSlot base pes)).foldlM (addSlot ints) ([], 0) = .ok s') :
    ∃ s, (es.zipIdx.map (makeSlot base pes)).foldlM (addSlot ints) ([], 0) = .ok s ∧
      addSlot ints s (makeSlot base pes (e, 0 + es.length)) = .ok s' := by
  rw [zipIdx_append, map_append, foldlM_append] at h
  cases he : (es.zipIdx.map (makeSlot base pes)).foldlM (addSlot ints) ([], 0) with
  | error err => simp [he, bind, Except.bind] at h
  | ok s =>
    rw [he] at h
    simp only [zipIdx_cons, zipIdx_nil, map_cons, map_nil, foldlM_cons, foldlM_nil, bind_pure] at h
    exact ⟨s, rfl, h⟩

theorem composed_of_foldlM (hes : ∀ e ∈ es, e.2.range < 2 ^ 64)
    (h : (es.zipIdx.map (makeSlot base pes)).foldlM (addSlot ints) ([], 0) = .ok s') :
    Composed base ints es s' := by
  induction es using List.reverseRecOn generalizing s' with
  | nil =>
    obtain rfl : ([], 0) = s' := Except.ok.inj h
    exact ⟨rfl, rfl, fun w hw => hw, fun e he => by simp at he⟩
  | append_singleton es e ih =>
    obtain ⟨s, hes', hs⟩ := foldlM_makeSlot_concat h
    exact composed_step (hes e (by simp))
      (ih (fun e' he' => hes e' (mem_append_left _ he')) hes') hs

end Loop

theorem range_lt_of_mem_getAddressMap {base : ℕ} {pes : List Cell}
    (he : e ∈ getAddressMap base pes) : e.2.range < 2 ^ 64 := by
  obtain ⟨w, -, rfl⟩ := mem_map.mp ((condenses_getAddressMap base pes).sublist.subset he)
  exact Nat.mod_lt _ (Nat.two_pow_pos 64)

section

variable {intc : Intc} {before after : List (List Char × Clk)} {base : ℕ} {pes : List Cell}
  {st : Status} (h : statusMessage intc before after base pes = .ok st)
include h

theorem foldlM_of_statusMessage :
    ∃ n, (makeSlots base pes).foldlM (addSlot (interruptsPes (makeInterrupts intc
        (before ++ archConnectInterrupts 0 pes ++ after)))) ([], 0) = .ok (st.pes, n) ∧
      st.archSize = archSize st.pes := by
  rw [statusMessage, run] at h
  cases hs : (makeSlots base pes).foldlM (addSlot (interruptsPes (makeInterrupts intc
      (before ++ archConnectInterrupts 0 pes ++ after)))) ([], 0) with
  | error err =>
    rw [hs] at h
    exact absurd h (by simp [bind, Except.bind])
  | ok s =>
    rw [hs] at h
    obtain rfl : Status.mk (archSize s.1) s.1 = st := Except.ok.inj h
    exact ⟨s.2, rfl, rfl⟩

theorem composed_of_statusMessage :
    st.archSize = archSize st.pes ∧
      Composed base
        (interruptsPes (makeInterrupts intc (before ++ archConnectInterrupts 0 pes ++ after)))
        (getAddressMap base pes) (st.pes, st.pes.length) := by
  obtain ⟨n, hs, hsi⟩ := foldlM_of_statusMessage h
  have hc := composed_of_foldlM (fun e he => range_lt_of_mem_getAddressMap he) hs
  obtain rfl : n = st.pes.length := hc.count
  exact ⟨hsi, hc⟩

end

/-! ### The size of the architecture -/

theorem foldl_laterWindow_windows (pes : List StatusPe) (m : ℕ × ℕ) :
    pes.foldl (fun m pe =>
        let m := laterWindow m (pe.offset, pe.size)
        match pe.localMemory with
        | some i => laterWindow m (i.base, i.size)
        | none => m) m = (pes.flatMap StatusPe.windows).foldl laterWindow m := by
  induction pes generalizing m with
  | nil => rfl
  | cons pe pes ih =>
    rw [foldl_cons, ih, flatMap_cons, foldl_append]
    cases hm : pe.localMemory <;> simp [StatusPe.windows, hm]

theorem foldl_laterWindow_spec {ws : List (ℕ × ℕ)} (hne : ws ≠ []) :
    ws.foldl laterWindow (0, 0) ∈ ws ∧ ∀ w ∈ ws, w.1 ≤ (ws.foldl laterWindow (0, 0)).1 := by
  induction ws using List.reverseRecOn with
  | nil => exact absurd rfl hne
  | append_singleton ws w ih =>
    rw [foldl_concat, laterWindow]
    by_cases hw : ws = []
    · subst hw
      simp
    obtain ⟨hm, hle⟩ := ih hw
    split
    · rename_i hge
      refine ⟨by simp, fun w' hw' => ?_⟩
      rcases mem_append.mp hw' with hw' | hw'
      · exact (hle w' hw').trans hge
      · rw [mem_singleton.mp hw']
    · rename_i hlt
      refine ⟨mem_append_left _ hm, fun w' hw' => ?_⟩
      rcases mem_append.mp hw' with hw' | hw'
      · exact hle w' hw'
      · rw [mem_singleton.mp hw']
        omega

theorem relative_of_le {base off : ℕ} (hle : base ≤ off) (hlt : off < base + 2 ^ 64) :
    relative base off = off - base := by
  rw [relative]
  omega

section Size

variable {base : ℕ} {pes : List Cell} (hfits : Fits base pes)
include hfits

theorem window_of_fits (he : e ∈ getAddressMap base pes) :
    window base e = (e.2.offset - base, e.2.range) := by
  obtain ⟨hle, -, hp, hs⟩ := bounds_of_mem_getAddressMap hfits he
  have hlt := hfits.size_lt
  rw [window, relative_of_le hle (by omega)]

theorem stop_le_last {last : Key × Entry} (hl : (getAddressMap base pes).getLast? = some last)
    (he : e ∈ getAddressMap base pes) : e = last ∨ e.2.offset + e.2.range ≤ last.2.offset := by
  obtain ⟨es, hes⟩ := getLast?_eq_some_iff.mp hl
  have hp := pairwise_getAddressMap hfits
  rw [hes, pairwise_append] at hp
  rw [hes, mem_append, mem_singleton] at he
  rcases he with he | rfl
  · exact .inr (hp.2.2 e he last (mem_singleton_self last))
  · exact .inl rfl

theorem archSize_eq {ints : ℕ → List Interrupt} {s : List StatusPe × ℕ}
    (hs : Composed base ints (getAddressMap base pes) s) {last : Key × Entry}
    (hla : (getAddressMap base pes).getLast? = some last) :
    archSize s.1 = last.2.offset - base + last.2.range := by
  have hm := hs.last last hla
  obtain ⟨hf, hma⟩ := foldl_laterWindow_spec (ne_nil_of_mem hm)
  have hl := mem_of_getLast? hla
  obtain ⟨hle, -, -, hst⟩ := bounds_of_mem_getAddressMap hfits hl
  obtain ⟨e, he, heq⟩ := mem_map.mp (hs.windows _ hf)
  have hge := hma _ hm
  rw [← heq, window_of_fits hfits he, window_of_fits hfits hl] at hge
  obtain ⟨hle', -, hp', -⟩ := bounds_of_mem_getAddressMap hfits he
  -- a window that starts as late as the last one is the last one
  obtain rfl : e = last := (stop_le_last hfits hla he).resolve_right (by dsimp only at hge; omega)
  have hlt := hfits.size_lt
  rw [archSize, foldl_laterWindow_windows, ← heq, window_of_fits hfits he]
  exact Word64.wrappingAdd_of_lt (by dsimp only; omega)

end Size

/-- **The windows of an address map** that fits into 64 bits are disjoint, start at or after the
base address at a multiple of their range, and lie within the size in the status message. -/
theorem windows_within_archSize {base : ℕ} {pes : List Cell} (hfits : Fits base pes) :
    ((getAddressMap base pes).Pairwise fun a b => ∀ x, ¬ (a.2.Covers x ∧ b.2.Covers x)) ∧
    (∀ e ∈ getAddressMap base pes, base ≤ e.2.offset ∧ e.2.range ∣ e.2.offset) ∧
    ∀ intc before after status, statusMessage intc before after base pes = .ok status →
      ∀ e ∈ getAddressMap base pes, e.2.offset - base + e.2.range ≤ status.archSize := by
  refine ⟨?_, fun e he => ?_, fun intc before after status h e he => ?_⟩
  · refine (pairwise_getAddressMap hfits).imp fun {a b} hab x hx => ?_
    obtain ⟨⟨-, ha⟩, hb, -⟩ := hx
    omega
  · obtain ⟨hle, hdvd, -⟩ := bounds_of_mem_getAddressMap hfits he
    exact ⟨hle, hdvd⟩
  · obtain ⟨hsize, hcomp⟩ := composed_of_statusMessage h
    obtain ⟨last, hlast⟩ : ∃ last, (getAddressMap base pes).getLast? = some last :=
      Option.ne_none_iff_exists'.mp fun hnone =>
        ne_nil_of_mem he (getLast?_eq_none_iff.mp hnone)
    have hlastLe := (bounds_of_mem_getAddressMap hfits (mem_of_getLast? hlast)).1
    have hle := (bounds_of_mem_getAddressMap hfits he).1
    rw [hsize, archSize_eq hfits hcomp hlast]
    rcases stop_le_last hfits hlast he with rfl | hstop
    · exact le_refl _
    · omega

/-- A processing element with registers and a memory, and one with registers only. -/
def twoCells : List Cell :=
  [{ segs := [⟨0, .register, .slave, 0x1000, by decide⟩, ⟨1, .memory, .slave, 0x4000, by decide⟩]
     sorted := by decide
     interruptPins := 1
     id := 10
     vlnv := "a" },
   { segs := [⟨0, .register, .slave, 0x1000, by decide⟩]
     sorted := by decide
     interruptPins := 1
     id := 11
     vlnv := "b" }]

/-- A processing element with register interfaces of 4 KiB and interrupt pins. -/
def registerCell (interfaces pins id : ℕ) (vlnv : String) : Cell where
  segs := (List.range interfaces).map fun k => ⟨k, .register, .slave, 0x1000, by decide⟩
  sorted := pairwise_map.mpr pairwise_le_range
  interruptPins := pins
  id := id
  vlnv := vlnv

theorem windows_within_archSize_two_cells :
    (getAddressMap 0x2000000 twoCells).map (fun e => e.2.offset) =
      [0x2000000, 0x2004000, 0x2008000] ∧
    ∃ status, statusMessage .shared [] [] 0x2000000 twoCells = .ok status ∧
      status.archSize = 0x9000 ∧
      ∀ e ∈ getAddressMap 0x2000000 twoCells,
        e.2.offset - 0x2000000 + e.2.range ≤ status.archSize := by
  refine ⟨by decide, _, rfl, by decide +kernel, ?_⟩
  exact (windows_within_archSize (by decide)).2.2 .shared [] [] _ rfl

/-- Three register interfaces that take half of the 64-bit addresses each. -/
def wideCells : List Cell :=
  [{ segs := [⟨0, .register, .slave, 2 ^ 63, by decide⟩, ⟨1, .register, .slave, 2 ^ 63, by decide⟩,
       ⟨2, .register, .slave, 2 ^ 63, by decide⟩]
     sorted := by decide
     interruptPins := 0
     id := 10
     vlnv := "a" }]

/-- The third window is written with the offset of the first. -/
theorem windows_overlap :
    ¬ (getAddressMap 0 wideCells).Pairwise fun a b => ∀ x, ¬ (a.2.Covers x ∧ b.2.Covers x) := by
  have hmap : getAddressMap 0 wideCells = [((0, 0), ⟨0, 2 ^ 63, .register⟩),
      ((0, 1), ⟨2 ^ 63, 2 ^ 63, .register⟩), ((0, 2), ⟨0, 2 ^ 63, .register⟩)] := by
    decide
  rw [hmap]
  intro hpair
  obtain ⟨hfirst, -⟩ := pairwise_cons.mp hpair
  exact hfirst ((0, 2), ⟨0, 2 ^ 63, .register⟩) (by simp) 0
    ⟨⟨le_refl 0, by decide⟩, le_refl 0, by decide⟩

end Tapasco.StatusMessage
