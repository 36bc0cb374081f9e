import Mathlib.Algebra.Order.Group.Nat
import Tapasco.Lib.Dict

/-!
# The Address Map of the Processing Elements

`get_address_map` in `arch/common/arch.tcl` goes through the slave segments of all processing
elements of the block design and gives each a window of addresses: the running offset is
rounded up to a multiple of the segment's range, and the window ends where the next search
begins. The result is a dictionary with one entry for each interface.

The running offset is an unbounded integer, but offset and range are written to the dictionary
with `format "0x%08x"`, which keeps the low 64 bits. A segment's interface stands for its rank
in the order in which `lsort` puts the segments of one cell: the segments of an interface have
the interface's path in front of their own, so they are next to each other.
-/

open List

namespace Tapasco.AddressMap

/-! ### The block design -/

/-- Property `USAGE` of a segment. -/
inductive Usage where
  | register | memory | reserved
  deriving DecidableEq

/-- Property `MODE` of the interface pin of a segment. -/
inductive Mode where
  | slave | master
  deriving DecidableEq

/-- An address segment of a cell. -/
structure Seg where
  intf : ℕ
  usage : Usage
  mode : Mode
  range : ℕ
  range_pos : 0 < range

/-- A processing element of the block design. The segments are sorted as `lsort` sorts them. -/
structure Cell where
  segs : List Seg
  sorted : segs.Pairwise fun a b => a.intf ≤ b.intf
  interruptPins : ℕ
  id : ℕ
  vlnv : String

/-- What an entry of the address map is used for. -/
inductive Kind where
  | register | memory
  deriving DecidableEq

/-- The value of an interface in the address map. -/
structure Entry where
  offset : ℕ
  range : ℕ
  kind : Kind
  deriving DecidableEq

def Entry.Covers (e : Entry) (x : ℕ) : Prop :=
  e.offset ≤ x ∧ x < e.offset + e.range

/-- The cell's place in the sorted list of processing elements, and the interface. -/
abbrev Key := ℕ × ℕ

/-! ### The map -/

/-- The next multiple of the range. -/
def nextValidAddress (addr range : ℕ) : ℕ :=
  (addr / range + if addr % range > 0 then 1 else 0) * range

/-- The next free address, and the map so far. -/
structure MapState where
  offset : ℕ
  ret : List (Key × Entry)

/-- The body of the loops over segments. -/
def addSeg (pe : ℕ) (kind : Seg → Kind) (s : MapState) (seg : Seg) : MapState :=
  match seg.mode with
  | .master => s
  | .slave =>
    let offset := nextValidAddress s.offset seg.range
    { offset := offset + seg.range
      ret := Dict.set s.ret (pe, seg.intf) ⟨offset % 2 ^ 64, seg.range % 2 ^ 64, kind seg⟩ }

/-- The kind under which a segment is entered where all segments are taken in order. -/
def kindOf (seg : Seg) : Kind :=
  if seg.usage = .register then .register else .memory

def numSlaves (segs : List Seg) : ℕ :=
  segs.countP (·.mode = .slave)

/-- The body of the loop over processing elements. Registers come before memories unless
there are several of one sort. -/
def addPe (s : MapState) (pe : Cell × ℕ) : MapState :=
  let regSegs := pe.1.segs.filter (·.usage = .register)
  let memSegs := pe.1.segs.filter (·.usage = .memory)
  if numSlaves regSegs ≤ 1 ∧ numSlaves memSegs ≤ 1 then
    memSegs.foldl (addSeg pe.2 fun _ => .memory)
      (regSegs.foldl (addSeg pe.2 fun _ => .register) s)
  else pe.1.segs.foldl (addSeg pe.2 kindOf) s

/-- The running offset and the dictionary after all processing elements. -/
def mapPes (offset : ℕ) (pes : List Cell) : MapState :=
  pes.zipIdx.foldl addPe ⟨offset, []⟩

/-- Model of `get_address_map`. -/
def getAddressMap (offset : ℕ) (pes : List Cell) : List (Key × Entry) :=
  (mapPes offset pes).ret

def mapEnd (offset : ℕ) (pes : List Cell) : ℕ :=
  (mapPes offset pes).offset

/-! ### Windows -/

/-- The address range that is given to a segment. -/
structure Window where
  pe : ℕ
  seg : Seg
  start : ℕ

def Window.stop (w : Window) : ℕ :=
  w.start + w.seg.range

def Window.entry (w : Window) : Key × Entry :=
  ((w.pe, w.seg.intf), ⟨w.start % 2 ^ 64, w.seg.range % 2 ^ 64, kindOf w.seg⟩)

/-- The windows of a list of slave segments. -/
def place (offset : ℕ) : List (ℕ × Seg) → List Window
  | [] => []
  | (pe, seg) :: l =>
    let start := nextValidAddress offset seg.range
    ⟨pe, seg, start⟩ :: place (start + seg.range) l

/-- The slave segments of a cell in the order in which they get their windows. -/
def Cell.slaves (pe : Cell) : List Seg :=
  let regSegs := pe.segs.filter (·.usage = .register)
  let memSegs := pe.segs.filter (·.usage = .memory)
  if numSlaves regSegs ≤ 1 ∧ numSlaves memSegs ≤ 1 then
    (regSegs ++ memSegs).filter (·.mode = .slave)
  else pe.segs.filter (·.mode = .slave)

def allSlaves (pes : List Cell) : List (ℕ × Seg) :=
  pes.zipIdx.flatMap fun pe => pe.1.slaves.map fun seg => (pe.2, seg)

/-- The body of the loops for a slave segment. -/
def addSlave (s : MapState) (p : ℕ × Seg) : MapState :=
  let offset := nextValidAddress s.offset p.2.range
  { offset := offset + p.2.range
    ret := Dict.set s.ret (p.1, p.2.intf)
      ⟨offset % 2 ^ 64, p.2.range % 2 ^ 64, kindOf p.2⟩ }

theorem foldl_addSeg {pe : ℕ} {kind : Seg → Kind} {segs : List Seg}
    (hk : ∀ seg ∈ segs, kind seg = kindOf seg) (s : MapState) :
    segs.foldl (addSeg pe kind) s =
      ((segs.filter (·.mode = .slave)).map fun seg => (pe, seg)).foldl addSlave s := by
  induction segs generalizing s with
  | nil => rfl
  | cons seg segs ih =>
    rw [foldl_cons, ih fun seg' h => hk seg' (mem_cons_of_mem _ h)]
    cases hm : seg.mode with
    | master =>
      rw [filter_cons_of_neg (by simp [hm])]
      simp only [addSeg, hm]
    | slave =>
      rw [filter_cons_of_pos (by simp [hm]), map_cons, foldl_cons]
      simp only [addSeg, addSlave, hm, hk seg mem_cons_self]

theorem addPe_eq (s : MapState) (pe : Cell × ℕ) :
    addPe s pe = (pe.1.slaves.map fun seg => (pe.2, seg)).foldl addSlave s := by
  rw [addPe, Cell.slaves]
  split
  · rw [foldl_addSeg, foldl_addSeg, filter_append, map_append, foldl_append]
    · intro seg hs
      simp [kindOf, of_decide_eq_true (mem_filter.mp hs).2]
    · intro seg hs
      simp [kindOf, of_decide_eq_true (mem_filter.mp hs).2]
  · rw [foldl_addSeg fun _ _ => rfl]

theorem mapPes_eq (off : ℕ) (pes : List Cell) :
    mapPes off pes = (allSlaves pes).foldl addSlave ⟨off, []⟩ := by
  rw [mapPes, allSlaves, foldl_flatMap]
  exact congrFun (congrFun (congrArg _ (funext fun s => funext fun pe => addPe_eq s pe)) _) _

theorem ret_foldl_addSlave (l : List (ℕ × Seg)) (s : MapState) :
    (l.foldl addSlave s).ret =
      ((place s.offset l).map Window.entry).foldl (fun d e => Dict.set d e.1 e.2) s.ret := by
  induction l generalizing s with
  | nil => rfl
  | cons p l ih =>
    rw [foldl_cons, ih]
    rfl

/-- **The dictionary is made of the windows** of all slave segments. -/
theorem getAddressMap_eq (off : ℕ) (pes : List Cell) :
    getAddressMap off pes = Dict.ofList ((place off (allSlaves pes)).map Window.entry) := by
  rw [getAddressMap, mapPes_eq, ret_foldl_addSlave]
  rfl

/-! ### The order of the windows -/

theorem le_nextValidAddress (addr : ℕ) {range : ℕ} (h : 0 < range) :
    addr ≤ nextValidAddress addr range := by
  have hd := Nat.div_add_mod addr range
  have hlt := Nat.mod_lt addr h
  rw [nextValidAddress]
  split
  · rw [Nat.add_mul, one_mul, mul_comm]
    omega
  · rw [add_zero, mul_comm]
    omega

theorem dvd_nextValidAddress (addr range : ℕ) : range ∣ nextValidAddress addr range :=
  Nat.dvd_mul_left _ _

theorem start_of_mem_place {off : ℕ} {l : List (ℕ × Seg)} {w : Window}
    (hw : w ∈ place off l) : off ≤ w.start ∧ w.seg.range ∣ w.start := by
  induction l generalizing off with
  | nil => exact absurd hw not_mem_nil
  | cons p l ih =>
    have hle := le_nextValidAddress off p.2.range_pos
    rcases mem_cons.mp hw with rfl | hw
    · exact ⟨hle, dvd_nextValidAddress _ _⟩
    · exact ⟨(hle.trans (Nat.le_add_right _ _)).trans (ih hw).1, (ih hw).2⟩

theorem pairwise_place (off : ℕ) (l : List (ℕ × Seg)) :
    (place off l).Pairwise fun a b => a.stop ≤ b.start := by
  induction l generalizing off with
  | nil => exact List.Pairwise.nil
  | cons p l ih => exact List.Pairwise.cons (fun w hw => (start_of_mem_place hw).1) (ih _)

theorem offset_foldl_addSlave (l : List (ℕ × Seg)) (s : MapState) :
    (l.foldl addSlave s).offset = ((place s.offset l).getLast?.map Window.stop).getD s.offset := by
  induction l generalizing s with
  | nil => rfl
  | cons p l ih =>
    have ho : (addSlave s p).offset = nextValidAddress s.offset p.2.range + p.2.range := rfl
    rw [foldl_cons, ih, place, getLast?_cons, ho]
    cases (place (nextValidAddress s.offset p.2.range + p.2.range) l).getLast? <;> rfl

theorem stop_le_mapEnd {off : ℕ} {pes : List Cell} {w : Window}
    (hw : w ∈ place off (allSlaves pes)) : w.stop ≤ mapEnd off pes := by
  obtain ⟨ws, last, hl⟩ : ∃ ws last, place off (allSlaves pes) = ws ++ [last] :=
    ⟨_, _, (dropLast_append_getLast (ne_nil_of_mem hw)).symm⟩
  have he : mapEnd off pes = last.stop := by
    rw [mapEnd, mapPes_eq, offset_foldl_addSlave, hl, getLast?_concat]
    rfl
  rw [he]
  rw [hl, mem_append, mem_singleton] at hw
  rcases hw with hw | rfl
  · have hp := pairwise_place off (allSlaves pes)
    rw [hl, pairwise_append] at hp
    exact (hp.2.2 w hw last (mem_singleton_self last)).trans (Nat.le_add_right _ _)
  · exact le_refl _

/-! ### The dictionary -/

theorem place_map_key (off : ℕ) (l : List (ℕ × Seg)) :
    (place off l).map (fun w => (w.pe, w.seg)) = l := by
  induction l generalizing off with
  | nil => rfl
  | cons p l ih => rw [place, map_cons, ih]

theorem length_slaves_le (segs : List Seg) :
    (segs.filter (·.mode = .slave)).length = numSlaves segs :=
  countP_eq_length_filter.symm

theorem grouped_slaves (pe : Cell) : Dict.Grouped (pe.slaves.map Seg.intf) := by
  rw [Cell.slaves]
  split
  · rename_i hle
    apply Dict.grouped_of_length_le_two
    rw [length_map, filter_append, length_append, length_slaves_le, length_slaves_le]
    omega
  · apply Dict.grouped_of_sorted
    exact List.Pairwise.map _ (fun _ _ h => h) (pe.sorted.filter _)

/-- The interfaces of the slave segments of all cells, the first of which has number `n`. -/
def slaveKeys (n : ℕ) (pes : List Cell) : List Key :=
  (pes.zipIdx n).flatMap fun pe => pe.1.slaves.map fun seg => (pe.2, seg.intf)

theorem slaveKeys_cons (n : ℕ) (pe : Cell) (pes : List Cell) :
    slaveKeys n (pe :: pes) =
      (pe.slaves.map Seg.intf).map (Prod.mk n) ++ slaveKeys (n + 1) pes := by
  rw [slaveKeys, zipIdx_cons, flatMap_cons, map_map]
  rfl

theorem le_of_mem_slaveKeys {n : ℕ} {pes : List Cell} {k : Key} (hk : k ∈ slaveKeys n pes) :
    n ≤ k.1 := by
  obtain ⟨pe, hp, hk⟩ := mem_flatMap.mp hk
  obtain ⟨seg, -, rfl⟩ := mem_map.mp hk
  exact (mem_zipIdx hp).1

theorem grouped_slaveKeys (n : ℕ) (pes : List Cell) : Dict.Grouped (slaveKeys n pes) := by
  induction pes generalizing n with
  | nil => exact Dict.grouped_of_length_le_two (Nat.zero_le 2)
  | cons pe pes ih =>
    rw [slaveKeys_cons]
    refine Dict.grouped_append ((grouped_slaves pe).map (Prod.mk_right_injective n))
      (ih (n + 1)) fun k hk hk' => ?_
    obtain ⟨intf, -, rfl⟩ := mem_map.mp hk
    exact absurd (le_of_mem_slaveKeys hk') (Nat.not_succ_le_self n)

theorem keys_place (off : ℕ) (pes : List Cell) :
    ((place off (allSlaves pes)).map Window.entry).map Prod.fst = slaveKeys 0 pes := by
  calc ((place off (allSlaves pes)).map Window.entry).map Prod.fst
      = ((place off (allSlaves pes)).map fun w => (w.pe, w.seg)).map
          fun p => (p.1, p.2.intf) := by rw [map_map, map_map]; rfl
    _ = slaveKeys 0 pes := by
        rw [place_map_key, allSlaves, slaveKeys, map_flatMap]
        simp only [map_map]
        rfl

/-- **The dictionary is a part of the list of windows.** -/
theorem condenses_getAddressMap (off : ℕ) (pes : List Cell) :
    Dict.Condenses (getAddressMap off pes) ((place off (allSlaves pes)).map Window.entry) := by
  rw [getAddressMap_eq]
  exact Dict.ofList_spec (by rw [keys_place]; exact grouped_slaveKeys 0 pes)

/-! ### Maps that fit into 64 bits -/

/-- The windows end within the 64-bit addresses, and less than `2 ^ 64` after the base. -/
structure Fits (base : ℕ) (pes : List Cell) : Prop where
  stop_le : mapEnd base pes ≤ 2 ^ 64
  size_lt : mapEnd base pes < base + 2 ^ 64

instance (base : ℕ) (pes : List Cell) : Decidable (Fits base pes) :=
  decidable_of_iff (mapEnd base pes ≤ 2 ^ 64 ∧ mapEnd base pes < base + 2 ^ 64)
    ⟨fun h => ⟨h.1, h.2⟩, fun h => ⟨h.stop_le, h.size_lt⟩⟩

section Fits

variable {base : ℕ} {pes : List Cell} (hfits : Fits base pes)
include hfits

theorem Window.entry_of_fits {w : Window} (hw : w ∈ place base (allSlaves pes)) :
    w.entry.2 = ⟨w.start, w.seg.range, kindOf w.seg⟩ := by
  have hst := stop_le_mapEnd hw
  have hs := (start_of_mem_place hw).1
  have hp := w.seg.range_pos
  have hle := hfits.stop_le
  have hlt := hfits.size_lt
  rw [Window.stop] at hst
  rw [Window.entry, Nat.mod_eq_of_lt (by omega), Nat.mod_eq_of_lt (by omega)]

theorem bounds_of_mem_getAddressMap {e : Key × Entry} (he : e ∈ getAddressMap base pes) :
    base ≤ e.2.offset ∧ e.2.range ∣ e.2.offset ∧ 0 < e.2.range ∧
      e.2.offset + e.2.range ≤ mapEnd base pes := by
  obtain ⟨w, hw, rfl⟩ := mem_map.mp ((condenses_getAddressMap base pes).sublist.subset he)
  rw [w.entry_of_fits hfits hw]
  exact ⟨(start_of_mem_place hw).1, (start_of_mem_place hw).2, w.seg.range_pos, stop_le_mapEnd hw⟩

theorem pairwise_getAddressMap :
    (getAddressMap base pes).Pairwise fun a b => a.2.offset + a.2.range ≤ b.2.offset := by
  refine List.Pairwise.sublist (condenses_getAddressMap base pes).sublist ?_
  rw [pairwise_map]
  refine (pairwise_place base (allSlaves pes)).imp_of_mem fun {a b} ha hb hab => ?_
  rw [a.entry_of_fits hfits ha, b.entry_of_fits hfits hb]
  exact hab

end Fits

end Tapasco.AddressMap
