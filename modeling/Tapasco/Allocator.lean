import Tapasco.Lib.Lists
import Tapasco.Lib.Runs
import Tapasco.Lib.Segment
import Tapasco.Lib.Word

/-!
# Device Memory Allocators

This module embeds the host-side allocator of `allocator.rs`: the trait `Allocator`,
its errors, and `GenericAllocator`, which keeps the free and the used memory of a
region as two vectors of segments. Addresses and sizes are 64-bit words and every
arithmetic operation of the source is the wrapping one, which is what the release
build of the runtime executes.

A vector that the source searches with `enumerate().filter(..).next()` or `position(..)`
and then edits at the index it found is split around the element (`Lists.findSplit`).
-/

open FreeList Lists Word64 List

namespace Tapasco

/-- The errors of `allocator.rs`, with the data they carry. -/
inductive AllocatorError where
  | outOfMemory (size : ℕ)
  | fixedNotAvailable (size offset : ℕ)
  | invalidSize (size : ℕ)
  | invalidAlignment (alignment : ℕ)
  | unknownMemory (ptr : ℕ)
  | ioctlFree (source : ℕ)
  | noFixedInDriver
  | vfioError (func : String)
  | vfioNoVa
  deriving DecidableEq

/-- The trait `Allocator`: each operation returns its result and the allocator after the call. -/
class Allocator (σ : Type) where
  allocate : σ → (size : ℕ) → (va : Option ℕ) → Except AllocatorError ℕ × σ
  allocateFixed : σ → (size offset : ℕ) → Except AllocatorError ℕ × σ
  free : σ → (ptr : ℕ) → Except AllocatorError Unit × σ

/-- A segment of free or used memory. -/
abbrev MemoryFree := Segment

/-- The allocator for host handled device memory. -/
structure GenericAllocator where
  memoryFree : List MemoryFree
  memoryUsed : List MemoryFree
  alignment : ℕ
  deriving DecidableEq

namespace GenericAllocator

/-- A new allocator has the whole region as one free segment. -/
def new (address size alignment : ℕ) : Except AllocatorError GenericAllocator :=
  if size = 0 then .error (.invalidSize size)
  else if alignment = 0 then .error (.invalidAlignment alignment)
  else .ok { memoryFree := [⟨address, size⟩], memoryUsed := [], alignment }

/-- `(size + (alignment - 1)) & !(alignment - 1)`. -/
def fixAlignment (a : GenericAllocator) (size : ℕ) : ℕ :=
  wrappingAdd size (wrappingSub a.alignment 1) &&& complement (wrappingSub a.alignment 1)

/-- The loop of `merge_memory` from index `i` on: `s` is the segment at `i`, followed by the list. A
merge grows `s` and stays at `i`. -/
def mergeFrom : MemoryFree → List MemoryFree → List MemoryFree
  | s, [] => [s]
  | s, n :: rest =>
    if wrappingAdd s.base s.size = n.base then
      mergeFrom ⟨s.base, wrappingAdd s.size n.size⟩ rest
    else s :: mergeFrom n rest

def mergeMemory : List MemoryFree → List MemoryFree
  | [] => []
  | s :: rest => mergeFrom s rest

/-- The free segment `s` loses its first `n` bytes and is removed when none are left. -/
def shrinkHead (pre : List MemoryFree) (s : MemoryFree) (post : List MemoryFree) (n : ℕ) :
    List MemoryFree :=
  let rest : MemoryFree := ⟨wrappingAdd s.base n, wrappingSub s.size n⟩
  if rest.size = 0 then pre ++ post else pre ++ rest :: post

/-- The free segment `s` is split around the `n` bytes at `offset`; empty parts are left out. -/
def splitAround (pre : List MemoryFree) (s : MemoryFree) (post : List MemoryFree)
    (offset n : ℕ) : List MemoryFree :=
  let leftSize := wrappingSub offset s.base
  let splitSegment : MemoryFree :=
    ⟨wrappingAdd offset n, wrappingSub s.size (wrappingAdd leftSize n)⟩
  let right := if 0 < splitSegment.size then splitSegment :: post else post
  if leftSize = 0 then pre ++ right else pre ++ ⟨s.base, leftSize⟩ :: right

/-- First fit: the head of the first free segment that is large enough. -/
def allocate (a : GenericAllocator) (size : ℕ) (_va : Option ℕ) :
    Except AllocatorError ℕ × GenericAllocator :=
  if size = 0 then (.error (.invalidSize size), a)
  else
    let sizeAligned := a.fixAlignment size
    match findSplit (fun s => decide (sizeAligned ≤ s.size)) a.memoryFree with
    | none => (.error (.outOfMemory sizeAligned), a)
    | some (pre, s, post) =>
      (.ok s.base,
        { a with
          memoryUsed := a.memoryUsed ++ [⟨s.base, sizeAligned⟩]
          memoryFree := shrinkHead pre s post sizeAligned })

/-- The test `allocate_fixed` makes on a free segment. -/
def fitsFixed (offset sizeAligned : ℕ) (s : MemoryFree) : Bool :=
  decide (s.base ≤ offset) && decide (offset ≤ wrappingAdd s.base s.size) &&
    decide (sizeAligned ≤ wrappingSub (wrappingAdd s.base s.size) offset)

/-- Allocation at a given address: the segment around it loses its head or is split. -/
def allocateFixed (a : GenericAllocator) (size offset : ℕ) :
    Except AllocatorError ℕ × GenericAllocator :=
  if size = 0 then (.error (.invalidSize size), a)
  else
    let sizeAligned := a.fixAlignment size
    match findSplit (fitsFixed offset sizeAligned) a.memoryFree with
    | none => (.error (.fixedNotAvailable sizeAligned offset), a)
    | some (pre, s, post) =>
      (.ok offset,
        { a with
          memoryUsed := a.memoryUsed ++ [⟨offset, sizeAligned⟩]
          memoryFree :=
            if s.base = offset then shrinkHead pre s post sizeAligned
            else splitAround pre s post offset sizeAligned })

/-- The sorted insertion of `free`. -/
def insertFree (m : MemoryFree) (memoryFree : List MemoryFree) : List MemoryFree :=
  if memoryFree.isEmpty then memoryFree ++ [m]
  else
    match findSplit (fun x => decide (m.base < x.base)) memoryFree with
    | some (pre, x, post) => pre ++ m :: x :: post
    | none => memoryFree ++ [m]

/-- The used segment with base `ptr` goes back to the free list, which is then merged. -/
def free (a : GenericAllocator) (ptr : ℕ) : Except AllocatorError Unit × GenericAllocator :=
  match findSplit (fun x => decide (x.base = ptr)) a.memoryUsed with
  | some (pre, m, post) =>
    (.ok (),
      { a with
        memoryUsed := pre ++ post
        memoryFree := mergeMemory (insertFree m a.memoryFree) })
  | none => (.error (.unknownMemory ptr), a)

end GenericAllocator

instance : Allocator GenericAllocator where
  allocate := GenericAllocator.allocate
  allocateFixed := GenericAllocator.allocateFixed
  free := GenericAllocator.free

/-- The allocator used with shared virtual memory: it always succeeds and hands out
`u64::MAX`. -/
structure DummyAllocator

instance : Allocator DummyAllocator where
  allocate a _ _ := (.ok (2 ^ 64 - 1), a)
  allocateFixed a _ _ := (.ok (2 ^ 64 - 1), a)
  free a _ := (.ok (), a)

namespace GenericAllocator

/-! ### The pieces of the operations -/

theorem fixAlignment_eq (a : GenericAllocator) (size : ℕ) :
    a.fixAlignment size = alignUp size a.alignment := rfl

/-- The region `[lo, hi)` lies in the 64-bit address space and its size is a word. -/
structure Region (lo hi : ℕ) : Prop where
  lo_lt_hi : lo < hi
  hi_le : hi ≤ 2 ^ 64
  size_lt : hi - lo < 2 ^ 64

section

variable {lo hi : ℕ} (hR : Region lo hi)

include hR

theorem mergeFrom_eq {s : MemoryFree} {l : List MemoryFree} (hl : Ordered (s :: l))
    (hin : ∀ t ∈ s :: l, lo ≤ t.base ∧ t.stop ≤ hi) : mergeFrom s l = coalesceFrom s l := by
  induction l generalizing s with
  | nil => rfl
  | cons n l ih =>
    obtain ⟨-, hh, hsz⟩ := hR
    obtain ⟨hs, hsl, hl'⟩ := ordered_cons.mp hl
    obtain ⟨hn, -, -⟩ := ordered_cons.mp hl'
    rw [forall_mem_cons, forall_mem_cons] at hin
    obtain ⟨hsin, hni, hin⟩ := hin
    have hsn : s.stop ≤ n.base := hsl n mem_cons_self
    simp only [Segment.stop] at hsn hsin hni
    have ha : wrappingAdd s.base s.size = s.stop := wrappingAdd_of_lt (by omega)
    rw [mergeFrom, coalesceFrom, ha]
    by_cases h : s.stop = n.base
    · have hb : s.base + s.size = n.base := h
      have hsi : wrappingAdd s.size n.size = s.size + n.size := wrappingAdd_of_lt (by omega)
      rw [if_pos h, if_pos h, hsi]
      refine ih (hl.merge_head h) (forall_mem_cons.mpr ⟨?_, hin⟩)
      simp only [Segment.stop]
      omega
    · rw [if_neg h, if_neg h, ih hl' (forall_mem_cons.mpr ⟨hni, hin⟩)]

/-- The merging loop is the merging pass of the library. -/
theorem mergeMemory_eq {l : List MemoryFree} (hl : Ordered l)
    (hin : ∀ t ∈ l, lo ≤ t.base ∧ t.stop ≤ hi) : mergeMemory l = coalesce l := by
  cases l with
  | nil => rfl
  | cons s l => exact mergeFrom_eq hR hl hin

end

theorem insertFree_eq (m : MemoryFree) (l : List MemoryFree) :
    insertFree m l = insertSorted m l := by
  have key : ∀ l : List MemoryFree,
      (match findSplit (fun x => decide (m.base < x.base)) l with
        | some (pre, x, post) => pre ++ m :: x :: post
        | none => l ++ [m]) = insertSorted m l := by
    intro l
    induction l with
    | nil => rfl
    | cons s l ih =>
      rw [findSplit, insertSorted]
      by_cases h : m.base < s.base
      · simp [h]
      simp only [h, decide_false, Bool.false_eq_true, if_false, ← ih]
      cases findSplit (fun x => decide (m.base < x.base)) l with
      | none => rfl
      | some r => rfl
  rw [insertFree, key]
  cases l with
  | nil => rfl
  | cons s l => rfl

/-! ### Cutting a free segment -/

section

variable {lo hi : ℕ} (hR : Region lo hi) {s : MemoryFree} (hs : lo ≤ s.base ∧ s.stop ≤ hi)

include hR hs

theorem shrinkHead_eq {n : ℕ} (hn : n ≤ s.size) (pre post : List MemoryFree) :
    shrinkHead pre s post n = pre ++ pieces s ⟨s.base, n⟩ ++ post := by
  obtain ⟨-, hh, hsz⟩ := hR
  simp only [Segment.stop] at hs
  have hsu : wrappingSub s.size n = s.size - n := wrappingSub_of_le hn (by omega) (by omega)
  simp only [shrinkHead, hsu, pieces, Segment.stop]
  rw [gap_of_le le_rfl, nil_append]
  by_cases h : s.size - n = 0
  · rw [if_pos h, gap_of_le (by omega), append_nil]
  have ha : wrappingAdd s.base n = s.base + n := wrappingAdd_of_lt (by omega)
  have hsi : s.base + s.size - (s.base + n) = s.size - n := by omega
  rw [if_neg h, gap_of_lt (by omega), ha, hsi, append_assoc]
  rfl

theorem splitAround_eq {off n : ℕ} (hb : s.base < off) (hst : off + n ≤ s.stop)
    (hla : s.stop < 2 ^ 64) (pre post : List MemoryFree) :
    splitAround pre s post off n = pre ++ pieces s ⟨off, n⟩ ++ post := by
  obtain ⟨-, hh, hsz⟩ := hR
  simp only [Segment.stop] at hs hst hla
  have hl : wrappingSub off s.base = off - s.base :=
    wrappingSub_of_le (by omega) (by omega) (by omega)
  have hsu : wrappingAdd (off - s.base) n = off - s.base + n := wrappingAdd_of_lt (by omega)
  have hr : wrappingSub s.size (off - s.base + n) = s.size - (off - s.base + n) :=
    wrappingSub_of_le (by omega) (by omega) (by omega)
  have he : wrappingAdd off n = off + n := wrappingAdd_of_lt (by omega)
  simp only [splitAround, hl, hsu, hr, he, pieces, Segment.stop]
  rw [if_neg (show ¬ off - s.base = 0 by omega), gap_of_lt hb]
  rcases lt_or_ge (off + n) (s.base + s.size) with h | h
  · have hsi : s.base + s.size - (off + n) = s.size - (off - s.base + n) := by
      omega
    rw [if_pos (by omega), gap_of_lt h, hsi]
    simp
  · rw [if_neg (by omega), gap_of_le h]
    simp

/-- The test of `allocate_fixed` on a segment of the region: the requested range lies
inside the segment, and the segment does not end at the end of the address space. -/
theorem fitsFixed_iff {off n : ℕ} :
    fitsFixed off n s = true ↔ s.base ≤ off ∧ off + n ≤ s.stop ∧ s.stop < 2 ^ 64 := by
  obtain ⟨hlt, hh, hsz⟩ := hR
  simp only [Segment.stop] at hs ⊢
  simp only [fitsFixed, Bool.and_eq_true, decide_eq_true_eq]
  by_cases hl : s.base + s.size < 2 ^ 64
  · rw [wrappingAdd_of_lt hl]
    constructor
    · rintro ⟨⟨hb, ho⟩, hd⟩
      rw [wrappingSub_of_le ho (by omega) (by omega)] at hd
      omega
    · rintro ⟨hb, ho, -⟩
      rw [wrappingSub_of_le (by omega) (by omega) (by omega)]
      omega
  · -- the end of such a segment wraps around to 0, and no range is found in it
    have hw : wrappingAdd s.base s.size = 0 := by
      rw [wrappingAdd]
      omega
    rw [hw]
    omega

end

/-! ### The operations -/

/-- `allocate` fails because no free segment is large enough, or takes the head of the first one
that is. -/
theorem allocate_eq (a : GenericAllocator) (size : ℕ) (va : Option ℕ) :
    (∃ e, a.allocate size va = (.error e, a) ∧
      (0 < size → ∀ s ∈ a.memoryFree, s.size < a.fixAlignment size)) ∨
    ∃ pre s post, 0 < size ∧ a.memoryFree = pre ++ s :: post ∧
      a.fixAlignment size ≤ s.size ∧ (∀ t ∈ pre, t.size < a.fixAlignment size) ∧
      a.allocate size va = (.ok s.base, { a with
          memoryUsed := a.memoryUsed ++ [⟨s.base, a.fixAlignment size⟩]
          memoryFree := shrinkHead pre s post (a.fixAlignment size) }) := by
  by_cases hsi : size = 0
  · exact .inl ⟨.invalidSize size, by rw [allocate, if_pos hsi], fun h => by omega⟩
  cases hse : findSplit (fun s => decide (a.fixAlignment size ≤ s.size)) a.memoryFree with
  | none =>
    refine .inl ⟨.outOfMemory (a.fixAlignment size), ?_, fun _ s hs => ?_⟩
    · simp only [allocate, if_neg hsi, hse]
    · exact not_le.mp (of_decide_eq_false (findSplit_eq_none_iff.mp hse s hs))
  | some r =>
    obtain ⟨pre, s, post⟩ := r
    obtain ⟨hf, hs, hp⟩ := findSplit_eq_some hse
    refine .inr ⟨pre, s, post, Nat.pos_of_ne_zero hsi, hf, of_decide_eq_true hs,
      fun t ht => not_le.mp (of_decide_eq_false (hp t ht)), ?_⟩
    simp only [allocate, if_neg hsi, hse]

theorem allocateFixed_eq (a : GenericAllocator) (size off : ℕ) :
    (∃ e, a.allocateFixed size off = (.error e, a) ∧
      (0 < size → ∀ s ∈ a.memoryFree, fitsFixed off (a.fixAlignment size) s = false)) ∨
    ∃ pre s post, 0 < size ∧ a.memoryFree = pre ++ s :: post ∧
      fitsFixed off (a.fixAlignment size) s = true ∧
      a.allocateFixed size off = (.ok off,
        { a with
          memoryUsed := a.memoryUsed ++ [⟨off, a.fixAlignment size⟩]
          memoryFree :=
            if s.base = off then shrinkHead pre s post (a.fixAlignment size)
            else splitAround pre s post off (a.fixAlignment size) }) := by
  by_cases hsi : size = 0
  · exact .inl ⟨.invalidSize size, by rw [allocateFixed, if_pos hsi], fun h => by omega⟩
  cases hse : findSplit (fitsFixed off (a.fixAlignment size)) a.memoryFree with
  | none =>
    refine .inl ⟨.fixedNotAvailable (a.fixAlignment size) off, ?_,
      fun _ => findSplit_eq_none_iff.mp hse⟩
    simp only [allocateFixed, if_neg hsi, hse]
  | some r =>
    obtain ⟨pre, s, post⟩ := r
    obtain ⟨hf, hs, -⟩ := findSplit_eq_some hse
    refine .inr ⟨pre, s, post, Nat.pos_of_ne_zero hsi, hf, hs, ?_⟩
    simp only [allocateFixed, if_neg hsi, hse]

theorem free_eq (a : GenericAllocator) (ptr : ℕ) :
    (a.free ptr = (.error (.unknownMemory ptr), a) ∧ ∀ s ∈ a.memoryUsed, s.base ≠ ptr) ∨
    ∃ pre m post, a.memoryUsed = pre ++ m :: post ∧ m.base = ptr ∧
      (∀ x ∈ pre, x.base ≠ ptr) ∧
      a.free ptr = (.ok (),
        { a with
          memoryUsed := pre ++ post
          memoryFree := mergeMemory (insertFree m a.memoryFree) }) := by
  rw [free]
  cases hse : findSplit (fun x => decide (x.base = ptr)) a.memoryUsed with
  | none =>
    refine .inl ⟨rfl, fun s hs => ?_⟩
    exact of_decide_eq_false (findSplit_eq_none_iff.mp hse s hs)
  | some r =>
    obtain ⟨pre, m, post⟩ := r
    obtain ⟨hu, hm, hp⟩ := findSplit_eq_some hse
    exact .inr ⟨pre, m, post, hu, of_decide_eq_true hm,
      fun x hx => of_decide_eq_false (hp x hx), rfl⟩

/-- The segment of the rounded size at `addr` is appended to the used ones, and the vectors still
tile the region. -/
structure Granted (lo hi : ℕ) (a b : GenericAllocator) (size addr : ℕ) : Prop where
  partition : Partition lo hi b.memoryFree b.memoryUsed
  used : b.memoryUsed = a.memoryUsed ++ [⟨addr, a.fixAlignment size⟩]
  alignment : b.alignment = a.alignment

/-- The used segment with base `ptr` is removed, and the vectors still tile the region. -/
structure Freed (lo hi : ℕ) (a b : GenericAllocator) (ptr : ℕ) : Prop where
  partition : Partition lo hi b.memoryFree b.memoryUsed
  used : ∃ pre m post, a.memoryUsed = pre ++ m :: post ∧ m.base = ptr ∧
    (∀ x ∈ pre, x.base ≠ ptr) ∧ b.memoryUsed = pre ++ post
  alignment : b.alignment = a.alignment

section

variable {lo hi : ℕ} {a : GenericAllocator} (hR : Region lo hi)
  (hP : Partition lo hi a.memoryFree a.memoryUsed)

include hR hP

omit hR in
theorem partition_cut {pre post : List MemoryFree} {s : MemoryFree} {off n : ℕ}
    (hf : a.memoryFree = pre ++ s :: post) (hn : 0 < n) (hb : s.base ≤ off)
    (hs : off + n ≤ s.stop) :
    Partition lo hi (pre ++ pieces s ⟨off, n⟩ ++ post) (a.memoryUsed ++ [⟨off, n⟩]) := by
  rw [hf] at hP
  exact hP.cut hn hb hs

theorem allocate_cases (ha : 0 < a.alignment) {size : ℕ}
    (hf : size + (a.alignment - 1) < 2 ^ 64) (va : Option ℕ) :
    (∃ e, a.allocate size va = (.error e, a)) ∨
      ∃ addr b, a.allocate size va = (.ok addr, b) ∧ Granted lo hi a b size addr := by
  rcases allocate_eq a size va with ⟨e, heq, -⟩ | ⟨pre, s, post, hs, hfr, hn, -, heq⟩
  · exact .inl ⟨e, heq⟩
  have hle : size ≤ a.fixAlignment size := le_alignUp ha hf
  have hm : s ∈ a.memoryFree := by simp [hfr]
  refine .inr ⟨s.base, _, heq, ?_, rfl, rfl⟩
  simp only [shrinkHead_eq hR (hP.mem_region (.inl hm)) hn]
  exact partition_cut hP hfr (by omega) le_rfl (Nat.add_le_add_left hn _)

theorem allocateFixed_cases (ha : 0 < a.alignment) {size : ℕ}
    (hf : size + (a.alignment - 1) < 2 ^ 64) (off : ℕ) :
    (∃ e, a.allocateFixed size off = (.error e, a)) ∨
      ∃ b, a.allocateFixed size off = (.ok off, b) ∧ Granted lo hi a b size off := by
  rcases allocateFixed_eq a size off with
    ⟨e, heq, -⟩ | ⟨pre, s, post, hsi, hfr, hs, heq⟩
  · exact .inl ⟨e, heq⟩
  have hle : size ≤ a.fixAlignment size := le_alignUp ha hf
  have hm : s ∈ a.memoryFree := by simp [hfr]
  have hin := hP.mem_region (.inl hm)
  obtain ⟨hb, hst, hl⟩ := (fitsFixed_iff hR hin).mp hs
  have hc := partition_cut hP hfr (by omega) hb hst
  refine .inr ⟨_, heq, ?_, rfl, rfl⟩
  by_cases hh : s.base = off
  · subst hh
    simp only [if_true, shrinkHead_eq hR hin (Nat.le_of_add_le_add_left hst)]
    exact hc
  · have hlt : s.base < off := lt_of_le_of_ne hb hh
    simp only [if_neg hh, splitAround_eq hR hin hlt hst hl]
    exact hc

theorem free_cases (ptr : ℕ) :
    (a.free ptr = (.error (.unknownMemory ptr), a) ∧ ∀ s ∈ a.memoryUsed, s.base ≠ ptr) ∨
      ∃ b, a.free ptr = (.ok (), b) ∧ Freed lo hi a b ptr := by
  rcases free_eq a ptr with he | ⟨pre, m, post, hu, hm, hp, heq⟩
  · exact .inl he
  have hin : ∀ t ∈ insertSorted m a.memoryFree, lo ≤ t.base ∧ t.stop ≤ hi := by
    intro t ht
    rw [mem_insertSorted] at ht
    rcases ht with rfl | ht
    · exact hP.mem_region (.inr (by simp [hu]))
    · exact hP.mem_region (.inl ht)
  have hP' := hP
  rw [hu] at hP'
  have hme : m ∈ pre ++ m :: post := by simp
  have ho : Ordered (insertSorted m a.memoryFree) :=
    ordered_insertSorted hP.canonical.ordered (hP'.used_pos m hme)
      fun s hs => hP'.apart s hs m hme
  refine .inr ⟨_, heq, ?_, ⟨pre, m, post, hu, hm, hp, rfl⟩, rfl⟩
  rw [insertFree_eq, mergeMemory_eq hR ho hin]
  exact hP'.give

end

end GenericAllocator

end Tapasco
