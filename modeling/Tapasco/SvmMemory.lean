import Tapasco.Lib.Runs
import Tapasco.Lib.Segment
import Mathlib.Algebra.Group.Nat.Defs

/-!
# The Device Memory of Shared Virtual Memory

The driver for shared virtual memory keeps the free blocks of the device memory in a list
sorted by address. This module embeds `allocate_device_memory`, a first-fit search, and
`free_device_memory`, which walks the list to the place of the freed block and merges it
with the neighbours it touches, each of the cases as the source has it. List nodes are
taken to be allocated without failure.

What is freed need not be what was allocated: any part of the live memory may be given
back, at once or in pieces. Live memory is therefore described address by address, by how
many live ranges an address lies in.
-/

open FreeList List
open Segment (stop_mk Contains)

namespace Tapasco.Svm

def physMemSize : ℕ := 4 * 2 ^ 30

/-- `allocate_device_memory`: the base address and the list of free blocks, or `none` where
the source returns -1. -/
def allocateDeviceMemory (size : ℕ) : List Segment → Option (ℕ × List Segment)
  | [] => none
  | b :: l =>
    if size ≤ b.size then
      if b.size - size = 0 then some (b.base, l)
      else some (b.base, ⟨b.base + size, b.size - size⟩ :: l)
    else (allocateDeviceMemory size l).map fun r => (r.1, b :: r.2)

/-- The freed block is added before the current block `b`, directly or by merging it with the
previous block or with `b`. -/
def freeBefore (devAddr size : ℕ) (b : Segment) (l : List Segment) :
    Option Segment → List Segment
  | some p =>
    if p.base + p.size = devAddr then
      if devAddr + size = b.base then ⟨p.base, p.size + (size + b.size)⟩ :: l
      else ⟨p.base, p.size + size⟩ :: b :: l
    else if devAddr + size = b.base then p :: ⟨devAddr, b.size + size⟩ :: l
    else p :: ⟨devAddr, size⟩ :: b :: l
  | none =>
    if devAddr + size = b.base then ⟨devAddr, b.size + size⟩ :: l
    else ⟨devAddr, size⟩ :: b :: l

/-- The loop of `free_device_memory` from the current block on. The block before it, if there is
one, is passed along, and is part of the list that is returned. -/
def freeLoop (devAddr size : ℕ) : Option Segment → List Segment → List Segment
  | prev, [] => prev.toList
  | prev, [b] =>
    if devAddr < b.base then freeBefore devAddr size b [] prev
    else if b.base + b.size = devAddr then prev.toList ++ [⟨b.base, b.size + size⟩]
    else prev.toList ++ [b, ⟨devAddr, size⟩]
  | prev, b :: c :: l =>
    if devAddr < b.base then freeBefore devAddr size b (c :: l) prev
    else prev.toList ++ freeLoop devAddr size (some b) (c :: l)

def freeDeviceMemory (devAddr size : ℕ) : List Segment → List Segment
  | [] => [⟨devAddr, size⟩]
  | b :: l => freeLoop devAddr size none (b :: l)

/-! ### Allocation -/

/-- **What allocation does**: it cuts the requested size off the front of a free block. -/
theorem allocateDeviceMemory_eq_some {size addr : ℕ} {bs rest : List Segment}
    (h : allocateDeviceMemory size bs = some (addr, rest)) :
    ∃ pre b post, bs = pre ++ b :: post ∧ b.base = addr ∧ size ≤ b.size ∧
      rest = pre ++ gap (addr + size) b.stop ++ post := by
  induction bs generalizing rest with
  | nil => exact absurd h (by simp [allocateDeviceMemory])
  | cons b l ih =>
    rw [allocateDeviceMemory] at h
    by_cases hf : size ≤ b.size
    · rw [if_pos hf] at h
      by_cases ha : b.size - size = 0
      · rw [if_pos ha, Option.some.injEq, Prod.mk.injEq] at h
        obtain ⟨rfl, rfl⟩ := h
        refine ⟨[], b, l, rfl, rfl, hf, ?_⟩
        rw [gap_of_le (by simp only [Segment.stop]; omega), nil_append, nil_append]
      rw [if_neg ha, Option.some.injEq, Prod.mk.injEq] at h
      obtain ⟨rfl, rfl⟩ := h
      refine ⟨[], b, l, rfl, rfl, hf, ?_⟩
      have hlt : b.base + size < b.stop := by
        simp only [Segment.stop]
        omega
      rw [gap_of_lt hlt, Segment.stop, Nat.add_sub_add_left]
      rfl
    · rw [if_neg hf, Option.map_eq_some_iff] at h
      obtain ⟨⟨a, r⟩, hr, heq⟩ := h
      rw [Prod.mk.injEq] at heq
      obtain ⟨rfl, rfl⟩ := heq
      obtain ⟨pre, b', post, rfl, hb, hs, hre⟩ := ih hr
      exact ⟨b :: pre, b', post, rfl, hb, hs, congrArg (b :: ·) hre⟩

/-! ### Freeing -/

section

variable {devAddr size : ℕ} {p b : Segment} {l : List Segment}

/-- The merging pass where the current segment ends with the first block of the rest. -/
theorem coalesceFrom_grown (hl : Canonical (b :: l)) {s : Segment} (hp : 0 < s.size)
    (hs : s.stop = b.stop) : coalesceFrom s l = s :: l := by
  obtain ⟨-, hb, hl'⟩ := canonical_cons.mp hl
  exact coalesceFrom_of_canonical (canonical_cons.mpr ⟨hp, fun t ht => hs ▸ hb t ht, hl'⟩)

theorem coalesceFrom_front (hl : Canonical (b :: l)) {s : Segment} (hp : 0 < s.size) :
    coalesceFrom s (b :: l) =
      if s.stop = b.base then ⟨s.base, s.size + b.size⟩ :: l else s :: b :: l := by
  rw [coalesceFrom, coalesceFrom_of_canonical hl]
  by_cases h : s.stop = b.base
  · rw [if_pos h, if_pos h]
    refine coalesceFrom_grown hl (Nat.add_pos_left hp _) ?_
    simp only [Segment.stop] at h ⊢
    omega
  · rw [if_neg h, if_neg h]

theorem freeBefore_some (hl : Canonical (b :: l)) (hp : 0 < p.size) (hs : 0 < size) :
    freeBefore devAddr size b l (some p) = coalesceFrom p (⟨devAddr, size⟩ :: b :: l) := by
  rw [freeBefore, coalesceFrom]
  by_cases hlef : p.base + p.size = devAddr
  · have hst : Segment.stop ⟨p.base, p.size + size⟩ = devAddr + size := by
      rw [stop_mk]
      omega
    have hl' : p.stop = devAddr := hlef
    simp only [if_pos hlef, if_pos hl']
    rw [coalesceFrom_front hl (Nat.add_pos_left hp _), hst, add_assoc]
  · have hl' : ¬ p.stop = devAddr := hlef
    simp only [if_neg hlef, if_neg hl']
    rw [coalesceFrom_front hl hs, add_comm b.size, apply_ite (List.cons p)]
    rfl

/-- **The walk** from a block on computes sorted insertion and one merging pass, if the
freed block belongs behind it. -/
theorem freeLoop_some (hl : Canonical (p :: b :: l)) (hs : 0 < size) :
    freeLoop devAddr size (some p) (b :: l) =
      coalesceFrom p (insertSorted ⟨devAddr, size⟩ (b :: l)) := by
  induction l generalizing p b with
  | nil =>
    obtain ⟨hp, hpl, hl'⟩ := canonical_cons.mp hl
    rw [freeLoop, insertSorted]
    by_cases hlt : devAddr < b.base
    · rw [if_pos hlt, if_pos hlt, freeBefore_some hl' hp hs]
    rw [if_neg hlt, if_neg hlt, coalesceFrom,
      if_neg (ne_of_lt (hpl b mem_cons_self)), insertSorted, coalesceFrom,
      apply_ite (List.cons p)]
    rfl
  | cons c l ih =>
    obtain ⟨hp, hpl, hl'⟩ := canonical_cons.mp hl
    rw [freeLoop, insertSorted]
    by_cases hlt : devAddr < b.base
    · rw [if_pos hlt, if_pos hlt, freeBefore_some hl' hp hs]
    · rw [if_neg hlt, if_neg hlt, coalesceFrom, if_neg (ne_of_lt (hpl b mem_cons_self)), ih hl']
      rfl

theorem freeDeviceMemory_eq {bs : List Segment} (hl : Canonical bs) (hs : 0 < size) :
    freeDeviceMemory devAddr size bs = coalesce (insertSorted ⟨devAddr, size⟩ bs) := by
  cases bs with
  | nil => rfl
  | cons b l =>
    have hf : freeBefore devAddr size b l none =
        coalesceFrom ⟨devAddr, size⟩ (b :: l) := by
      rw [freeBefore, coalesceFrom_front hl hs, add_comm b.size]
      rfl
    rw [freeDeviceMemory, insertSorted]
    by_cases hlt : devAddr < b.base
    · rw [if_pos hlt, coalesce, ← hf]
      cases l <;> exact if_pos hlt
    rw [if_neg hlt, coalesce]
    cases l with
    | nil =>
      rw [freeLoop, if_neg hlt, insertSorted, coalesceFrom]
      rfl
    | cons c l =>
      rw [freeLoop, if_neg hlt, freeLoop_some hl hs]
      rfl

end

/-! ### Runs -/

/-- The free blocks, and for each address in how many live ranges it lies. -/
structure DeviceMemory where
  blocks : List Segment
  live : ℕ → ℕ

/-- The memory after `pcie_init_svm`: one free block. -/
def DeviceMemory.new : DeviceMemory :=
  ⟨[⟨0, physMemSize⟩], fun _ => 0⟩

inductive MemoryCall where
  | allocate (size : ℕ)
  | free (devAddr size : ℕ)

/-- The effect of a call. What is allocated becomes live, what is freed is not live any
more. -/
def memoryStep (s : DeviceMemory) : MemoryCall → DeviceMemory
  | .allocate size =>
    match allocateDeviceMemory size s.blocks with
    | none => s
    | some (addr, blocks) =>
      ⟨blocks, fun x => s.live x + if (Segment.mk addr size).Contains x then 1 else 0⟩
  | .free devAddr size =>
    ⟨freeDeviceMemory devAddr size s.blocks,
      fun x => s.live x - if (Segment.mk devAddr size).Contains x then 1 else 0⟩

/-- What is freed is a range of live memory. -/
def FreesLive (s : DeviceMemory) : MemoryCall → Prop
  | .allocate _ => True
  | .free devAddr size => 0 < size ∧ ∀ x, (Segment.mk devAddr size).Contains x → 0 < s.live x

/-- The free blocks are sorted, not empty and never adjacent, and an address of the device
memory lies in exactly one free block or live range, and any other in none. -/
structure Tiled (s : DeviceMemory) : Prop where
  canonical : Canonical s.blocks
  once : ∀ x, coverCount s.blocks x + s.live x = if x < physMemSize then 1 else 0

section

variable {s : DeviceMemory}

theorem tiled_new : Tiled DeviceMemory.new where
  canonical := canonical_singleton (by decide)
  once x := by
    simp only [DeviceMemory.new, coverCount, countP_cons, countP_nil,
      Contains, stop_mk, Nat.zero_le, true_and, zero_add, add_zero, decide_eq_true_eq]

theorem coverCount_add {l m : List Segment} (hl : Canonical l) (hm : Canonical m) {t : Segment}
    (hs : ∀ x, Covers l x ↔ Covers m x ∨ t.Contains x)
    (hn : ∀ x, Covers m x → ¬ t.Contains x) (x : ℕ) :
    coverCount l x = coverCount m x + if t.Contains x then 1 else 0 := by
  have hl₁ := hl.coverCount_le_one x
  have hm₁ := hm.coverCount_le_one x
  have hlx := coverCount_pos_iff (l := l) (x := x)
  have hmx := coverCount_pos_iff (l := m) (x := x)
  rw [hs x] at hlx
  by_cases ht : t.Contains x
  · have hm₀ : ¬ 0 < coverCount m x := fun hp => hn x (hmx.mp hp) ht
    have hl₀ : 0 < coverCount l x := hlx.mpr (.inr ht)
    rw [if_pos ht]
    omega
  · rw [or_iff_left ht] at hlx
    rw [if_neg ht]
    have : 0 < coverCount l x ↔ 0 < coverCount m x := hlx.trans hmx.symm
    omega

theorem Tiled.allocate (h : Tiled s) {size addr : ℕ} {rest : List Segment}
    (hal : allocateDeviceMemory size s.blocks = some (addr, rest)) :
    Canonical rest ∧ ∀ x, coverCount s.blocks x =
      coverCount rest x + if (Segment.mk addr size).Contains x then 1 else 0 := by
  obtain ⟨pre, b, post, hb, rfl, hs, rfl⟩ := allocateDeviceMemory_eq_some hal
  have hc := h.canonical
  rw [hb] at hc ⊢
  have hr : Canonical (pre ++ gap (b.base + size) b.stop ++ post) := by
    refine hc.replace ⟨fun u hu => (mem_gap hu).2.2, pairwise_gap _ _⟩ fun u hu => ?_
    obtain ⟨hba, hst, -⟩ := mem_gap hu
    exact ⟨by omega, by omega⟩
  have ha := hc.apart
  rw [pairwise_append, pairwise_cons] at ha
  obtain ⟨-, ⟨hbp, -⟩, hcr⟩ := ha
  refine ⟨hr, coverCount_add hc hr (fun x => ?_) fun x hx ht => ?_⟩
  · simp only [covers_append, covers_cons, covers_gap, Contains, Segment.stop]
    by_cases hp : Covers pre x
    · simp [hp]
    by_cases hpo : Covers post x
    · simp [hpo]
    · simp only [hp, hpo, or_false, false_or]
      omega
  · simp only [covers_append, covers_gap, Contains, stop_mk] at hx ht
    rcases hx with (⟨u, hu, hux⟩ | hg) | ⟨u, hu, hux⟩
    · have hlt := hcr u hu b mem_cons_self
      have := hux.2
      omega
    · omega
    · have hlt := hbp u hu
      have := hux.1
      simp only [Segment.stop] at hlt
      omega

theorem canonical_free {bs : List Segment} {devAddr size : ℕ} (hc : Canonical bs) (hs : 0 < size)
    (hn : ∀ x, Covers bs x → ¬ (Segment.mk devAddr size).Contains x) :
    Canonical (freeDeviceMemory devAddr size bs) ∧ ∀ x,
      Covers (freeDeviceMemory devAddr size bs) x ↔
        Covers bs x ∨ (Segment.mk devAddr size).Contains x := by
  have hd : ∀ b ∈ bs, b.Disjoint ⟨devAddr, size⟩ := fun b hb =>
    Segment.disjoint_of_not_contains (hc.pos b hb) hs fun x hx => hn x (Covers.of_mem hb hx)
  rw [freeDeviceMemory_eq hc hs]
  refine ⟨canonical_coalesce (ordered_insertSorted hc.ordered hs hd), fun x => ?_⟩
  rw [covers_coalesce, covers_insertSorted, or_comm]

theorem Tiled.free (h : Tiled s) {devAddr size : ℕ} (hs : 0 < size)
    (hl : ∀ x, (Segment.mk devAddr size).Contains x → 0 < s.live x) :
    Canonical (freeDeviceMemory devAddr size s.blocks) ∧
      ∀ x, coverCount (freeDeviceMemory devAddr size s.blocks) x =
        coverCount s.blocks x + if (Segment.mk devAddr size).Contains x then 1 else 0 := by
  have hn : ∀ x, Covers s.blocks x → ¬ (Segment.mk devAddr size).Contains x := by
    intro x hx ht
    have hp := coverCount_pos_iff.mpr hx
    have ho := h.once x
    have := hl x ht
    split at ho <;> omega
  obtain ⟨hc, hco⟩ := canonical_free h.canonical hs hn
  exact ⟨hc, coverCount_add hc h.canonical hco hn⟩

theorem Tiled.step (h : Tiled s) {a : MemoryCall} (ha : FreesLive s a) :
    Tiled (memoryStep s a) := by
  cases a with
  | allocate size =>
    rw [memoryStep]
    cases hal : allocateDeviceMemory size s.blocks with
    | none => exact h
    | some r =>
      obtain ⟨addr, rest⟩ := r
      obtain ⟨hc, hco⟩ := h.allocate hal
      refine ⟨hc, fun x => ?_⟩
      have ho := h.once x
      rw [hco x] at ho
      simp only
      omega
  | free devAddr size =>
    obtain ⟨hs, hl⟩ := ha
    obtain ⟨hc, hco⟩ := h.free hs hl
    refine ⟨hc, fun x => ?_⟩
    have ho := h.once x
    simp only [memoryStep, hco x]
    by_cases hx : (Segment.mk devAddr size).Contains x
    · have := hl x hx
      simp only [if_pos hx]
      omega
    · simp only [if_neg hx]
      omega

end

/-- **The free list of the device memory**: in every run in which only live memory is freed, in
whatever pieces and order, the free list is sorted, its blocks are not empty and never adjacent, and
the free blocks and the live ranges cover the device memory exactly, each address once. -/
theorem tiled_of_mem_trace (as : List MemoryCall)
    (has : Runs.AllSteps memoryStep FreesLive DeviceMemory.new as) :
    ∀ s ∈ Runs.trace memoryStep DeviceMemory.new as, Tiled s :=
  Runs.forall_mem_trace_of (fun _ _ h ha => h.step ha) tiled_new has

/-- Three pages are allocated as two ranges; a range across both is freed, then the rest. -/
theorem tiled_of_mem_trace_across_ranges :
    Tiled (Runs.run memoryStep DeviceMemory.new
      [.allocate 8192, .allocate 4096, .free 4096 8192, .free 0 4096]) := by
  refine tiled_of_mem_trace
    [.allocate 8192, .allocate 4096, .free 4096 8192, .free 0 4096]
    ⟨trivial, trivial, ⟨by decide, fun x hx => ?_⟩, ⟨by decide, fun x hx => ?_⟩, trivial⟩ _
    (Runs.run_mem_trace _ _)
  · have hor : (Segment.mk 0 8192).Contains x ∨ (Segment.mk 8192 4096).Contains x := by
      simp only [Contains, stop_mk] at hx ⊢
      omega
    change 0 < 0 + (if (Segment.mk 0 8192).Contains x then 1 else 0) +
      (if (Segment.mk 8192 4096).Contains x then 1 else 0)
    rcases hor with h | h
    · rw [if_pos h]
      omega
    · rw [if_pos h]
      omega
  · have h₁ : (Segment.mk 0 8192).Contains x := by
      simp only [Contains, stop_mk] at hx ⊢
      omega
    have h₂ : ¬ (Segment.mk 4096 8192).Contains x := by
      simp only [Contains, stop_mk] at hx ⊢
      omega
    change 0 < 0 + (if (Segment.mk 0 8192).Contains x then 1 else 0) +
      (if (Segment.mk 8192 4096).Contains x then 1 else 0) -
      (if (Segment.mk 4096 8192).Contains x then 1 else 0)
    rw [if_pos h₁, if_neg h₂]
    omega

end Tapasco.Svm
