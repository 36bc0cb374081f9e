import Tapasco.AllocatorRuns

/-!
# Which Requests Succeed

`GenericAllocator` only ever consults its free list. In the histories of an allocator that
tile its region the free list consists of the maximal gaps between the live segments, so
that the success of each operation can be told from the live segments alone.
-/

open FreeList Word64

namespace Tapasco.GenericAllocator

/-! ### Failing operations -/

variable {a : GenericAllocator} {size : ℕ}

theorem allocate_error {va : Option ℕ} {e : AllocatorError}
    (h : (a.allocate size va).1 = .error e) : (a.allocate size va).2 = a := by
  rcases allocate_eq a size va with ⟨e', heq, -⟩ | ⟨pre, s, post, -, -, -, -, heq⟩ <;>
    rw [heq] at h ⊢
  simp at h

theorem allocateFixed_error {off : ℕ} {e : AllocatorError}
    (h : (a.allocateFixed size off).1 = .error e) : (a.allocateFixed size off).2 = a := by
  rcases allocateFixed_eq a size off with ⟨e', heq, -⟩ | ⟨pre, s, post, -, -, -, heq⟩ <;>
    rw [heq] at h ⊢
  simp at h

theorem free_error {ptr : ℕ} {e : AllocatorError} (h : (a.free ptr).1 = .error e) :
    (a.free ptr).2 = a := by
  rcases free_eq a ptr with ⟨heq, -⟩ | ⟨pre, m, post, -, -, -, heq⟩ <;> rw [heq] at h ⊢
  simp at h

/-! ### When an operation succeeds -/

/-- The base of the lowest maximal gap with room for `n` bytes. -/
def FirstFit (lo hi : ℕ) (used : List MemoryFree) (n addr : ℕ) : Prop :=
  ∃ g, IsGap lo hi used g ∧ n ≤ g.size ∧ g.base = addr ∧
    ∀ g', IsGap lo hi used g' → n ≤ g'.size → addr ≤ g'.base

/-- No live segment has a byte among the `n` bytes at `offset`. -/
def Vacant (used : List MemoryFree) (offset n : ℕ) : Prop :=
  ∀ x, offset ≤ x → x < offset + n → ¬ Covers used x

section

variable {lo hi : ℕ} {a : GenericAllocator} (hP : Partition lo hi a.memoryFree a.memoryUsed)

include hP

/-- **`allocate` is first fit** in terms of the live segments. -/
theorem allocate_ok_iff (hsi : 0 < size) (va : Option ℕ) (addr : ℕ) :
    (a.allocate size va).1 = .ok addr ↔ FirstFit lo hi a.memoryUsed (a.fixAlignment size) addr := by
  have hiff : ∀ {g}, g ∈ a.memoryFree ↔ IsGap lo hi a.memoryUsed g := hP.mem_free_iff
  rcases allocate_eq a size va with
    ⟨e, heq, hn⟩ | ⟨pre, s, post, -, hf, hr, hp, heq⟩ <;> rw [heq]
  · simp only [reduceCtorEq, false_iff]
    rintro ⟨g, hg, hr, -, -⟩
    exact absurd hr (not_le.mpr (hn hsi g (hiff.mpr hg)))
  have hm : s ∈ a.memoryFree := by simp [hf]
  have hlo : ∀ g, IsGap lo hi a.memoryUsed g → a.fixAlignment size ≤ g.size →
      s.base ≤ g.base := by
    intro g hg hr'
    have hg' := hiff.mpr hg
    have hs := hP.canonical.sorted_base
    rw [hf] at hg' hs
    rw [List.pairwise_append, List.pairwise_cons] at hs
    rw [List.mem_append, List.mem_cons] at hg'
    rcases hg' with hg' | rfl | hg'
    · exact absurd hr' (not_le.mpr (hp g hg'))
    · exact le_rfl
    · exact le_of_lt (hs.2.1.1 g hg')
  simp only [Except.ok.injEq]
  constructor
  · rintro rfl
    exact ⟨s, hiff.mp hm, hr, rfl, hlo⟩
  · rintro ⟨g, hg, hr', rfl, hl⟩
    exact le_antisymm (hlo g hg hr') (hl s (hiff.mp hm) hr)

theorem exists_firstFit_iff (hs : 0 < size) :
    (∃ addr, FirstFit lo hi a.memoryUsed (a.fixAlignment size) addr) ↔
      ∃ g, IsGap lo hi a.memoryUsed g ∧ a.fixAlignment size ≤ g.size := by
  constructor
  · rintro ⟨addr, g, hg, hr, -, -⟩
    exact ⟨g, hg, hr⟩
  · rintro ⟨g, hg, hr⟩
    rcases allocate_eq a size none with ⟨e, -, hn⟩ | ⟨pre, s, post, -, -, -, -, heq⟩
    · exact absurd hr (not_le.mpr (hn hs g (hP.mem_free_iff.mpr hg)))
    · exact ⟨s.base, (allocate_ok_iff hP hs none s.base).mp (by rw [heq])⟩

variable (hR : Region lo hi)

include hR

/-- **`allocate_fixed` succeeds** exactly if its range lies in the region and is vacant. At the end
of the address space there has to be a live segment behind the range. -/
theorem allocateFixed_ok_iff (ha : 0 < a.alignment) (hsi : 0 < size)
    (hf : size + (a.alignment - 1) < 2 ^ 64) (off addr : ℕ) :
    (a.allocateFixed size off).1 = .ok addr ↔
      addr = off ∧ lo ≤ off ∧ off + a.fixAlignment size ≤ hi ∧
        Vacant a.memoryUsed off (a.fixAlignment size) ∧
        (hi = 2 ^ 64 → ∃ x, off ≤ x ∧ Covers a.memoryUsed x) := by
  have hn : 0 < a.fixAlignment size := lt_of_lt_of_le hsi (le_alignUp ha hf)
  rcases allocateFixed_eq a size off with
    ⟨e, heq, hno⟩ | ⟨pre, s, post, -, hfr, hs, heq⟩ <;> rw [heq]
  · simp only [reduceCtorEq, false_iff]
    rintro ⟨-, hlo, hh, hv, htop⟩
    obtain ⟨s, hs, hb, hst⟩ :=
      hP.canonical.exists_of_range (Nat.lt_add_of_pos_right hn) fun x hle hlt =>
        hP.covers_free (by omega) (by omega) (hv x hle hlt)
    have hin := hP.mem_region (.inl hs)
    have hsp := hR.hi_le
    have hl : s.stop < 2 ^ 64 := by
      by_contra hge
      obtain ⟨x, hx, t, ht, htx⟩ := htop (by omega)
      have hti := hP.mem_region (.inr ht)
      have hsx : s.Contains x := ⟨by omega, lt_of_lt_of_le htx.2 (by omega)⟩
      exact (hP.apart s hs t ht).not_contains hsx htx
    have hfi := (fitsFixed_iff hR hin).mpr ⟨hb, hst, hl⟩
    exact absurd hfi (Bool.eq_false_iff.mp (hno hsi s hs))
  · have hm : s ∈ a.memoryFree := by simp [hfr]
    have hin := hP.mem_region (.inl hm)
    obtain ⟨hb, hst, hl⟩ := (fitsFixed_iff hR hin).mp hs
    simp only [Except.ok.injEq]
    constructor
    · rintro rfl
      refine ⟨rfl, by omega, by omega, fun x hle hlt => ?_, fun htop => ⟨s.stop, by omega, ?_⟩⟩
      · exact hP.not_covers_used (Covers.of_mem hm ⟨by omega, by omega⟩)
      · exact (hP.mem_free_iff.mp hm).right (by omega)
    · rintro ⟨rfl, -⟩
      rfl

omit hP hR in
theorem free_ok_iff (a : GenericAllocator) (ptr : ℕ) :
    (a.free ptr).1 = .ok () ↔ ∃ s ∈ a.memoryUsed, s.base = ptr := by
  rcases free_eq a ptr with ⟨heq, hne⟩ | ⟨pre, m, post, hu, hm, -, heq⟩ <;> rw [heq]
  · simp only [reduceCtorEq, false_iff]
    rintro ⟨s, hs, hb⟩
    exact hne s hs hb
  · simp only [true_iff]
    exact ⟨m, by simp [hu], hm⟩

end

/-! ### Histories -/

/-- Which requests succeed in a state of an allocator for `[address, address + size)`. -/
structure RequestsExact (address size : ℕ) (a : GenericAllocator) : Prop where
  rounded : ∀ k n, k < 64 → a.alignment = 2 ^ k → n + (2 ^ k - 1) < 2 ^ 64 →
    a.fixAlignment n = (n + (2 ^ k - 1)) / 2 ^ k * 2 ^ k
  allocate : ∀ n va, 0 < n → n + (a.alignment - 1) < 2 ^ 64 →
    ((∃ addr, (a.allocate n va).1 = .ok addr) ↔
      ∃ g, IsGap address (address + size) a.memoryUsed g ∧ a.fixAlignment n ≤ g.size) ∧
    ∀ addr, (a.allocate n va).1 = .ok addr →
      FirstFit address (address + size) a.memoryUsed (a.fixAlignment n) addr
  allocateFixed : address + size < 2 ^ 64 → ∀ n offset, 0 < n → n + (a.alignment - 1) < 2 ^ 64 →
    ((∃ addr, (a.allocateFixed n offset).1 = .ok addr) ↔
      address ≤ offset ∧ offset + a.fixAlignment n ≤ address + size ∧
        Vacant a.memoryUsed offset (a.fixAlignment n))
  free : ∀ ptr, (a.free ptr).1 = .ok () ↔ ∃ s ∈ a.memoryUsed, s.base = ptr
  unchanged : (∀ n va e, (a.allocate n va).1 = .error e → (a.allocate n va).2 = a) ∧
    (∀ n offset e, (a.allocateFixed n offset).1 = .error e →
      (a.allocateFixed n offset).2 = a) ∧
    ∀ ptr e, (a.free ptr).1 = .error e → (a.free ptr).2 = a

theorem Inv.requestsExact {address al : ℕ} (hR : Region address (address + size)) (hal : 0 < al)
    (h : Inv address (address + size) al a) : RequestsExact address size a where
  rounded k n hk ha hf := by
    rw [fixAlignment_eq, ha, alignUp_two_pow hk, wrappingAdd_of_lt hf]
  allocate n va hn _ := by
    have hi := allocate_ok_iff h.partition hn va
    refine ⟨?_, fun addr => (hi addr).mp⟩
    rw [exists_congr hi]
    exact exists_firstFit_iff h.partition hn
  allocateFixed hlt n offset hn hf := by
    have ha' : 0 < a.alignment := h.alignment_eq ▸ hal
    have hi := allocateFixed_ok_iff h.partition hR ha' hn hf offset
    rw [exists_congr hi, exists_eq_left]
    simp only [hlt.ne, false_implies, and_true]
  free := free_ok_iff a
  unchanged := ⟨fun _ _ _ => allocate_error, fun _ _ _ => allocateFixed_error,
    fun _ _ => free_error⟩

/-- **Exact success conditions**: in every state of every history of an allocator whose region does
not wrap around, if no request overflows when it is rounded up, a request for some bytes succeeds
exactly if there is room between the live segments, `allocate` returns the base of the lowest gap
with room, `free` succeeds exactly for bases of live segments, and what fails changes nothing. -/
theorem requestsExact_of_mem_trace {address size alignment : ℕ} (hsize : 0 < size)
    (hword : size < 2 ^ 64) (halignment : 0 < alignment) (hfit : address + size ≤ 2 ^ 64)
    {calls : List Call} (hcalls : ∀ c ∈ calls, c.RoundsUp alignment) :
    ∃ a, new address size alignment = .ok a ∧
      ∀ b ∈ Runs.trace call a calls, b.alignment = alignment ∧ RequestsExact address size b := by
  obtain ⟨a, hnew, ha⟩ := exists_new address hsize halignment
  have hR := region_of_fit address hsize hword hfit
  refine ⟨a, hnew, fun b hb => ?_⟩
  have hinv := inv_of_mem_trace hR halignment ha hcalls b hb
  exact ⟨hinv.alignment_eq, hinv.requestsExact hR halignment⟩

/-- A history with a gap between two live segments. -/
theorem requestsExact_of_mem_trace_gap :
    ∃ a, new 4096 1024 64 = .ok a ∧
      ∀ b ∈ Runs.trace call a [.allocate 64 none, .allocate 100 none, .allocateFixed 64 4736,
        .free 4096, .free 5], b.alignment = 64 ∧ RequestsExact 4096 1024 b :=
  requestsExact_of_mem_trace (by decide) (by decide) (by decide) (by decide) (by decide)

/-- Refused although there is room: requests for no bytes, a fixed request at the end of the address
space, and a request after one that wrapped around and left an empty segment behind. -/
theorem requests_refused :
    (∃ a, new 0 1024 64 = .ok a ∧ IsGap 0 1024 a.memoryUsed ⟨0, 1024⟩ ∧
      a.fixAlignment 0 ≤ 1024 ∧ Vacant a.memoryUsed 0 (a.fixAlignment 0) ∧
      (a.allocate 0 none).1 = .error (.invalidSize 0) ∧
      (a.allocateFixed 0 0).1 = .error (.invalidSize 0)) ∧
    (∃ a, new (2 ^ 64 - 1024) 1024 64 = .ok a ∧ Vacant a.memoryUsed (2 ^ 64 - 64) 64 ∧
      (a.allocateFixed 64 (2 ^ 64 - 64)).1 = .error (.fixedNotAvailable 64 (2 ^ 64 - 64))) ∧
    ∃ a, new 0 1024 64 = .ok a ∧
      IsGap 0 1024 (a.call (.allocateFixed (2 ^ 64 - 1) 512)).memoryUsed ⟨0, 1024⟩ ∧
      ((a.call (.allocateFixed (2 ^ 64 - 1) 512)).allocate 1024 none).1 =
        .error (.outOfMemory 1024) := by
  have hnone : ∀ {lo hi : ℕ}, lo < hi → IsGap lo hi [] ⟨lo, hi - lo⟩ := fun hlt =>
    (partition_initial hlt).mem_free_iff.mp (List.mem_singleton_self _)
  refine ⟨⟨_, rfl, hnone (by decide), by decide, fun x _ _ => covers_nil x, rfl, rfl⟩,
    ⟨_, rfl, fun x _ _ => covers_nil x, by decide⟩, ⟨_, rfl, ?_, by decide⟩⟩
  have hused : (call ⟨[⟨0, 1024⟩], [], 64⟩ (.allocateFixed (2 ^ 64 - 1) 512)).memoryUsed =
      [⟨512, 0⟩] := by decide
  rw [hused]
  have hempty : ∀ x, ¬ Covers [(⟨512, 0⟩ : Segment)] x := by
    intro x
    simp only [covers_cons, covers_nil, or_false, Segment.Contains, Segment.stop_mk]
    omega
  exact ⟨by decide, le_rfl, le_rfl, fun x _ => hempty x, fun h => absurd h (by decide),
    fun h => absurd h (by decide)⟩

end Tapasco.GenericAllocator
