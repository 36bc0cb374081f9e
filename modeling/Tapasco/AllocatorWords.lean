import Tapasco.AllocatorRuns

/-!
# Alignment and Wrap-Around in Allocations

Two properties of the generic allocator that do not need the tiling of its region. The addresses
that `allocate` returns are multiples of the alignment as long as the fixed allocations are; and the
block that is reserved for a request of the C interface lies in the region and has the requested
size, unless the size is too large to be rounded up. Both also hold in histories in which requests
wrap around.
-/

open FreeList Word64 List

namespace Tapasco.GenericAllocator

/-! ### Aligned segments -/

def AlignedBases (k : ℕ) (l : List MemoryFree) : Prop :=
  ∀ s ∈ l, 2 ^ k ∣ s.base

variable {k : ℕ} {l : List MemoryFree} {a : GenericAllocator} {s : MemoryFree}

theorem alignedBases_append {m : List MemoryFree} :
    AlignedBases k (l ++ m) ↔ AlignedBases k l ∧ AlignedBases k m :=
  forall_mem_append

theorem alignedBases_cons : AlignedBases k (s :: l) ↔ 2 ^ k ∣ s.base ∧ AlignedBases k l :=
  forall_mem_cons

theorem alignedBases_singleton : AlignedBases k [s] ↔ 2 ^ k ∣ s.base :=
  forall_mem_singleton

section

variable {k : ℕ} (hk : k < 64) {pre post : List MemoryFree} {s : MemoryFree}

include hk

theorem AlignedBases.shrinkHead (h : AlignedBases k (pre ++ s :: post)) {n : ℕ}
    (hn : 2 ^ k ∣ n) : AlignedBases k (shrinkHead pre s post n) := by
  rw [alignedBases_append, alignedBases_cons] at h
  obtain ⟨hp, hs, hpo⟩ := h
  rw [GenericAllocator.shrinkHead]
  split
  · exact alignedBases_append.mpr ⟨hp, hpo⟩
  · exact alignedBases_append.mpr
      ⟨hp, alignedBases_cons.mpr ⟨dvd_wrappingAdd hk hs hn, hpo⟩⟩

theorem AlignedBases.splitAround (h : AlignedBases k (pre ++ s :: post)) {off n : ℕ}
    (ho : 2 ^ k ∣ off) (hn : 2 ^ k ∣ n) : AlignedBases k (splitAround pre s post off n) := by
  rw [alignedBases_append, alignedBases_cons] at h
  obtain ⟨hp, hs, hpo⟩ := h
  have hr : ∀ size, AlignedBases k
      (if 0 < size then ⟨wrappingAdd off n, size⟩ :: post else post) := by
    intro size
    split
    · exact alignedBases_cons.mpr ⟨dvd_wrappingAdd hk ho hn, hpo⟩
    · exact hpo
  rw [GenericAllocator.splitAround]
  split
  · exact alignedBases_append.mpr ⟨hp, hr _⟩
  · exact alignedBases_append.mpr ⟨hp, alignedBases_cons.mpr ⟨hs, hr _⟩⟩

end

theorem AlignedBases.mergeFrom (h : AlignedBases k (s :: l)) : AlignedBases k (mergeFrom s l) := by
  fun_induction GenericAllocator.mergeFrom s l with
  | case1 => exact h
  | case2 s n l _ ih =>
    rw [alignedBases_cons, alignedBases_cons] at h
    exact ih (alignedBases_cons.mpr ⟨h.1, h.2.2⟩)
  | case3 s n l _ ih =>
    rw [alignedBases_cons] at h
    exact alignedBases_cons.mpr ⟨h.1, ih h.2⟩

theorem AlignedBases.mergeMemory (h : AlignedBases k l) : AlignedBases k (mergeMemory l) := by
  cases l with
  | nil => exact h
  | cons s l => exact h.mergeFrom

theorem AlignedBases.insertFree {m : MemoryFree} (hm : 2 ^ k ∣ m.base) (h : AlignedBases k l) :
    AlignedBases k (insertFree m l) := by
  intro s hs
  rw [insertFree_eq, mem_insertSorted] at hs
  rcases hs with rfl | hs
  · exact hm
  · exact h s hs

/-- All segments of an allocator with alignment `2 ^ k` start at multiples of it. -/
structure Aligned (k : ℕ) (a : GenericAllocator) : Prop where
  alignment : a.alignment = 2 ^ k
  free : AlignedBases k a.memoryFree
  used : AlignedBases k a.memoryUsed

/-- A fixed allocation is at a multiple of the alignment. -/
def Call.AlignedOffset (alignment : ℕ) : Call → Prop
  | .allocateFixed _ offset => alignment ∣ offset
  | _ => True

instance (alignment : ℕ) (c : Call) : Decidable (c.AlignedOffset alignment) :=
  match c with
  | .allocate _ _ => inferInstanceAs (Decidable True)
  | .allocateFixed _ _ => inferInstanceAs (Decidable (_ ∣ _))
  | .free _ => inferInstanceAs (Decidable True)

/-- **One call keeps the alignment**, whether or not its size wraps around. -/
theorem Aligned.call (hk : k < 64) (h : Aligned k a) {c : Call} (hc : c.AlignedOffset (2 ^ k)) :
    Aligned k (a.call c) := by
  obtain ⟨ha, hf, hu⟩ := h
  have hn : ∀ size, 2 ^ k ∣ a.fixAlignment size := fun size => by
    rw [fixAlignment_eq, ha]
    exact dvd_alignUp hk size
  cases c with
  | allocate size va =>
    rcases allocate_eq a size va with ⟨e, heq, -⟩ | ⟨pre, s, post, -, hsp, -, -, heq⟩ <;>
      simp only [GenericAllocator.call, heq]
    · exact ⟨ha, hf, hu⟩
    · rw [hsp] at hf
      have hs := (alignedBases_cons.mp (alignedBases_append.mp hf).2).1
      exact ⟨ha, hf.shrinkHead hk (hn size),
        alignedBases_append.mpr ⟨hu, alignedBases_singleton.mpr hs⟩⟩
  | allocateFixed size offset =>
    rcases allocateFixed_eq a size offset with
      ⟨e, heq, -⟩ | ⟨pre, s, post, -, hsp, -, heq⟩ <;>
      simp only [GenericAllocator.call, heq]
    · exact ⟨ha, hf, hu⟩
    rw [hsp] at hf
    refine ⟨ha, ?_, alignedBases_append.mpr ⟨hu, alignedBases_singleton.mpr hc⟩⟩
    split
    · exact hf.shrinkHead hk (hn size)
    · exact hf.splitAround hk hc (hn size)
  | free ptr =>
    rcases free_eq a ptr with ⟨heq, -⟩ | ⟨pre, m, post, hsp, -, -, heq⟩ <;>
      simp only [GenericAllocator.call, heq]
    · exact ⟨ha, hf, hu⟩
    · rw [hsp, alignedBases_append, alignedBases_cons] at hu
      obtain ⟨hp, hm, hpo⟩ := hu
      exact ⟨ha, (AlignedBases.insertFree hm hf).mergeMemory, alignedBases_append.mpr ⟨hp, hpo⟩⟩

theorem exists_mem_of_allocate {size addr : ℕ} {va : Option ℕ}
    (h : (a.allocate size va).1 = .ok addr) : ∃ s ∈ a.memoryFree, s.base = addr := by
  rcases allocate_eq a size va with ⟨e, heq, -⟩ | ⟨pre, s, post, -, hs, -, -, heq⟩ <;>
    rw [heq] at h
  · simp at h
  · exact ⟨s, by simp [hs], Except.ok.inj h⟩

theorem eq_of_new {addr size al : ℕ} (h : new addr size al = .ok a) :
    0 < size ∧ 0 < al ∧ a = ⟨[⟨addr, size⟩], [], al⟩ := by
  rw [new] at h
  split at h
  · simp at h
  · split at h
    · simp at h
    · exact ⟨by omega, by omega, (Except.ok.inj h).symm⟩

/-- **Addresses are aligned**: in every history of an allocator whose alignment is a power of two
that divides its base address, if all fixed allocations are aligned, `allocate` returns multiples of
the alignment. -/
theorem dvd_of_mem_trace {k address size : ℕ} (hk : k < 64) (haddress : 2 ^ k ∣ address)
    {a : GenericAllocator} (hnew : new address size (2 ^ k) = .ok a) {calls : List Call}
    (hcalls : ∀ c ∈ calls, c.AlignedOffset (2 ^ k)) :
    ∀ b ∈ Runs.trace call a calls, ∀ n va addr, (b.allocate n va).1 = .ok addr → 2 ^ k ∣ addr := by
  obtain ⟨-, -, rfl⟩ := eq_of_new hnew
  have hinit : Aligned k ⟨[⟨address, size⟩], [], 2 ^ k⟩ :=
    ⟨rfl, alignedBases_singleton.mpr haddress, fun _ hs => absurd hs not_mem_nil⟩
  intro b hb n va addr haddr
  have halign : Aligned k b := Runs.forall_mem_trace_of (fun _ _ h hc => h.call hk hc) hinit
    (Runs.allSteps_of_forall_mem _ hcalls) b hb
  obtain ⟨s, hs, rfl⟩ := exists_mem_of_allocate haddr
  exact halign.free s hs

/-- A history with an allocation in the middle of the region and one that wraps around. -/
theorem dvd_of_mem_trace_middle :
    ∃ b ∈ Runs.trace call ⟨[⟨4096, 1000⟩], [], 2 ^ 6⟩
        [.allocateFixed 100 4608, .allocate (2 ^ 64 - 1) none, .allocate 512 none],
      (b.allocate 64 none).1 = .ok 4736 ∧ 2 ^ 6 ∣ 4736 := by
  have hcalls : ∀ c ∈ [Call.allocateFixed 100 4608, .allocate (2 ^ 64 - 1) none,
      .allocate 512 none], c.AlignedOffset (2 ^ 6) := by decide
  have haddr : ((Runs.run call ⟨[⟨4096, 1000⟩], [], 2 ^ 6⟩ [.allocateFixed 100 4608,
      .allocate (2 ^ 64 - 1) none, .allocate 512 none]).allocate 64 none).1 = .ok 4736 := by
    decide
  have hnew : new 4096 1000 (2 ^ 6) = .ok ⟨[⟨4096, 1000⟩], [], 2 ^ 6⟩ := rfl
  exact ⟨_, Runs.run_mem_trace _ _, haddr, dvd_of_mem_trace (by decide) (by decide) hnew hcalls
    _ (Runs.run_mem_trace _ _) 64 none 4736 haddr⟩

/-- After a fixed allocation at address 1 the next free segment starts at 65, and `allocate` returns
that. -/
theorem not_dvd_after_unaligned_offset :
    ∃ a, new 0 1024 64 = .ok a ∧
      ((a.call (.allocateFixed 64 1)).allocate 64 none).1 = .ok 65 ∧ ¬ 64 ∣ 65 :=
  ⟨_, rfl, by decide, by decide⟩

/-! ### Segments inside the region -/

/-- All segments are inside the region. -/
structure Inside (lo hi : ℕ) (a : GenericAllocator) : Prop where
  free : ∀ s ∈ a.memoryFree, lo ≤ s.base ∧ s.stop ≤ hi
  used : ∀ s ∈ a.memoryUsed, lo ≤ s.base ∧ s.stop ≤ hi

section

variable {lo hi : ℕ} (hR : Region lo hi)

include hR

theorem mergeFrom_inside {l : List MemoryFree} (h : ∀ t ∈ s :: l, lo ≤ t.base ∧ t.stop ≤ hi) :
    ∀ t ∈ mergeFrom s l, lo ≤ t.base ∧ t.stop ≤ hi := by
  fun_induction mergeFrom s l with
  | case1 => exact h
  | case2 s n l ht ih =>
    rw [forall_mem_cons, forall_mem_cons] at h
    obtain ⟨hs, hn, hl⟩ := h
    refine ih (forall_mem_cons.mpr ⟨?_, hl⟩)
    obtain ⟨hlt, hh, hsz⟩ := hR
    simp only [Segment.stop] at hs hn ⊢
    simp only [wrappingAdd] at ht ⊢
    omega
  | case3 s n l _ ih =>
    rw [forall_mem_cons] at h
    exact forall_mem_cons.mpr ⟨h.1, ih h.2⟩

theorem mergeMemory_inside {l : List MemoryFree} (h : ∀ t ∈ l, lo ≤ t.base ∧ t.stop ≤ hi) :
    ∀ t ∈ mergeMemory l, lo ≤ t.base ∧ t.stop ≤ hi := by
  cases l with
  | nil => exact h
  | cons s l => exact mergeFrom_inside hR h

omit hR in
theorem replace_inside {pre post : List MemoryFree} {m : MemoryFree}
    (h : ∀ t ∈ pre ++ s :: post, lo ≤ t.base ∧ t.stop ≤ hi) (hba : s.base ≤ m.base)
    (hst : m.stop ≤ s.stop) : ∀ t ∈ pre ++ pieces s m ++ post, lo ≤ t.base ∧ t.stop ≤ hi := by
  rw [forall_mem_append, forall_mem_cons] at h
  obtain ⟨hp, hs, hpo⟩ := h
  rw [forall_mem_append, forall_mem_append]
  refine ⟨⟨hp, fun t ht => ?_⟩, hpo⟩
  rw [pieces, mem_append] at ht
  have hm : m.base ≤ m.stop := Nat.le_add_right _ _
  rcases ht with ht | ht
  · obtain ⟨hb, he, -⟩ := mem_gap ht
    omega
  · obtain ⟨hb, he, -⟩ := mem_gap ht
    omega

/-- **One call stays in the region**, whether or not its size wraps around. -/
theorem Inside.call {a : GenericAllocator} (h : Inside lo hi a) (c : Call) :
    Inside lo hi (a.call c) ∧ (a.call c).alignment = a.alignment := by
  obtain ⟨hf, hu⟩ := h
  cases c with
  | allocate size va =>
    rcases allocate_eq a size va with ⟨e, heq, -⟩ | ⟨pre, s, post, -, hsp, hn, -, heq⟩ <;>
      simp only [GenericAllocator.call, heq, and_true]
    · exact ⟨hf, hu⟩
    · have hs := hf s (by simp [hsp])
      have hst : s.base + a.fixAlignment size ≤ s.stop := Nat.add_le_add_left hn _
      rw [hsp] at hf
      refine ⟨?_, forall_mem_append.mpr ⟨hu, forall_mem_singleton.mpr ⟨hs.1, hst.trans hs.2⟩⟩⟩
      rw [shrinkHead_eq hR hs hn]
      exact replace_inside hf le_rfl hst
  | allocateFixed size offset =>
    rcases allocateFixed_eq a size offset with
      ⟨e, heq, -⟩ | ⟨pre, s, post, -, hsp, hfi, heq⟩ <;>
      simp only [GenericAllocator.call, heq, and_true]
    · exact ⟨hf, hu⟩
    have hs := hf s (by simp [hsp])
    obtain ⟨hb, hst, hl⟩ := (fitsFixed_iff hR hs).mp hfi
    rw [hsp] at hf
    refine ⟨?_, forall_mem_append.mpr ⟨hu, forall_mem_singleton.mpr
      ⟨hs.1.trans hb, hst.trans hs.2⟩⟩⟩
    split
    · rename_i hh
      subst hh
      rw [shrinkHead_eq hR hs (Nat.le_of_add_le_add_left hst)]
      exact replace_inside hf le_rfl hst
    · rename_i hh
      rw [splitAround_eq hR hs (lt_of_le_of_ne hb hh) hst hl]
      exact replace_inside hf hb hst
  | free ptr =>
    rcases free_eq a ptr with ⟨heq, -⟩ | ⟨pre, m, post, hsp, -, -, heq⟩ <;>
      simp only [GenericAllocator.call, heq, and_true]
    · exact ⟨hf, hu⟩
    · rw [hsp, forall_mem_append, forall_mem_cons] at hu
      obtain ⟨hp, hm, hpo⟩ := hu
      refine ⟨mergeMemory_inside hR fun t ht => ?_, forall_mem_append.mpr ⟨hp, hpo⟩⟩
      rw [insertFree_eq, mem_insertSorted] at ht
      rcases ht with rfl | ht
      · exact hm
      · exact hf t ht

end

/-! ### The C interface -/

/-- The errors that the allocation functions of `ffi.rs` set. -/
inductive FfiError where
  | nullPointerTLKM
  | allocator (source : AllocatorError)

/-- What a function of the C interface makes of a result: an address, or
`DeviceAddress::MAX` and the last error, and the memory after the call. -/
def ffiResult :
    Except AllocatorError ℕ × GenericAllocator → ℕ × Option FfiError × Option GenericAllocator
  | (.ok x, a) => (x, none, some a)
  | (.error e, a) => (2 ^ 64 - 1, some (.allocator e), some a)

/-- `tapasco_memory_allocate`; the memory is `none` for a null pointer. -/
def tapascoMemoryAllocate (mem : Option GenericAllocator) (len : ℕ) :
    ℕ × Option FfiError × Option GenericAllocator :=
  match mem with
  | none => (2 ^ 64 - 1, some .nullPointerTLKM, none)
  | some a => ffiResult (a.allocate len none)

def tapascoMemoryAllocateFixed (mem : Option GenericAllocator) (len offset : ℕ) :
    ℕ × Option FfiError × Option GenericAllocator :=
  match mem with
  | none => (2 ^ 64 - 1, some .nullPointerTLKM, none)
  | some a => ffiResult (a.allocateFixed len offset)

theorem eq_of_ffiResult {r : Except AllocatorError ℕ × GenericAllocator} {addr : ℕ}
    {b : GenericAllocator} (h : ffiResult r = (addr, none, some b)) : r = (.ok addr, b) := by
  rcases r with ⟨_ | x, a⟩
  · exact absurd h (by simp [ffiResult])
  · simpa [ffiResult] using h

/-- The reserved block has at least `len` bytes and lies in the region exactly if the size is not
too large. -/
def ReservedIff (address size alignment len addr : ℕ) (a b : GenericAllocator) : Prop :=
  ∃ m : MemoryFree, b.memoryUsed = a.memoryUsed ++ [m] ∧ m.base = addr ∧
    (len ≤ m.size ∧ address ≤ m.base ∧ m.stop ≤ address + size ↔ len + (alignment - 1) < 2 ^ 64)

theorem reservedIff_of_inside {address size len addr : ℕ} {b : GenericAllocator}
    (ha : 0 < a.alignment) (hw : a.alignment < 2 ^ 64) (hl : len < 2 ^ 64)
    (hu : b.memoryUsed = a.memoryUsed ++ [⟨addr, a.fixAlignment len⟩])
    (hb : Inside address (address + size) b) :
    ReservedIff address size a.alignment len addr a b := by
  refine ⟨_, hu, rfl, ?_, fun hf => ⟨le_alignUp ha hf, ?_⟩⟩
  · rintro ⟨hle, -, -⟩
    by_contra hwr
    have hlt := alignUp_lt hl ha hw (not_lt.mp hwr)
    rw [← fixAlignment_eq] at hlt
    exact absurd hle (not_le.mpr hlt)
  · exact hb.used _ (by simp [hu])

/-- **Reserved blocks**: in every history of an allocator whose region fits the address space, a
request of the C interface that succeeds reserves a block of the region with the requested size,
exactly if rounding up the size does not overflow. -/
theorem reserved_iff_of_mem_trace {address size alignment : ℕ} (hsize : size < 2 ^ 64)
    (hword : alignment < 2 ^ 64) (hfit : address + size ≤ 2 ^ 64) {a : GenericAllocator}
    (hnew : new address size alignment = .ok a) (calls : List Call) :
    ∀ b ∈ Runs.trace call a calls, ∀ len < 2 ^ 64,
      (∀ addr b', tapascoMemoryAllocate (some b) len = (addr, none, some b') →
        ReservedIff address size alignment len addr b b') ∧
      ∀ offset addr b', tapascoMemoryAllocateFixed (some b) len offset =
          (addr, none, some b') →
        addr = offset ∧ ReservedIff address size alignment len addr b b' := by
  obtain ⟨hpos, hal, rfl⟩ := eq_of_new hnew
  have hR := region_of_fit address hpos hsize hfit
  have hinit : Inside address (address + size) ⟨[⟨address, size⟩], [], alignment⟩ :=
    ⟨forall_mem_singleton.mpr ⟨le_rfl, le_rfl⟩, fun _ hs => absurd hs not_mem_nil⟩
  intro b hb len hlen
  obtain ⟨hinside, rfl⟩ : Inside address (address + size) b ∧ b.alignment = alignment :=
    Runs.forall_mem_trace (P := fun b => Inside address (address + size) b ∧
      b.alignment = alignment) (fun b c h =>
        ⟨(h.1.call hR c).1, (h.1.call hR c).2.trans h.2⟩) ⟨hinit, rfl⟩ calls b hb
  refine ⟨fun addr b' hok => ?_, fun offset addr b' hok => ?_⟩
  · have heq := eq_of_ffiResult hok
    have hafter := (hinside.call hR (.allocate len none)).1
    rcases allocate_eq b len none with ⟨e, herr, -⟩ | ⟨pre, s, post, -, -, -, -, heq'⟩
    · exact absurd (heq.symm.trans herr) (by simp)
    obtain ⟨haddr, rfl⟩ := Prod.mk.inj (heq.symm.trans heq')
    obtain rfl := Except.ok.inj haddr
    rw [GenericAllocator.call, heq] at hafter
    exact reservedIff_of_inside hal hword hlen rfl hafter
  · have heq := eq_of_ffiResult hok
    have hafter := (hinside.call hR (.allocateFixed len offset)).1
    rcases allocateFixed_eq b len offset with ⟨e, herr, -⟩ | ⟨pre, s, post, -, -, -, heq'⟩
    · exact absurd (heq.symm.trans herr) (by simp)
    obtain ⟨haddr, rfl⟩ := Prod.mk.inj (heq.symm.trans heq')
    obtain rfl := Except.ok.inj haddr
    rw [GenericAllocator.call, heq] at hafter
    exact ⟨rfl, reservedIff_of_inside hal hword hlen rfl hafter⟩

/-- Requests at the end of the address space, before and after one that wraps around. -/
theorem reserved_iff_of_mem_trace_top :
    ∃ b ∈ Runs.trace call ⟨[⟨2 ^ 64 - 4096, 4096⟩], [], 64⟩
        [.allocate 100 none, .allocate (2 ^ 64 - 1) none],
      ∃ b', tapascoMemoryAllocate (some b) 200 = (2 ^ 64 - 3968, none, some b') ∧
        ReservedIff (2 ^ 64 - 4096) 4096 64 200 (2 ^ 64 - 3968) b b' := by
  have hnew : new (2 ^ 64 - 4096) 4096 64 = .ok ⟨[⟨2 ^ 64 - 4096, 4096⟩], [], 64⟩ := rfl
  refine ⟨_, Runs.run_mem_trace _ _, _, rfl, ?_⟩
  exact (reserved_iff_of_mem_trace (by decide) (by decide) (by decide) hnew _ _
    (Runs.run_mem_trace _ _) 200 (by decide)).1 _ _ rfl

/-- The largest request is rounded up to no bytes: it succeeds with an empty block. -/
theorem reserved_too_small :
    ∃ a b, new 0 1024 64 = .ok a ∧
      tapascoMemoryAllocate (some a) (2 ^ 64 - 1) = (0, none, some b) ∧ b.memoryUsed = [⟨0, 0⟩] :=
  ⟨_, _, rfl, rfl, by decide⟩

end Tapasco.GenericAllocator
