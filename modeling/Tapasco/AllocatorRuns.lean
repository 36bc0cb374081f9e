import Tapasco.Allocator

/-!
# Histories of the Generic Allocator

A history is a list of calls of `allocate`, `allocate_fixed` and `free` with arbitrary
arguments, successful or not. This module proves what holds in every state of every
history of `GenericAllocator`.
-/

open FreeList List

namespace Tapasco.GenericAllocator

/-- A call of one of the operations of the allocator. -/
inductive Call where
  | allocate (size : ℕ) (va : Option ℕ)
  | allocateFixed (size offset : ℕ)
  | free (ptr : ℕ)

/-- Rounding the requested size up to the alignment does not overflow. -/
def Call.RoundsUp (alignment : ℕ) : Call → Prop
  | .allocate size _ => size + (alignment - 1) < 2 ^ 64
  | .allocateFixed size _ => size + (alignment - 1) < 2 ^ 64
  | .free _ => True

instance (alignment : ℕ) (c : Call) : Decidable (c.RoundsUp alignment) :=
  match c with
  | .allocate _ _ => inferInstanceAs (Decidable (_ < _))
  | .allocateFixed _ _ => inferInstanceAs (Decidable (_ < _))
  | .free _ => inferInstanceAs (Decidable True)

def call (a : GenericAllocator) : Call → GenericAllocator
  | .allocate size va => (a.allocate size va).2
  | .allocateFixed size offset => (a.allocateFixed size offset).2
  | .free ptr => (a.free ptr).2

def freeAll (a : GenericAllocator) (ptrs : List ℕ) : GenericAllocator :=
  Runs.run call a (ptrs.map .free)

/-! ### The invariant -/

/-- The invariant of all histories of an allocator for `[lo, hi)`. -/
structure Inv (lo hi alignment : ℕ) (a : GenericAllocator) : Prop where
  partition : Partition lo hi a.memoryFree a.memoryUsed
  alignment_eq : a.alignment = alignment

variable {lo hi alignment size : ℕ} {a : GenericAllocator}

theorem Granted.inv {addr : ℕ} {b : GenericAllocator} (h : Granted lo hi a b size addr)
    (ha : a.alignment = alignment) : Inv lo hi alignment b :=
  ⟨h.partition, h.alignment.trans ha⟩

/-- **One call keeps the tiling**, whatever its arguments and its result. -/
theorem inv_call (hR : Region lo hi) (ha : 0 < alignment) (a : GenericAllocator) (c : Call)
    (h : Inv lo hi alignment a) (hc : c.RoundsUp alignment) : Inv lo hi alignment (a.call c) := by
  obtain ⟨hP, rfl⟩ := h
  cases c with
  | allocate size va =>
    rcases allocate_cases hR hP ha hc va with ⟨e, heq⟩ | ⟨addr, b, heq, hb⟩
    · rw [call, heq]
      exact ⟨hP, rfl⟩
    · rw [call, heq]
      exact hb.inv rfl
  | allocateFixed size offset =>
    rcases allocateFixed_cases hR hP ha hc offset with ⟨e, heq⟩ | ⟨b, heq, hb⟩
    · rw [call, heq]
      exact ⟨hP, rfl⟩
    · rw [call, heq]
      exact hb.inv rfl
  | free ptr =>
    rcases free_cases hR hP ptr with ⟨heq, -⟩ | ⟨b, heq, hb⟩
    · rw [call, heq]
      exact ⟨hP, rfl⟩
    · rw [call, heq]
      exact ⟨hb.partition, hb.alignment⟩

theorem region_of_fit (addr : ℕ) (hs : 0 < size) (hw : size < 2 ^ 64)
    (hf : addr + size ≤ 2 ^ 64) : Region addr (addr + size) :=
  ⟨by omega, hf, by omega⟩

theorem exists_new (addr : ℕ) (hs : 0 < size) (ha : 0 < alignment) :
    ∃ a, new addr size alignment = .ok a ∧ Inv addr (addr + size) alignment a := by
  refine ⟨⟨[⟨addr, size⟩], [], alignment⟩, ?_, ?_, rfl⟩
  · rw [new, if_neg (by omega), if_neg (by omega)]
  · have h : Partition addr (addr + size) [⟨addr, addr + size - addr⟩] [] :=
      partition_initial (by omega)
    rwa [Nat.add_sub_cancel_left] at h

theorem inv_of_mem_trace {addr : ℕ} (hR : Region addr (addr + size)) (hal : 0 < alignment)
    (ha : Inv addr (addr + size) alignment a) {calls : List Call}
    (hc : ∀ c ∈ calls, c.RoundsUp alignment) :
    ∀ b ∈ Runs.trace call a calls, Inv addr (addr + size) alignment b :=
  Runs.forall_mem_trace_of (inv_call hR hal) ha (Runs.allSteps_of_forall_mem a hc)

/-! ### Tiling of the region -/

/-- The segments of both vectors are non-empty, pairwise disjoint, and together cover
exactly `[address, address + size)`. -/
structure TilesRegion (address size : ℕ) (a : GenericAllocator) : Prop where
  nonempty : ∀ s ∈ a.memoryFree ++ a.memoryUsed, 0 < s.size
  disjoint : (a.memoryFree ++ a.memoryUsed).Pairwise Segment.Disjoint
  covers : ∀ x, Covers (a.memoryFree ++ a.memoryUsed) x ↔ address ≤ x ∧ x < address + size

theorem Inv.tilesRegion {addr : ℕ} (h : Inv addr (addr + size) alignment a) :
    TilesRegion addr size a where
  nonempty s hs :=
    (mem_append.mp hs).elim (h.partition.canonical.pos s) (h.partition.used_pos s)
  disjoint := by
    rw [pairwise_append]
    refine ⟨?_, h.partition.used_disjoint, h.partition.apart⟩
    exact h.partition.canonical.apart.imp fun hlt => .inl (le_of_lt hlt)
  covers x := by
    rw [covers_append]
    exact h.partition.covers x

/-- **No byte is handed out twice, lost or invented**: after every step of every
history, the free and the used segments tile the region. -/
theorem tilesRegion_of_mem_trace {address size alignment : ℕ} (hsize : 0 < size)
    (halignment : 0 < alignment) (hfit : address + size < 2 ^ 64) {calls : List Call}
    (hcalls : ∀ c ∈ calls, c.RoundsUp alignment) :
    ∃ a, new address size alignment = .ok a ∧
      ∀ b ∈ Runs.trace call a calls, TilesRegion address size b := by
  obtain ⟨a, hnew, ha⟩ := exists_new address hsize halignment
  have hR := region_of_fit address hsize (by omega) (by omega)
  exact ⟨a, hnew, fun b hb => (inv_of_mem_trace hR halignment ha hcalls b hb).tilesRegion⟩

/-- A history with a middle split, a failing call and a merge. -/
theorem tilesRegion_of_mem_trace_split :
    ∃ a, new 0 1024 64 = .ok a ∧
      ∀ b ∈ Runs.trace call a [.allocateFixed 128 512, .allocate 100 none,
        .allocateFixed 64 512, .free 512, .free 0], TilesRegion 0 1024 b :=
  tilesRegion_of_mem_trace (by decide) (by decide) (by decide) (by decide)

/-! ### The free list is canonical -/

theorem Inv.eq_of_base_eq (h : Inv lo hi alignment a) {pre post : List MemoryFree}
    {m s : MemoryFree} (hu : a.memoryUsed = pre ++ m :: post) (hs : s ∈ pre ++ post) :
    s.base ≠ m.base := by
  have hd := h.partition.used_disjoint
  have hp := h.partition.used_pos
  rw [hu] at hd hp
  rw [pairwise_append, pairwise_cons] at hd
  obtain ⟨-, ⟨hpo, -⟩, hc⟩ := hd
  have hm := hp m (by simp)
  have hs' := hp s (by
    simp only [mem_append, mem_cons] at hs ⊢
    tauto)
  intro heq
  have hdi : s.Disjoint m := by
    rw [mem_append] at hs
    rcases hs with hs | hs
    · exact hc s hs m mem_cons_self
    · exact (hpo s hs).symm
  simp only [Segment.Disjoint, Segment.stop] at hdi
  omega

theorem mem_memoryUsed_free (hR : Region lo hi) (h : Inv lo hi alignment a) (ptr : ℕ)
    (s : MemoryFree) : s ∈ (a.call (.free ptr)).memoryUsed ↔ s ∈ a.memoryUsed ∧ s.base ≠ ptr := by
  rcases free_cases hR h.partition ptr with ⟨heq, hne⟩ | ⟨b, heq, hb⟩
  · rw [call, heq]
    exact ⟨fun hs => ⟨hs, hne s hs⟩, fun hs => hs.1⟩
  obtain ⟨pre, m, post, hu, rfl, -, hbu⟩ := hb.used
  rw [call, heq, hbu]
  constructor
  · intro hs
    refine ⟨?_, h.eq_of_base_eq hu hs⟩
    rw [hu]
    simp only [mem_append, mem_cons] at hs ⊢
    tauto
  · rintro ⟨hs, hne⟩
    rw [hu] at hs
    simp only [mem_append, mem_cons] at hs ⊢
    rcases hs with hs | rfl | hs
    · exact .inl hs
    · exact absurd rfl hne
    · exact .inr hs

theorem freeAll_spec (hR : Region lo hi) (ha : 0 < alignment) (h : Inv lo hi alignment a)
    (ptrs : List ℕ) :
    Inv lo hi alignment (a.freeAll ptrs) ∧
      ∀ s, s ∈ (a.freeAll ptrs).memoryUsed ↔ s ∈ a.memoryUsed ∧ s.base ∉ ptrs := by
  induction ptrs generalizing a with
  | nil => exact ⟨h, fun s => by simp [freeAll]⟩
  | cons p ptrs ih =>
    have hst : Inv lo hi alignment (a.call (.free p)) := inv_call hR ha a _ h trivial
    obtain ⟨hinv, hm⟩ := ih hst
    refine ⟨hinv, fun s => ?_⟩
    have hs := hm s
    rw [mem_memoryUsed_free hR h] at hs
    rw [show a.freeAll (p :: ptrs) = (a.call (.free p)).freeAll ptrs from rfl, hs, mem_cons]
    tauto

/-- The free list is canonical: sorted strictly by base, no neighbours touching, independent of the
order of frees, and whole again when everything is freed. -/
structure CanonicalFree (address size : ℕ) (a : GenericAllocator) : Prop where
  sorted : a.memoryFree.Pairwise fun s t => s.base < t.base
  apart : a.memoryFree.IsChain fun s t => s.base + s.size ≠ t.base
  order : ∀ ptrs ptrs' : List ℕ, ptrs.Perm ptrs' →
    (∀ p ∈ ptrs, ∃ s ∈ a.memoryUsed, s.base = p) →
    (a.freeAll ptrs).memoryFree = (a.freeAll ptrs').memoryFree
  restore : ∀ ptrs : List ℕ, ptrs.Perm (a.memoryUsed.map Segment.base) →
    (a.freeAll ptrs).memoryFree = [⟨address, size⟩]

theorem Inv.free_eq {al' : ℕ} {b : GenericAllocator} (ha : Inv lo hi alignment a)
    (hb : Inv lo hi al' b) (hl : ∀ s, s ∈ a.memoryUsed ↔ s ∈ b.memoryUsed) :
    a.memoryFree = b.memoryFree :=
  ha.partition.free_ext hb.partition hl

theorem Inv.canonicalFree {addr : ℕ} (hR : Region addr (addr + size)) (ha : 0 < alignment)
    (h : Inv addr (addr + size) alignment a) : CanonicalFree addr size a where
  sorted := h.partition.canonical.sorted_base
  apart := (h.partition.canonical.apart.imp fun hlt => ne_of_lt hlt).isChain
  order ptrs ptrs' hp _ := by
    obtain ⟨hi, hm⟩ := freeAll_spec hR ha h ptrs
    obtain ⟨hi', hm'⟩ := freeAll_spec hR ha h ptrs'
    exact hi.free_eq hi' fun s => by rw [hm, hm', hp.mem_iff]
  restore ptrs hp := by
    obtain ⟨hi, hm⟩ := freeAll_spec hR ha h ptrs
    have hni : (a.freeAll ptrs).memoryUsed = [] := by
      refine eq_nil_iff_forall_not_mem.mpr fun s hs => ?_
      obtain ⟨hu, hn⟩ := (hm s).mp hs
      rw [hp.mem_iff] at hn
      exact hn (mem_map_of_mem hu)
    have hpa := hi.partition
    rw [hni] at hpa
    have hf := hpa.free_eq_of_used_nil hR.lo_lt_hi
    rwa [Nat.add_sub_cancel_left] at hf

/-- **The free list is canonical** in every state of every history of an allocator whose region does
not wrap around, as long as no request overflows when it is rounded up: it is sorted, fully merged,
restored by freeing everything, independent of the order of frees, and a function of the region and
the live segments. -/
theorem canonical_of_mem_trace {address size alignment : ℕ} (hsize : 0 < size)
    (hword : size < 2 ^ 64) (halignment : 0 < alignment) (hfit : address + size ≤ 2 ^ 64)
    {calls : List Call} (hcalls : ∀ c ∈ calls, c.RoundsUp alignment) :
    ∃ a, new address size alignment = .ok a ∧
      ∀ b ∈ Runs.trace call a calls, CanonicalFree address size b ∧
        ∀ (alignment' : ℕ) (a' : GenericAllocator) (calls' : List Call),
          0 < alignment' → new address size alignment' = .ok a' →
          (∀ c ∈ calls', c.RoundsUp alignment') →
          ∀ b' ∈ Runs.trace call a' calls',
            (∀ s, s ∈ b.memoryUsed ↔ s ∈ b'.memoryUsed) → b.memoryFree = b'.memoryFree := by
  obtain ⟨a, hnew, ha⟩ := exists_new address hsize halignment
  have hR := region_of_fit address hsize hword hfit
  refine ⟨a, hnew, fun b hb => ?_⟩
  have hinv := inv_of_mem_trace hR halignment ha hcalls b hb
  refine ⟨hinv.canonicalFree hR halignment, ?_⟩
  intro alignment' a' calls' hal' hnew' hcalls' b' hb' hlive
  obtain ⟨a'', hnew'', ha''⟩ := exists_new address hsize hal'
  obtain rfl : a'' = a' := by
    rw [hnew''] at hnew'
    exact Except.ok.inj hnew'
  exact hinv.free_eq (inv_of_mem_trace hR hal' ha'' hcalls' b' hb') hlive

/-- The hypotheses are met by a history that fragments the region. -/
theorem canonical_of_mem_trace_fragmented :
    ∃ a, new 4096 1024 64 = .ok a ∧
      ∀ b ∈ Runs.trace call a [.allocate 64 none, .allocate 65 none, .free 4096,
        .allocateFixed 64 4736], CanonicalFree 4096 1024 b := by
  have hcalls : ∀ c ∈ [Call.allocate 64 none, .allocate 65 none, .free 4096,
      .allocateFixed 64 4736], c.RoundsUp 64 := by decide
  have hfit : 4096 + 1024 ≤ 2 ^ 64 := by decide
  obtain ⟨a, hnew, h⟩ := canonical_of_mem_trace (by decide) (by decide) (by decide) hfit hcalls
  exact ⟨a, hnew, fun b hb => (h b hb).1⟩

/-- `2 ^ 64 - 1` bytes are rounded up to zero bytes: the request succeeds, and freeing the address
puts an empty segment next to the one it was taken from. -/
theorem free_list_unsorted_after_wrap :
    ∃ a, new 0 1024 64 = .ok a ∧
      (Runs.run call a [.allocate (2 ^ 64 - 1) none, .free 0]).memoryFree = [⟨0, 1024⟩, ⟨0, 0⟩] ∧
      ¬ (Runs.run call a [.allocate (2 ^ 64 - 1) none, .free 0]).memoryFree.Pairwise
        (fun s t => s.base < t.base) :=
  ⟨_, rfl, by decide, by decide⟩

end Tapasco.GenericAllocator
