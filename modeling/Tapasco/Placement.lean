import Tapasco.JobPasses

/-!
# Where the Buffers of a Job Are Placed

The allocation pass of a launch adds live segments (`Placing`). So the buffers of a job that are
placed in the same memory do not overlap, whether their memory was allocated by the caller or by the
launch.
-/

open FreeList List

open Function

namespace Tapasco.Job

/-- The buffer is a live segment that is large enough. -/
def LiveIn (L : MemId → List Segment) (x : DataTransferPrealloc) : Prop :=
  ∃ s ∈ L x.memory, s.base = x.deviceAddress ∧ x.data.bytes.length ≤ s.size

/-- No live segment has the address of the buffer. -/
def FreshIn (L : MemId → List Segment) (x : DataTransferPrealloc) : Prop :=
  ∀ s ∈ L x.memory, s.base ≠ x.deviceAddress

/-- Two buffers in the same memory have different addresses. -/
def Distinct (xs : List DataTransferPrealloc) : Prop :=
  xs.Pairwise fun x y => x.memory = y.memory → x.deviceAddress ≠ y.deviceAddress

/-- The live segments of a memory have different bases. -/
def DistinctBases (L : MemId → List Segment) : Prop :=
  ∀ m, (L m).Pairwise fun s t => s.base ≠ t.base

theorem LiveIn.address_ne {L : MemId → List Segment} {x y : DataTransferPrealloc}
    (hx : LiveIn L x) (hy : FreshIn L y) (hm : x.memory = y.memory) :
    x.deviceAddress ≠ y.deviceAddress := by
  obtain ⟨s, hs, hb, -⟩ := hx
  rw [← hb]
  exact hy s (hm ▸ hs)

theorem preallocs_cons (arg : PEParameter) (args : List PEParameter) :
    preallocs (arg :: args) = arg.asPrealloc.toList ++ preallocs args := by
  cases h : arg.asPrealloc with
  | none => rw [preallocs_cons_of_none h]; rfl
  | some x => rw [preallocs, filterMap_cons_some h]; rfl

theorem distinctBases_liveMap {σ : Type} [Allocator σ] [LawfulAllocator σ] {w₀ w : World σ}
    (h : Later w₀ w) : DistinctBases (liveMap w) := by
  intro m
  have hp := LawfulAllocator.in_space (h m)
  refine (LawfulAllocator.disjoint (h m)).imp_of_mem fun {s t} hs ht hd heq => ?_
  have hsp := (hp s hs).1
  have htp := (hp t ht).1
  simp only [Segment.Disjoint, Segment.stop] at hd
  omega

namespace Placing

variable {L L' : MemId → List Segment} {args args' : List PEParameter}

theorem exists_append (h : Placing L args args' L') (m : MemId) : ∃ l, L' m = L m ++ l := by
  induction h with
  | nil L => exact ⟨[], (append_nil _).symm⟩
  | keep _ _ ih => exact ih
  | @place L L' x a k args args' _ _ _ ih =>
    obtain ⟨l, hl⟩ := ih
    by_cases hm : m = x.memory
    · subst hm
      rw [update_self, append_assoc] at hl
      exact ⟨_, hl⟩
    · rw [update_of_ne hm] at hl
      exact ⟨l, hl⟩

theorem mem_of_mem (h : Placing L args args' L') {m : MemId} {s : Segment} (hs : s ∈ L m) :
    s ∈ L' m := by
  obtain ⟨l, hl⟩ := h.exists_append m
  rw [hl]
  exact mem_append_left l hs

theorem liveIn (h : Placing L args args' L') {x : DataTransferPrealloc} (hx : LiveIn L x) :
    LiveIn L' x := by
  obtain ⟨s, hs, hb⟩ := hx
  exact ⟨s, h.mem_of_mem hs, hb⟩

theorem freshIn_placedAt {x : DataTransferAlloc} {a k : ℕ}
    (h : Placing (update L x.memory (L x.memory ++ [⟨a, k⟩])) args args' L')
    (hb : DistinctBases L') : FreshIn L (x.placedAt a) := by
  obtain ⟨l, hl⟩ := h.exists_append x.memory
  have hd := hb x.memory
  rw [hl, update_self, pairwise_append, pairwise_append] at hd
  exact fun s hs => hd.1.2.2 s hs _ (mem_singleton.mpr rfl)

theorem liveIn_placedAt {x : DataTransferAlloc} {a k : ℕ} (hk : x.data.bytes.length ≤ k)
    (h : Placing (update L x.memory (L x.memory ++ [⟨a, k⟩])) args args' L') :
    LiveIn L' (x.placedAt a) := by
  refine h.liveIn ⟨⟨a, k⟩, ?_, rfl, hk⟩
  show _ ∈ update L x.memory _ x.memory
  rw [update_self]
  exact mem_append_right _ (mem_singleton.mpr rfl)

theorem subset_update (L : MemId → List Segment) (x : DataTransferAlloc) (t : Segment)
    {m : MemId} {s : Segment} (hs : s ∈ L m) : s ∈ update L x.memory (L x.memory ++ [t]) m := by
  by_cases hm : m = x.memory
  · subst hm
    rw [update_self]
    exact mem_append_left _ hs
  · rwa [update_of_ne hm]

/-- What became of a parameter in the allocation pass. -/
def PlacedAs (L L' : MemId → List Segment) (arg arg' : PEParameter) : Prop :=
  (arg.isAlloc = false ∧ arg' = arg) ∨
    ∃ x a, arg = .dataTransferAlloc x ∧ arg' = .dataTransferPrealloc (x.placedAt a) ∧
      (∀ o, x.fixed = some o → a = o) ∧ LiveIn L' (x.placedAt a) ∧ FreshIn L (x.placedAt a)

/-- **Each transfer gets an address of its own**, in the order of the arguments. -/
theorem pointwise (h : Placing L args args' L') (hb : DistinctBases L') :
    List.Forall₂ (PlacedAs L L') args args' := by
  induction h with
  | nil L => exact .nil
  | keep ha _ ih => exact .cons (.inl ⟨ha, rfl⟩) (ih hb)
  | @place L L' x a k args args' hk hf h ih =>
    refine .cons (.inr ⟨x, a, rfl, rfl, hf, h.liveIn_placedAt hk,
      h.freshIn_placedAt hb⟩) ((ih hb).imp fun b b' => ?_)
    refine Or.imp_right ?_
    rintro ⟨y, c, rfl, rfl, hy, hl, hfr⟩
    exact ⟨y, c, rfl, rfl, hy, hl, fun s hs => hfr s (subset_update L x _ hs)⟩

/-- **All buffers of a job are live and distinct**, and those the caller did not pass in
are new. -/
theorem buffers (h : Placing L args args' L') (hb : DistinctBases L')
    (hl : ∀ x ∈ preallocs args, LiveIn L x) (hd : Distinct (preallocs args)) :
    (∀ x ∈ preallocs args', LiveIn L' x ∧ (x ∈ preallocs args ∨ FreshIn L x)) ∧
      Distinct (preallocs args') := by
  induction h with
  | nil L => exact ⟨by simp [preallocs], List.Pairwise.nil⟩
  | @keep L L' arg args args' har h ih =>
    rw [preallocs_cons, forall_mem_append] at hl
    rw [preallocs_cons, Distinct, pairwise_append] at hd
    obtain ⟨ha, ht⟩ := ih hb hl.2 hd.2.1
    rw [preallocs_cons arg args', preallocs_cons arg args]
    constructor
    · intro x hx
      rcases mem_append.mp hx with hx | hx
      · exact ⟨h.liveIn (hl.1 x hx), .inl (mem_append_left _ hx)⟩
      · exact ⟨(ha x hx).1, (ha x hx).2.imp_left (mem_append_right _)⟩
    · refine pairwise_append.mpr ⟨hd.1, ht, fun x hx y hy hm => ?_⟩
      rcases (ha y hy).2 with hy | hy
      · exact hd.2.2 x hx y hy hm
      · exact (hl.1 x hx).address_ne hy hm
  | @place L L' x a k args args' hk _ h ih =>
    have hno : preallocs (.dataTransferAlloc x :: args) = preallocs args := rfl
    rw [hno] at hl hd ⊢
    have hfr := h.freshIn_placedAt hb
    obtain ⟨ha, ht⟩ := ih hb
      (fun y hy => by
        obtain ⟨s, hs, hba⟩ := hl y hy
        exact ⟨s, subset_update L x _ hs, hba⟩) hd
    rw [preallocs_cons_prealloc]
    constructor
    · intro y hy
      rcases mem_cons.mp hy with rfl | hy
      · exact ⟨h.liveIn_placedAt hk, .inr hfr⟩
      · refine ⟨(ha y hy).1, (ha y hy).2.imp_right fun hf s hs => ?_⟩
        exact hf s (subset_update L x _ hs)
    · refine pairwise_cons.mpr ⟨fun y hy hm => ?_, ht⟩
      rcases (ha y hy).2 with ho | hn
      · exact ((hl y ho).address_ne hfr hm.symm).symm
      refine hn ⟨a, k⟩ ?_
      rw [← hm]
      show _ ∈ update L x.memory _ x.memory
      rw [update_self]
      exact mem_append_right _ (mem_singleton.mpr rfl)

end Placing

end Tapasco.Job
