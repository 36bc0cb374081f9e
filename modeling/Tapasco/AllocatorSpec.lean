import Tapasco.AllocatorRuns

/-!
# What Clients Rely On in an Allocator

The clients of the trait `Allocator` do not look into the allocators. `LawfulAllocator`
is the contract they rely on, in terms of the list of live segments: an allocation that
succeeds adds a segment that is large enough, a free removes one, an operation that fails
changes nothing, live segments are disjoint, and the state of an allocator is determined
by what is live.
-/

open FreeList

namespace Tapasco

/-- The contract of an allocator. `Later a b` says that `b` is a state that the allocator
in the state `a` can reach. Requests are sizes of slices, which have less than `2 ^ 63`
bytes. -/
class LawfulAllocator (σ : Type) [Allocator σ] where
  live : σ → List Segment
  Later : σ → σ → Prop
  disjoint : ∀ {a b : σ}, Later a b → (live b).Pairwise Segment.Disjoint
  in_space : ∀ {a b : σ}, Later a b → ∀ s ∈ live b, 0 < s.size ∧ s.stop ≤ 2 ^ 64
  allocate : ∀ {a b : σ}, Later a b → ∀ {n : ℕ}, n < 2 ^ 63 → ∀ va,
    (∃ e, Allocator.allocate b n va = (.error e, b)) ∨
      ∃ addr k b', Allocator.allocate b n va = (.ok addr, b') ∧ n ≤ k ∧
        live b' = live b ++ [⟨addr, k⟩] ∧ Later a b'
  allocateFixed : ∀ {a b : σ}, Later a b → ∀ {n : ℕ}, n < 2 ^ 63 → ∀ offset,
    (∃ e, Allocator.allocateFixed b n offset = (.error e, b)) ∨
      ∃ k b', Allocator.allocateFixed b n offset = (.ok offset, b') ∧ n ≤ k ∧
        live b' = live b ++ [⟨offset, k⟩] ∧ Later a b'
  free : ∀ {a b : σ}, Later a b → ∀ {pre post : List Segment} {s : Segment},
    live b = pre ++ s :: post →
      ∃ b', Allocator.free b s.base = (.ok (), b') ∧ live b' = pre ++ post ∧ Later a b'
  ext : ∀ {a b : σ}, Later a a → Later a b → live b = live a → b = a

namespace GenericAllocator

/-- Two states of one allocator: both tile the same region with the same alignment. -/
def Later (a b : GenericAllocator) : Prop :=
  ∃ lo hi, Region lo hi ∧ 0 < a.alignment ∧ a.alignment ≤ 2 ^ 63 ∧
    Inv lo hi a.alignment a ∧ Inv lo hi a.alignment b

theorem later_new {addr size al : ℕ} {a : GenericAllocator}
    (h : new addr size al = .ok a) (hf : addr + size < 2 ^ 64) (ha : al ≤ 2 ^ 63) : Later a a := by
  by_cases hs : size = 0
  · rw [new, if_pos hs] at h
    simp at h
  by_cases hal : al = 0
  · rw [new, if_neg hs, if_pos hal] at h
    simp at h
  obtain ⟨b, hb, hi⟩ := exists_new addr (Nat.pos_of_ne_zero hs) (Nat.pos_of_ne_zero hal)
  obtain rfl : b = a := Except.ok.inj (hb.symm.trans h)
  have hR := region_of_fit addr (Nat.pos_of_ne_zero hs) (by omega) (by omega)
  rw [Later, hi.alignment_eq]
  exact ⟨addr, addr + size, hR, Nat.pos_of_ne_zero hal, ha, hi, hi⟩

theorem Granted.later {lo hi size addr : ℕ} {a b b' : GenericAllocator} (hR : Region lo hi)
    (hp : 0 < a.alignment) (hm : a.alignment ≤ 2 ^ 63) (ha : Inv lo hi a.alignment a)
    (hb : Inv lo hi a.alignment b) (hs : size < 2 ^ 63) (h : Granted lo hi b b' size addr) :
    ∃ k, size ≤ k ∧ b'.memoryUsed = b.memoryUsed ++ [⟨addr, k⟩] ∧ Later a b' := by
  have hf : size + (b.alignment - 1) < 2 ^ 64 := by
    have := hb.alignment_eq
    omega
  refine ⟨b.fixAlignment size, ?_, h.used, lo, hi, hR, hp, hm, ha, h.inv hb.alignment_eq⟩
  exact Word64.le_alignUp (by rw [hb.alignment_eq]; exact hp) hf

theorem Inv.filter_base_ne {lo hi al : ℕ} {a : GenericAllocator}
    (h : Inv lo hi al a) {pre post : List MemoryFree} {m : MemoryFree}
    (hu : a.memoryUsed = pre ++ m :: post) :
    (a.memoryUsed.filter fun s => decide (s.base ≠ m.base)) = pre ++ post := by
  rw [hu]
  refine Lists.filter_append_cons (fun s hs => ?_) (decide_eq_false (not_not_intro rfl))
    fun s hs => ?_
  · exact decide_eq_true (h.eq_of_base_eq hu (List.mem_append_left post hs))
  · exact decide_eq_true (h.eq_of_base_eq hu (List.mem_append_right pre hs))

end GenericAllocator

open GenericAllocator in
/-- The generic allocator meets the contract. -/
instance : LawfulAllocator GenericAllocator where
  live := GenericAllocator.memoryUsed
  Later := GenericAllocator.Later
  disjoint := fun ⟨_, _, _, _, _, _, hb⟩ => hb.partition.used_disjoint
  in_space := by
    rintro a b ⟨lo, hi, hR, -, -, -, hb⟩ s hs
    have hin := hb.partition.mem_region (Or.inr hs)
    exact ⟨hb.partition.used_pos s hs, hin.2.trans hR.hi_le⟩
  allocate := by
    rintro a b ⟨lo, hi, hR, hpos, hmax, ha, hb⟩ n hn va
    have hal := hb.alignment_eq
    have hfit : n + (b.alignment - 1) < 2 ^ 64 := by omega
    rcases allocate_cases hR hb.partition (by omega) hfit va with
      herr | ⟨addr, b', hok, hgranted⟩
    · exact Or.inl herr
    · obtain ⟨k, hk, hused, hlater⟩ := hgranted.later hR hpos hmax ha hb hn
      exact Or.inr ⟨addr, k, b', hok, hk, hused, hlater⟩
  allocateFixed := by
    rintro a b ⟨lo, hi, hR, hpos, hmax, ha, hb⟩ n hn offset
    have hal := hb.alignment_eq
    have hfit : n + (b.alignment - 1) < 2 ^ 64 := by omega
    rcases allocateFixed_cases hR hb.partition (by omega) hfit offset with
      herr | ⟨b', hok, hgranted⟩
    · exact Or.inl herr
    · obtain ⟨k, hk, hused, hlater⟩ := hgranted.later hR hpos hmax ha hb hn
      exact Or.inr ⟨k, b', hok, hk, hused, hlater⟩
  free := by
    rintro a b ⟨lo, hi, hR, hpos, hmax, ha, hb⟩ pre post s hlive
    rcases free_cases hR hb.partition s.base with ⟨-, hne⟩ | ⟨b', hok, hfreed⟩
    · exact absurd rfl (hne s (by simp [hlive]))
    refine ⟨b', hok, ?_, lo, hi, hR, hpos, hmax, ha,
      hfreed.partition, hfreed.alignment.trans hb.alignment_eq⟩
    obtain ⟨pre', m, post', hused, hm, -, hused'⟩ := hfreed.used
    show b'.memoryUsed = pre ++ post
    rw [hused', ← hb.filter_base_ne hused, hm, hb.filter_base_ne hlive]
  ext := by
    rintro a b - ⟨lo, hi, hR, hpos, hmax, ha, hb⟩ hlive
    have hfree : b.memoryFree = a.memoryFree :=
      hb.partition.free_ext ha.partition fun s => by rw [hlive]
    obtain ⟨bf, bu, bal⟩ := b
    obtain ⟨af, au, aal⟩ := a
    simp only [mk.injEq]
    exact ⟨hfree, hlive, hb.alignment_eq⟩

end Tapasco
