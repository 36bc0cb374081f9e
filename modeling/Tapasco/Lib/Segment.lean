import Mathlib.Data.List.Chain

/-!
# Segments of an Address Space, and Canonical Free Lists

A segment is a half-open range of addresses `[base, base + size)`. This module is the
general theory behind free-list allocators: the addresses a list of segments covers,
the lists that are **canonical** (sorted, non-empty segments, no two of them touching),
and the two edits such a list undergoes, taking a piece out of one segment and giving a
piece back.
-/

open List

namespace FreeList

/-- The half-open range of addresses `[base, base + size)`. -/
structure Segment where
  base : ℕ
  size : ℕ
  deriving DecidableEq

namespace Segment

/-- The first address after the segment. -/
def stop (s : Segment) : ℕ :=
  s.base + s.size

@[simp] theorem stop_mk (base size : ℕ) : (Segment.mk base size).stop = base + size := rfl

/-- The addresses of a segment. -/
def Contains (s : Segment) (x : ℕ) : Prop :=
  s.base ≤ x ∧ x < s.stop

/-- No address lies in both segments. -/
def Disjoint (s t : Segment) : Prop :=
  s.stop ≤ t.base ∨ t.stop ≤ s.base

instance (s : Segment) (x : ℕ) : Decidable (s.Contains x) :=
  inferInstanceAs (Decidable (_ ∧ _))

theorem Disjoint.symm {s t : Segment} (h : s.Disjoint t) : t.Disjoint s :=
  Or.symm h

instance : Std.Symm Segment.Disjoint :=
  ⟨fun _ _ => Disjoint.symm⟩

theorem Disjoint.not_contains {s t : Segment} (h : s.Disjoint t) {x : ℕ}
    (hs : s.Contains x) : ¬ t.Contains x := by
  rintro ⟨ht, ht₂⟩
  obtain ⟨hs₁, hs₂⟩ := hs
  rcases h with h | h <;> omega

theorem disjoint_of_not_contains {s t : Segment} (hs : 0 < s.size) (ht : 0 < t.size)
    (h : ∀ x, s.Contains x → ¬ t.Contains x) : s.Disjoint t := by
  have h₁ := h s.base
  have h₂ := h t.base
  simp only [Contains, Disjoint, stop] at *
  omega

/-- A segment is determined by its ends. -/
theorem eq_of_stop_eq {s t : Segment} (hb : s.base = t.base) (hs : s.stop = t.stop) : s = t := by
  cases s
  cases t
  simp only [stop_mk, mk.injEq] at *
  omega

/-- The ends of a segment with all its addresses between two bounds. -/
theorem bounds_of_contains {s : Segment} {a b : ℕ} (hs : 0 < s.size)
    (h : ∀ x, s.Contains x → a ≤ x ∧ x < b) : a ≤ s.base ∧ s.stop ≤ b := by
  have hf := h s.base
  have hl := h (s.stop - 1)
  simp only [Contains, stop] at *
  omega

end Segment

open Segment

/-! ### Coverage -/

/-- The addresses that lie in some segment of the list. -/
def Covers (l : List Segment) (x : ℕ) : Prop :=
  ∃ s ∈ l, s.Contains x

@[simp] theorem covers_nil (x : ℕ) : ¬ Covers [] x := by
  simp [Covers]

@[simp] theorem covers_cons (s : Segment) (l : List Segment) (x : ℕ) :
    Covers (s :: l) x ↔ s.Contains x ∨ Covers l x := by
  simp [Covers]

@[simp] theorem covers_append (l m : List Segment) (x : ℕ) :
    Covers (l ++ m) x ↔ Covers l x ∨ Covers m x := by
  induction l with
  | nil => simp
  | cons s l ih => simp [ih, or_assoc]

variable {l : List Segment} {s : Segment} {pre post : List Segment}

theorem Covers.of_mem {x : ℕ} (hs : s ∈ l) (hx : s.Contains x) : Covers l x :=
  ⟨s, hs, hx⟩

theorem covers_congr {m : List Segment} (h : ∀ s, s ∈ l ↔ s ∈ m) (x : ℕ) :
    Covers l x ↔ Covers m x := by
  simp [Covers, h]

/-! ### Canonical lists -/

/-- Sorted segments that do not overlap but may touch. -/
structure Ordered (l : List Segment) : Prop where
  pos : ∀ s ∈ l, 0 < s.size
  sorted : l.Pairwise fun s t => s.stop ≤ t.base

/-- Sorted non-empty segments no two of which overlap or touch. -/
structure Canonical (l : List Segment) : Prop where
  pos : ∀ s ∈ l, 0 < s.size
  apart : l.Pairwise fun s t => s.stop < t.base

theorem canonical_nil : Canonical [] :=
  ⟨by simp, List.Pairwise.nil⟩

theorem canonical_singleton (h : 0 < s.size) : Canonical [s] :=
  ⟨by simpa using h, pairwise_singleton _ _⟩

theorem canonical_cons :
    Canonical (s :: l) ↔ 0 < s.size ∧ (∀ t ∈ l, s.stop < t.base) ∧ Canonical l := by
  constructor
  · rintro ⟨hp, ha⟩
    rw [forall_mem_cons] at hp
    rw [pairwise_cons] at ha
    exact ⟨hp.1, ha.1, hp.2, ha.2⟩
  · rintro ⟨hs, hl, hp, ha⟩
    exact ⟨forall_mem_cons.mpr ⟨hs, hp⟩, pairwise_cons.mpr ⟨hl, ha⟩⟩

theorem ordered_cons : Ordered (s :: l) ↔ 0 < s.size ∧ (∀ t ∈ l, s.stop ≤ t.base) ∧ Ordered l := by
  constructor
  · rintro ⟨hp, hso⟩
    rw [forall_mem_cons] at hp
    rw [pairwise_cons] at hso
    exact ⟨hp.1, hso.1, hp.2, hso.2⟩
  · rintro ⟨hs, hl, hp, hso⟩
    exact ⟨forall_mem_cons.mpr ⟨hs, hp⟩, pairwise_cons.mpr ⟨hl, hso⟩⟩

theorem Canonical.ordered (h : Canonical l) : Ordered l :=
  ⟨h.pos, h.apart.imp fun hlt => le_of_lt hlt⟩

theorem Canonical.sorted_base (h : Canonical l) : l.Pairwise fun s t => s.base < t.base :=
  h.apart.imp fun {s t} hlt => by
    unfold stop at hlt
    omega

theorem Canonical.stop_lt_of_covers (h : Canonical (s :: l)) {x : ℕ} (hx : Covers l x) :
    s.stop < x := by
  obtain ⟨t, ht, hxt⟩ := hx
  have hs := (canonical_cons.mp h).2.1 t ht
  exact lt_of_lt_of_le hs hxt.1

/-- What the other segments cover lies behind the first one. -/
theorem Canonical.covers_tail (h : Canonical (s :: l)) {x : ℕ} :
    Covers l x ↔ Covers (s :: l) x ∧ s.stop ≤ x := by
  rw [covers_cons]
  refine ⟨fun hx => ⟨.inr hx, (h.stop_lt_of_covers hx).le⟩, fun ⟨hc, hle⟩ => ?_⟩
  exact hc.resolve_left fun hs => absurd hs.2 (not_lt.mpr hle)

theorem Canonical.not_covers_stop (h : Canonical (s :: l)) : ¬ Covers (s :: l) s.stop := by
  rw [covers_cons]
  rintro (hs | hl)
  · exact lt_irrefl _ hs.2
  · exact lt_irrefl _ (h.stop_lt_of_covers hl)

theorem Canonical.base_le_of_covers (h : Canonical (s :: l)) {x : ℕ} (hx : Covers (s :: l) x) :
    s.base ≤ x := by
  rw [covers_cons] at hx
  rcases hx with hs | hl
  · exact hs.1
  · have hst := h.stop_lt_of_covers hl
    unfold stop at hst
    omega

theorem Canonical.covers_base (h : Canonical (s :: l)) : Covers (s :: l) s.base := by
  have hp := (canonical_cons.mp h).1
  exact Covers.of_mem mem_cons_self ⟨le_rfl, by unfold stop; omega⟩

variable {t : Segment}

/-- The first segment of a canonical list does not end inside the first one of another canonical
list that covers the same addresses. -/
theorem Canonical.stop_le_stop {m : List Segment} (hl : Canonical (s :: l))
    (hb : t.base = s.base) (h : ∀ x, Covers (s :: l) x ↔ Covers (t :: m) x) : t.stop ≤ s.stop := by
  by_contra hlt
  have hc : Covers (t :: m) s.stop := Covers.of_mem mem_cons_self ⟨by unfold stop; omega, by omega⟩
  exact hl.not_covers_stop ((h _).mpr hc)

/-- **A canonical list is determined by what it covers.** -/
theorem Canonical.ext {m : List Segment} (hl : Canonical l) (hm : Canonical m)
    (h : ∀ x, Covers l x ↔ Covers m x) : l = m := by
  induction l generalizing m with
  | nil =>
    cases m with
    | nil => rfl
    | cons t m => exact absurd ((h _).mpr hm.covers_base) (covers_nil _)
  | cons s l ih =>
    cases m with
    | nil => exact absurd ((h _).mp hl.covers_base) (covers_nil _)
    | cons t m =>
      have hb : s.base = t.base :=
        le_antisymm (hl.base_le_of_covers ((h _).mpr hm.covers_base))
          (hm.base_le_of_covers ((h _).mp hl.covers_base))
      have hsto : s.stop = t.stop :=
        le_antisymm (hm.stop_le_stop hb fun x => (h x).symm)
          (hl.stop_le_stop hb.symm h)
      obtain rfl := eq_of_stop_eq hb hsto
      refine congrArg (s :: ·) (ih (canonical_cons.mp hl).2.2
        (canonical_cons.mp hm).2.2 fun x => ?_)
      rw [hl.covers_tail, hm.covers_tail, h]

/-- The number of segments an address lies in. -/
def coverCount (l : List Segment) (x : ℕ) : ℕ :=
  l.countP fun s => decide (s.Contains x)

theorem coverCount_pos_iff {x : ℕ} : 0 < coverCount l x ↔ Covers l x := by
  simp [coverCount, Covers, countP_pos_iff]

theorem Canonical.coverCount_le_one (h : Canonical l) (x : ℕ) : coverCount l x ≤ 1 := by
  induction l with
  | nil => exact Nat.zero_le _
  | cons s l ih =>
    rw [coverCount, countP_cons, ← coverCount]
    by_cases hs : s.Contains x
    · have hl : coverCount l x = 0 := by
        by_contra hne
        have hlt := h.stop_lt_of_covers (coverCount_pos_iff.mp (Nat.pos_of_ne_zero hne))
        have := hs.2
        omega
      simp [hs, hl]
    · simpa [hs] using ih (canonical_cons.mp h).2.2

/-- Replacing one segment of a canonical list by canonical pieces of it. -/
theorem Canonical.replace {parts : List Segment} (h : Canonical (pre ++ s :: post))
    (hpa : Canonical parts) (hs : ∀ t ∈ parts, s.base ≤ t.base ∧ t.stop ≤ s.stop) :
    Canonical (pre ++ parts ++ post) := by
  obtain ⟨hp, ha⟩ := h
  rw [pairwise_append, pairwise_cons] at ha
  obtain ⟨hpr, ⟨hsp, hpo⟩, hc⟩ := ha
  refine ⟨fun t ht => ?_, ?_⟩
  · simp only [mem_append] at ht
    rcases ht with (ht | ht) | ht
    · exact hp t (by simp [ht])
    · exact hpa.pos t ht
    · exact hp t (by simp [ht])
  · rw [append_assoc, pairwise_append, pairwise_append]
    refine ⟨hpr, ⟨hpa.apart, hpo, fun t ht u hu => ?_⟩, fun t ht u hu => ?_⟩
    · exact lt_of_le_of_lt (hs t ht).2 (hsp u hu)
    · rw [mem_append] at hu
      rcases hu with hu | hu
      · exact lt_of_lt_of_le (hc t ht s mem_cons_self) (hs u hu).1
      · exact hc t ht u (mem_cons_of_mem _ hu)

/-! ### Single segments of a canonical list -/

section

variable (h : Canonical l)
include h

theorem Canonical.nodup : l.Nodup :=
  h.sorted_base.imp fun hlt heq => absurd (heq ▸ hlt) (lt_irrefl _)

theorem Canonical.apart_of_ne (hs : s ∈ l) (ht : t ∈ l) (hne : s ≠ t) :
    s.stop < t.base ∨ t.stop < s.base := by
  have : Std.Symm fun s t : Segment => s.stop < t.base ∨ t.stop < s.base := ⟨fun _ _ => Or.symm⟩
  have ha : l.Pairwise fun s t => s.stop < t.base ∨ t.stop < s.base := h.apart.imp Or.inl
  exact ha.forall hs ht hne

theorem Canonical.base_lt_stop (hs : s ∈ l) : s.base < s.stop :=
  Nat.lt_add_of_pos_right (h.pos s hs)

theorem Canonical.contains_base (hs : s ∈ l) : s.Contains s.base :=
  ⟨le_rfl, h.base_lt_stop hs⟩

theorem Canonical.not_covers_stop_of_mem (hs : s ∈ l) : ¬ Covers l s.stop := by
  rintro ⟨t, ht, hle, hlt⟩
  by_cases heq : s = t
  · rw [heq] at hlt
    exact absurd hlt (lt_irrefl _)
  · have hp := h.base_lt_stop hs
    rcases h.apart_of_ne hs ht heq with ha | ha <;> omega

theorem Canonical.exists_of_range {a b : ℕ} (hab : a < b)
    (hc : ∀ x, a ≤ x → x < b → Covers l x) : ∃ s ∈ l, s.base ≤ a ∧ b ≤ s.stop := by
  obtain ⟨s, hs, hle, hlt⟩ := hc a le_rfl hab
  refine ⟨s, hs, hle, not_lt.mp fun hst => ?_⟩
  exact h.not_covers_stop_of_mem hs (hc s.stop (le_of_lt hlt) hst)

theorem Canonical.mem_erase : t ∈ l.erase s ↔ t ≠ s ∧ t ∈ l :=
  h.nodup.mem_erase_iff

theorem Canonical.covers_erase (hs : s ∈ l) (x : ℕ) :
    Covers l x ↔ s.Contains x ∨ Covers (l.erase s) x := by
  constructor
  · rintro ⟨t, ht, hx⟩
    by_cases heq : t = s
    · exact .inl (heq ▸ hx)
    · exact .inr ⟨t, h.mem_erase.mpr ⟨heq, ht⟩, hx⟩
  · rintro (hx | ⟨t, ht, hx⟩)
    · exact ⟨s, hs, hx⟩
    · exact ⟨t, mem_of_mem_erase ht, hx⟩

end

/-! ### Sorted insertion and the merging pass -/

/-- The new segment goes before the first segment with a greater base. -/
def insertSorted (m : Segment) : List Segment → List Segment
  | [] => [m]
  | s :: l => if m.base < s.base then m :: s :: l else s :: insertSorted m l

theorem mem_insertSorted (m s : Segment) (l : List Segment) :
    s ∈ insertSorted m l ↔ s = m ∨ s ∈ l := by
  fun_induction insertSorted m l with
  | case1 => simp
  | case2 t l h => rw [mem_cons]
  | case3 t l h ih =>
    rw [mem_cons, ih, mem_cons]
    tauto

theorem covers_insertSorted (m : Segment) (l : List Segment) (x : ℕ) :
    Covers (insertSorted m l) x ↔ m.Contains x ∨ Covers l x := by
  rw [← covers_cons]
  exact covers_congr (fun s => by rw [mem_insertSorted, mem_cons]) x

theorem mem_foldr_insertSorted {m : List Segment} :
    s ∈ m.foldr insertSorted l ↔ s ∈ m ∨ s ∈ l := by
  induction m with
  | nil => simp
  | cons t m ih => rw [foldr_cons, mem_insertSorted, ih, mem_cons, or_assoc]

theorem covers_foldr_insertSorted (m l : List Segment) (x : ℕ) :
    Covers (m.foldr insertSorted l) x ↔ Covers m x ∨ Covers l x := by
  rw [← covers_append]
  exact covers_congr (fun s => mem_foldr_insertSorted.trans mem_append.symm) x

theorem pairwise_insertSorted {R : Segment → Segment → Prop} {m : Segment} (hl : l.Pairwise R)
    (hR : ∀ s ∈ l, ∀ t ∈ l, R s t → s.base ≤ t.base) (hlt : ∀ s ∈ l, m.base < s.base → R m s)
    (hge : ∀ s ∈ l, s.base ≤ m.base → R s m) : (insertSorted m l).Pairwise R := by
  fun_induction insertSorted m l with
  | case1 => exact pairwise_singleton _ _
  | case2 s l h =>
    refine pairwise_cons.mpr ⟨fun t ht => hlt t ht ?_, hl⟩
    rcases mem_cons.mp ht with rfl | ht'
    · exact h
    · exact h.trans_le (hR s mem_cons_self t ht ((pairwise_cons.mp hl).1 t ht'))
  | case3 s l h ih =>
    obtain ⟨hs, hl'⟩ := pairwise_cons.mp hl
    rw [forall_mem_cons] at hlt hge
    refine pairwise_cons.mpr ⟨fun t ht => ?_, ih hl' (fun u hu t ht =>
      hR u (mem_cons_of_mem _ hu) t (mem_cons_of_mem _ ht)) hlt.2 hge.2⟩
    rcases (mem_insertSorted m t l).mp ht with rfl | ht
    · exact hge.1 (not_lt.mp h)
    · exact hs t ht

theorem ordered_insertSorted {m : Segment} (hl : Ordered l) (hm : 0 < m.size)
    (hd : ∀ s ∈ l, s.Disjoint m) : Ordered (insertSorted m l) := by
  refine ⟨fun s hs => ?_, pairwise_insertSorted hl.sorted (fun s hs t _ hst => ?_)
    (fun s hs hlt => ?_) fun s hs hle => ?_⟩
  · exact ((mem_insertSorted m s l).mp hs).elim (· ▸ hm) (hl.pos s)
  all_goals
    have hpos := hl.pos s hs
    have hds := hd s hs
    simp only [Segment.Disjoint, stop] at *
    omega

theorem canonical_insertSorted {m : Segment} (hl : Canonical l) (hm : 0 < m.size)
    (hap : ∀ s ∈ l, s.stop < m.base ∨ m.stop < s.base) : Canonical (insertSorted m l) := by
  refine ⟨fun s hs => ?_, pairwise_insertSorted hl.apart (fun s hs t _ hst => ?_)
    (fun s hs hlt => ?_) fun s hs hle => ?_⟩
  · exact ((mem_insertSorted m s l).mp hs).elim (· ▸ hm) (hl.pos s)
  all_goals
    have hpos := hl.pos s hs
    have ha := hap s hs
    simp only [stop] at *
    omega

/-- One merging pass: the current segment `s` grows over the segments of `l` that touch it, and is
final when the next one does not. -/
def coalesceFrom : Segment → List Segment → List Segment
  | s, [] => [s]
  | s, t :: l =>
    if s.stop = t.base then coalesceFrom ⟨s.base, s.size + t.size⟩ l
    else s :: coalesceFrom t l

/-- The merging pass over a whole list. -/
def coalesce : List Segment → List Segment
  | [] => []
  | s :: l => coalesceFrom s l

theorem covers_coalesceFrom (s : Segment) (l : List Segment) (x : ℕ) :
    Covers (coalesceFrom s l) x ↔ Covers (s :: l) x := by
  fun_induction coalesceFrom s l with
  | case1 => rfl
  | case2 s t l h ih =>
    rw [ih]
    simp only [covers_cons, Contains, stop] at h ⊢
    by_cases hl : Covers l x
    · simp [hl]
    · simp only [hl, or_false]
      omega
  | case3 s t l h ih => rw [covers_cons, ih, ← covers_cons]

theorem Ordered.merge_head (hl : Ordered (s :: t :: l)) (h : s.stop = t.base) :
    Ordered (⟨s.base, s.size + t.size⟩ :: l) := by
  obtain ⟨hs, -, hl'⟩ := ordered_cons.mp hl
  obtain ⟨-, ht, hl''⟩ := ordered_cons.mp hl'
  refine ordered_cons.mpr ⟨Nat.add_pos_left hs _, fun u hu => ?_, hl''⟩
  have htu := ht u hu
  simp only [stop] at h htu ⊢
  omega

theorem base_le_of_mem_coalesceFrom (hl : Ordered (s :: l)) (ht : t ∈ coalesceFrom s l) :
    s.base ≤ t.base := by
  fun_induction coalesceFrom s l with
  | case1 s => rw [mem_singleton.mp ht]
  | case2 s u l h ih => exact ih (hl.merge_head h) ht
  | case3 s u l h ih =>
    obtain ⟨-, hs, hl'⟩ := ordered_cons.mp hl
    have hsu : s.stop ≤ u.base := hs u mem_cons_self
    rcases mem_cons.mp ht with rfl | ht
    · exact le_rfl
    · have hut := ih hl' ht
      unfold stop at hsu
      omega

theorem canonical_coalesceFrom (hl : Ordered (s :: l)) : Canonical (coalesceFrom s l) := by
  fun_induction coalesceFrom s l with
  | case1 s => exact canonical_singleton (hl.pos s mem_cons_self)
  | case2 s t l h ih => exact ih (hl.merge_head h)
  | case3 s t l h ih =>
    obtain ⟨hs, hsl, hl'⟩ := ordered_cons.mp hl
    refine canonical_cons.mpr ⟨hs, fun u hu => ?_, ih hl'⟩
    have hst : s.stop ≤ t.base := hsl t mem_cons_self
    have ht := base_le_of_mem_coalesceFrom hl' hu
    omega

theorem coalesceFrom_of_canonical (hl : Canonical (s :: l)) : coalesceFrom s l = s :: l := by
  induction l generalizing s with
  | nil => rfl
  | cons t l ih =>
    obtain ⟨-, hs, hl'⟩ := canonical_cons.mp hl
    rw [coalesceFrom, if_neg (ne_of_lt (hs t mem_cons_self)), ih hl']

theorem canonical_coalesce (hl : Ordered l) : Canonical (coalesce l) := by
  cases l with
  | nil => exact canonical_nil
  | cons s l => exact canonical_coalesceFrom hl

theorem covers_coalesce (l : List Segment) (x : ℕ) : Covers (coalesce l) x ↔ Covers l x := by
  cases l with
  | nil => rfl
  | cons s l => exact covers_coalesceFrom s l x

/-! ### Tilings of a region by free and used segments -/

/-- The free list is canonical, the used segments are non-empty, and all segments together cover
`[lo, hi)`, without overlaps. -/
structure Partition (lo hi : ℕ) (free used : List Segment) : Prop where
  canonical : Canonical free
  used_pos : ∀ s ∈ used, 0 < s.size
  used_disjoint : used.Pairwise Segment.Disjoint
  apart : ∀ s ∈ free, ∀ t ∈ used, s.Disjoint t
  covers : ∀ x, Covers free x ∨ Covers used x ↔ lo ≤ x ∧ x < hi

section

variable {lo hi : ℕ} {free used : List Segment}

theorem partition_initial (h : lo < hi) : Partition lo hi [⟨lo, hi - lo⟩] [] where
  canonical := canonical_singleton (Nat.sub_pos_of_lt h)
  used_pos := by simp
  used_disjoint := List.Pairwise.nil
  apart := by simp
  covers x := by
    simp only [covers_cons, Contains, stop_mk, covers_nil, or_false]
    omega

variable {s : Segment}

theorem Partition.mem_region (h : Partition lo hi free used) (hs : s ∈ free ∨ s ∈ used) :
    lo ≤ s.base ∧ s.stop ≤ hi :=
  bounds_of_contains (hs.elim (h.canonical.pos s) (h.used_pos s)) fun x hx =>
    (h.covers x).mp (hs.imp (Covers.of_mem · hx) (Covers.of_mem · hx))

theorem Partition.not_covers_used (h : Partition lo hi free used) {x : ℕ}
    (hx : Covers free x) : ¬ Covers used x := by
  rintro ⟨t, ht, htx⟩
  obtain ⟨s, hs, hsx⟩ := hx
  exact (h.apart s hs t ht).not_contains hsx htx

/-- **The free list of a tiling is a function of the set of used segments.** -/
theorem Partition.free_ext {free' used' : List Segment} (h : Partition lo hi free used)
    (h' : Partition lo hi free' used') (hu : ∀ s, s ∈ used ↔ s ∈ used') : free = free' := by
  refine h.canonical.ext h'.canonical fun x => ?_
  have hc := covers_congr hu x
  have hx := h.covers x
  have hx' := h'.covers x
  constructor
  · intro hf
    have hn := h.not_covers_used hf
    rw [hc] at hn
    exact (hx'.mpr (hx.mp (.inl hf))).resolve_right hn
  · intro hf
    have hn := h'.not_covers_used hf
    rw [← hc] at hn
    exact (hx.mpr (hx'.mp (.inl hf))).resolve_right hn

theorem Partition.free_eq_of_used_nil (h : Partition lo hi free []) (hlt : lo < hi) :
    free = [⟨lo, hi - lo⟩] :=
  h.free_ext (partition_initial hlt) fun _ => Iff.rfl

/-- **Taking a piece**: a free segment `s` is replaced by the pieces left of it when the
segment `t` is taken out of it. -/
theorem Partition.take {parts : List Segment} {t : Segment}
    (h : Partition lo hi (pre ++ s :: post) used) (hp : Canonical parts) (ht : 0 < t.size)
    (hsp : ∀ x, s.Contains x ↔ Covers parts x ∨ t.Contains x)
    (hl : ∀ x, Covers parts x → ¬ t.Contains x) :
    Partition lo hi (pre ++ parts ++ post) (used ++ [t]) := by
  have hs : s ∈ pre ++ s :: post := by simp
  have hts : ∀ x, t.Contains x → s.Contains x := fun x hx => (hsp x).mpr (.inr hx)
  have hps : ∀ u ∈ parts, s.base ≤ u.base ∧ u.stop ≤ s.stop := fun u hu =>
    bounds_of_contains (hp.pos u hu) fun x hx => (hsp x).mpr (.inl (Covers.of_mem hu hx))
  have hc := h.canonical.replace hp hps
  refine ⟨hc, ?_, ?_, ?_, ?_⟩
  · intro u hu
    rw [mem_append, mem_singleton] at hu
    rcases hu with hu | rfl
    · exact h.used_pos u hu
    · exact ht
  · rw [pairwise_append]
    refine ⟨h.used_disjoint, pairwise_singleton _ _, fun u hu v hv => ?_⟩
    rw [mem_singleton] at hv
    subst hv
    refine disjoint_of_not_contains (h.used_pos u hu) ht fun x hux hvx => ?_
    exact (h.apart s hs u hu).not_contains (hts x hvx) hux
  · intro u hu v hv
    rw [mem_append, mem_singleton] at hv
    have hsu : ∃ w ∈ pre ++ s :: post, ∀ x, u.Contains x → w.Contains x := by
      simp only [mem_append] at hu
      rcases hu with (hu | hu) | hu
      · exact ⟨u, by simp [hu], fun _ hx => hx⟩
      · exact ⟨s, hs, fun x hx => (hsp x).mpr (.inl (Covers.of_mem hu hx))⟩
      · exact ⟨u, by simp [hu], fun _ hx => hx⟩
    have hup := hc.pos u hu
    rcases hv with hv | rfl
    · obtain ⟨w, hw, huw⟩ := hsu
      exact disjoint_of_not_contains hup (h.used_pos v hv) fun x hux hvx =>
        (h.apart w hw v hv).not_contains (huw x hux) hvx
    refine disjoint_of_not_contains hup ht fun x hux hvx => ?_
    -- the pieces avoid the taken segment, the other free segments avoid all of `s`
    simp only [mem_append] at hu
    have ha := h.canonical.apart
    rw [pairwise_append, pairwise_cons] at ha
    have hsx := hts x hvx
    rcases hu with (hu | hu) | hu
    · have hlt := ha.2.2 u hu s mem_cons_self
      simp only [Contains, stop] at hux hsx hlt
      omega
    · exact hl x (Covers.of_mem hu hux) hvx
    · have hlt := ha.2.1.1 u hu
      simp only [Contains, stop] at hux hsx hlt
      omega
  · intro x
    rw [← h.covers x]
    simp only [covers_append, covers_cons, covers_nil, or_false, hsp x]
    tauto

/-- The segment from `a` up to `b`, or nothing when it would be empty. -/
def gap (a b : ℕ) : List Segment :=
  if a < b then [⟨a, b - a⟩] else []

theorem gap_of_lt {a b : ℕ} (h : a < b) : gap a b = [⟨a, b - a⟩] :=
  if_pos h

theorem gap_of_le {a b : ℕ} (h : b ≤ a) : gap a b = [] :=
  if_neg (not_lt.mpr h)

theorem mem_gap {a b : ℕ} {u : Segment} (hu : u ∈ gap a b) :
    u.base = a ∧ u.stop = b ∧ 0 < u.size := by
  rcases lt_or_ge a b with h | h
  · rw [gap_of_lt h, mem_singleton] at hu
    subst hu
    exact ⟨rfl, by rw [stop_mk]; omega, Nat.sub_pos_of_lt h⟩
  · rw [gap_of_le h] at hu
    exact absurd hu not_mem_nil

@[simp] theorem covers_gap (a b x : ℕ) : Covers (gap a b) x ↔ a ≤ x ∧ x < b := by
  rcases lt_or_ge a b with h | h
  · simp only [gap_of_lt h, covers_cons, covers_nil, or_false, Contains, stop_mk]
    omega
  · simp only [gap_of_le h, covers_nil, false_iff]
    omega

theorem pairwise_gap (a b : ℕ) : (gap a b).Pairwise fun s t => s.stop < t.base := by
  rcases lt_or_ge a b with h | h
  · rw [gap_of_lt h]
    exact pairwise_singleton _ _
  · rw [gap_of_le h]
    exact List.Pairwise.nil

/-- What is left of `s` when `t` is cut out of it: a piece before and a piece after. -/
def pieces (s t : Segment) : List Segment :=
  gap s.base t.base ++ gap t.stop s.stop

theorem Partition.cut {t : Segment} (h : Partition lo hi (pre ++ s :: post) used) (ht : 0 < t.size)
    (hb : s.base ≤ t.base) (hs : t.stop ≤ s.stop) :
    Partition lo hi (pre ++ pieces s t ++ post) (used ++ [t]) := by
  have hts : t.base < t.stop := Nat.lt_add_of_pos_right ht
  have hc : ∀ x, Covers (pieces s t) x ↔
      (s.base ≤ x ∧ x < t.base) ∨ (t.stop ≤ x ∧ x < s.stop) := fun x => by
    rw [pieces, covers_append, covers_gap, covers_gap]
  refine h.take ⟨fun u hu => ?_, ?_⟩ ht (fun x => ?_) fun x hx htx => ?_
  · rw [pieces, mem_append] at hu
    exact hu.elim (fun hl => (mem_gap hl).2.2) fun hr => (mem_gap hr).2.2
  · rw [pieces, pairwise_append]
    refine ⟨pairwise_gap _ _, pairwise_gap _ _, fun u hu v hv => ?_⟩
    obtain ⟨-, hus, -⟩ := mem_gap hu
    obtain ⟨hvb, -, -⟩ := mem_gap hv
    omega
  · rw [hc x, Contains, Contains]
    omega
  · rw [hc x] at hx
    rw [Contains] at htx
    omega

/-- **Giving a piece back**: a used segment is inserted into the free list, followed by
one merging pass. -/
theorem Partition.give {m : Segment} (h : Partition lo hi free (pre ++ m :: post)) :
    Partition lo hi (coalesce (insertSorted m free)) (pre ++ post) := by
  have hm : m ∈ pre ++ m :: post := by simp
  have hmp := h.used_pos m hm
  have hd : ∀ s ∈ free, s.Disjoint m := fun s hs => h.apart s hs m hm
  have ho := ordered_insertSorted h.canonical.ordered hmp hd
  have hca := canonical_coalesce ho
  have hme : ∀ u, u ∈ pre ++ post → u ∈ pre ++ m :: post := by
    intro u hu
    simp only [mem_append, mem_cons] at hu ⊢
    tauto
  have hus := h.used_disjoint
  rw [pairwise_append, pairwise_cons] at hus
  obtain ⟨hp, ⟨hmpo, hpo⟩, hcr⟩ := hus
  have hmu : ∀ u ∈ pre ++ post, m.Disjoint u := by
    intro u hu
    rw [mem_append] at hu
    rcases hu with hu | hu
    · exact (hcr u hu m mem_cons_self).symm
    · exact hmpo u hu
  refine ⟨hca, fun u hu => h.used_pos u (hme u hu), ?_, ?_, ?_⟩
  · rw [pairwise_append]
    exact ⟨hp, hpo, fun u hu v hv => hcr u hu v (mem_cons_of_mem _ hv)⟩
  · intro s hs t ht
    refine disjoint_of_not_contains (hca.pos s hs) (h.used_pos t (hme t ht))
      fun x hsx htx => ?_
    have hc : Covers (coalesce (insertSorted m free)) x := Covers.of_mem hs hsx
    rw [covers_coalesce, covers_insertSorted] at hc
    rcases hc with hmx | ⟨u, hu, hux⟩
    · exact (hmu t ht).not_contains hmx htx
    · exact (h.apart u hu t (hme t ht)).not_contains hux htx
  · intro x
    rw [← h.covers x, covers_coalesce, covers_insertSorted]
    simp only [covers_append, covers_cons]
    tauto

/-! ### Maximal gaps -/

/-- A maximal gap between the used segments of the region `[lo, hi)`. -/
structure IsGap (lo hi : ℕ) (used : List Segment) (g : Segment) : Prop where
  pos : 0 < g.size
  lo_le : lo ≤ g.base
  le_hi : g.stop ≤ hi
  unused : ∀ x, g.Contains x → ¬ Covers used x
  left : lo < g.base → Covers used (g.base - 1)
  right : g.stop < hi → Covers used g.stop

theorem Canonical.not_covers_pred_base {l : List Segment} (h : Canonical l) (hs : s ∈ l)
    (hb : 0 < s.base) : ¬ Covers l (s.base - 1) := by
  rintro ⟨t, ht, hle, hlt⟩
  have hne : s ≠ t := by
    rintro rfl
    omega
  have hp := h.base_lt_stop hs
  rcases h.apart_of_ne hs ht hne with ha | ha <;> omega

theorem Partition.covers_free (h : Partition lo hi free used) {x : ℕ} (hl : lo ≤ x)
    (hh : x < hi) (hx : ¬ Covers used x) : Covers free x :=
  ((h.covers x).mpr ⟨hl, hh⟩).resolve_right hx

/-- **The free list of a tiling consists of the maximal gaps.** -/
theorem Partition.mem_free_iff (h : Partition lo hi free used) {g : Segment} :
    g ∈ free ↔ IsGap lo hi used g := by
  constructor
  · intro hg
    obtain ⟨hlo, hh⟩ := h.mem_region (.inl hg)
    have hlt := h.canonical.base_lt_stop hg
    refine ⟨h.canonical.pos g hg, hlo, hh,
      fun x hx => h.not_covers_used (Covers.of_mem hg hx), ?_, ?_⟩
    · intro hl
      refine ((h.covers (g.base - 1)).mpr (by omega)).resolve_left ?_
      exact h.canonical.not_covers_pred_base hg (by omega)
    · intro hr
      refine ((h.covers g.stop).mpr (by omega)).resolve_left ?_
      exact h.canonical.not_covers_stop_of_mem hg
  · intro hg
    have hlo := hg.lo_le
    have hh := hg.le_hi
    have hlt : g.base < g.stop := Nat.lt_add_of_pos_right hg.pos
    obtain ⟨s, hs, hb, hst⟩ := h.canonical.exists_of_range hlt fun x hle hx =>
      h.covers_free (by omega) (by omega) (hg.unused x ⟨hle, hx⟩)
    have hin := h.mem_region (.inl hs)
    -- a free segment that reaches beyond the gap would cover the used address next to it
    have hl : s.base = g.base := by
      by_contra hne
      have hc : Covers free (g.base - 1) := Covers.of_mem hs ⟨by omega, by omega⟩
      exact h.not_covers_used hc (hg.left (by omega))
    have hr : s.stop = g.stop := by
      by_contra hne
      have hc : Covers free g.stop := Covers.of_mem hs ⟨by omega, by omega⟩
      exact h.not_covers_used hc (hg.right (by omega))
    exact eq_of_stop_eq hl hr ▸ hs

end

end FreeList
