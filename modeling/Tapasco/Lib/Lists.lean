import Mathlib.Data.List.Nodup

/-!
# Splitting a List at an Element

Vectors that are searched for the first element with a property and then edited at the
place that was found are modelled by splitting the list around that element:
`findSplit p l` returns what stands before it, the element, and what stands after it.
Removing, replacing and inserting at the place are then plain concatenations.
-/

open List

namespace Lists

variable {α : Type*}

/-- The list split around its first element with property `p`. -/
def findSplit (p : α → Bool) : List α → Option (List α × α × List α)
  | [] => none
  | a :: l =>
    if p a then some ([], a, l)
    else (findSplit p l).map fun r => (a :: r.1, r.2)

variable {p : α → Bool} {l : List α}

theorem findSplit_eq_none_iff : findSplit p l = none ↔ ∀ a ∈ l, p a = false := by
  induction l with
  | nil => simp [findSplit]
  | cons a l ih =>
    rw [findSplit, forall_mem_cons]
    cases h : p a with
    | true => simp
    | false => simp [ih]

variable {a : α}

theorem findSplit_eq_some {pre post : List α} (h : findSplit p l = some (pre, a, post)) :
    l = pre ++ a :: post ∧ p a = true ∧ ∀ b ∈ pre, p b = false := by
  induction l generalizing pre with
  | nil => simp [findSplit] at h
  | cons c l ih =>
    rw [findSplit] at h
    cases hc : p c with
    | true =>
      rw [hc, if_pos rfl, Option.some.injEq, Prod.mk.injEq, Prod.mk.injEq] at h
      obtain ⟨rfl, rfl, rfl⟩ := h
      exact ⟨rfl, hc, by simp⟩
    | false =>
      simp only [hc, Bool.false_eq_true, if_false, Option.map_eq_some_iff] at h
      obtain ⟨⟨pre', a', post'⟩, hr, heq⟩ := h
      simp only [Prod.mk.injEq] at heq
      obtain ⟨rfl, rfl, rfl⟩ := heq
      obtain ⟨rfl, ha, hp⟩ := ih hr
      exact ⟨rfl, ha, forall_mem_cons.mpr ⟨hc, hp⟩⟩

theorem findSplit_append_cons {pre post : List α} (hp : ∀ b ∈ pre, p b = false) (ha : p a = true) :
    findSplit p (pre ++ a :: post) = some (pre, a, post) := by
  induction pre with
  | nil => rw [nil_append, findSplit, if_pos ha]
  | cons b pre ih =>
    rw [forall_mem_cons] at hp
    rw [cons_append, findSplit, if_neg (by simp [hp.1]), ih hp.2]
    rfl

theorem filter_append_cons {pre post : List α} (hp : ∀ b ∈ pre, p b = true) (ha : p a = false)
    (hpo : ∀ b ∈ post, p b = true) : (pre ++ a :: post).filter p = pre ++ post := by
  rw [filter_append, filter_cons_of_neg (by simp [ha]),
    filter_eq_self.mpr hp, filter_eq_self.mpr hpo]

theorem exists_append_of_getElem? {i : ℕ} (h : l[i]? = some a) :
    ∃ pre post, l = pre ++ a :: post ∧ pre.length = i := by
  obtain ⟨hlt, rfl⟩ := List.getElem?_eq_some_iff.mp h
  refine ⟨l.take i, l.drop (i + 1), ?_, length_take_of_le (Nat.le_of_lt hlt)⟩
  rw [← drop_eq_getElem_cons hlt, take_append_drop]

theorem set_append_cons (pre post : List α) (a b : α) :
    (pre ++ a :: post).set pre.length b = pre ++ b :: post := by
  rw [set_append_right _ _ (Nat.le_refl _), Nat.sub_self, set_cons_zero]

variable {β : Type*}

theorem filterMap_filter_of {f : α → Option β} (h : ∀ a ∈ l, p a = false → f a = none) :
    (l.filter p).filterMap f = l.filterMap f := by
  rw [filterMap_filter]
  refine filterMap_congr fun a ha => ?_
  cases hp : p a with
  | true => rfl
  | false => exact (h a ha hp).symm

theorem exists_getElem?_of_forall₂ {R : α → β → Prop} {l' : List β} (h : List.Forall₂ R l l')
    {k : ℕ} (ha : l[k]? = some a) : ∃ b, l'[k]? = some b ∧ R a b := by
  induction h generalizing k with
  | nil => simp at ha
  | @cons c d l l' hc _ ih =>
    cases k with
    | zero =>
      obtain rfl : c = a := Option.some.inj ha
      exact ⟨d, rfl, hc⟩
    | succ k => exact ih ha

theorem exists_mem_of_forall₂ {R : α → β → Prop} {l' : List β} (h : List.Forall₂ R l l')
    (ha : a ∈ l) : ∃ b ∈ l', R a b := by
  obtain ⟨k, hk⟩ := mem_iff_getElem?.mp ha
  obtain ⟨b, hb, hab⟩ := exists_getElem?_of_forall₂ h hk
  exact ⟨b, mem_of_getElem? hb, hab⟩

/-! ### Pairing a list with a shorter one -/

theorem zip_concat_left {k : List β} (h : k.length ≤ l.length) (a : α) :
    (l ++ [a]).zip k = l.zip k := by
  induction l generalizing k with
  | nil =>
    rw [length_eq_zero_iff.mp (Nat.le_zero.mp h), zip_nil_right, zip_nil_right]
  | cons c l ih =>
    cases k with
    | nil => rfl
    | cons d k => exact congrArg _ (ih (Nat.le_of_succ_le_succ h))

theorem zip_concat_right {k : List β} (h : l[k.length]? = some a) (b : β) :
    l.zip (k ++ [b]) = l.zip k ++ [(a, b)] := by
  induction k generalizing l with
  | nil =>
    cases l with
    | nil => simp at h
    | cons c l =>
      obtain rfl : c = a := Option.some.inj h
      simp
  | cons d k ih =>
    cases l with
    | nil => simp at h
    | cons c l => exact congrArg _ (ih h)

theorem zip_eq_map {f : α → β} {k : List β} (hl : k.length = l.length)
    (h : ∀ (i : ℕ) (a : α) (b : β), l[i]? = some a → k[i]? = some b → b = f a) :
    l.zip k = l.map fun a => (a, f a) := by
  induction l generalizing k with
  | nil => rfl
  | cons c l ih =>
    cases k with
    | nil => simp at hl
    | cons d k =>
      obtain rfl := h 0 c d rfl rfl
      exact congrArg _ (ih (Nat.succ.inj hl) fun i => h (i + 1))

/-! ### Two selections from one list -/

/-- The selection of what either of two selections takes. -/
def either {β : Type*} (f g : α → Option β) (a : α) : Option β :=
  (f a).or (g a)

section

variable {β : Type*} {f g : α → Option β} (hfg : ∀ a, f a = none ∨ g a = none)

include hfg

theorem or_cases (a : α) :
    (∃ b, f a = some b ∧ g a = none ∧ either f g a = some b) ∨
      (∃ b, f a = none ∧ g a = some b ∧ either f g a = some b) ∨
      (f a = none ∧ g a = none ∧ either f g a = none) := by
  cases hf : f a with
  | some b => exact .inl ⟨b, rfl, (hfg a).resolve_left (by simp [hf]), by simp [either, hf]⟩
  | none =>
    cases hg : g a with
    | some b => exact .inr (.inl ⟨b, rfl, rfl, by simp [either, hf, hg]⟩)
    | none => exact .inr (.inr ⟨rfl, rfl, by simp [either, hf, hg]⟩)

theorem filterMap_append_perm (l : List α) :
    (l.filterMap f ++ l.filterMap g).Perm (l.filterMap (either f g)) := by
  induction l with
  | nil => exact List.Perm.nil
  | cons a l ih =>
    obtain ⟨b, hf, hg, ho⟩ | ⟨b, hf, hg, ho⟩ | ⟨hf, hg, ho⟩ := or_cases hfg a
    · rw [filterMap_cons_some hf, filterMap_cons_none hg, filterMap_cons_some ho]
      exact ih.cons b
    · rw [filterMap_cons_none hf, filterMap_cons_some hg, filterMap_cons_some ho]
      exact perm_middle.trans (ih.cons b)
    · rw [filterMap_cons_none hf, filterMap_cons_none hg, filterMap_cons_none ho]
      exact ih

/-- The selections stand in the order of the list if no element of the second one stands
before one of the first. -/
theorem filterMap_append_eq {l : List α} (h : l.Pairwise fun a b => g a ≠ none → f b = none) :
    l.filterMap f ++ l.filterMap g = l.filterMap (either f g) := by
  induction l with
  | nil => rfl
  | cons a l ih =>
    obtain ⟨hh, ht⟩ := pairwise_cons.mp h
    obtain ⟨b, hf, hg, ho⟩ | ⟨b, hf, hg, ho⟩ | ⟨hf, hg, ho⟩ := or_cases hfg a
    · rw [filterMap_cons_some hf, filterMap_cons_none hg,
        filterMap_cons_some ho, ← ih ht, cons_append]
    · have hn : l.filterMap f = [] :=
        filterMap_eq_nil_iff.mpr fun c hc => hh c hc (by simp [hg])
      rw [filterMap_cons_none hf, filterMap_cons_some hg,
        filterMap_cons_some ho, ← ih ht, hn, nil_append, nil_append]
    · rw [filterMap_cons_none hf, filterMap_cons_none hg, filterMap_cons_none ho, ih ht]

/-- If the selected elements differ, this is the only way. -/
theorem pairwise_of_filterMap_append_eq {l : List α} (hno : (l.filterMap (either f g)).Nodup)
    (h : l.filterMap f ++ l.filterMap g = l.filterMap (either f g)) :
    l.Pairwise fun a b => g a ≠ none → f b = none := by
  induction l with
  | nil => exact List.Pairwise.nil
  | cons a l ih =>
    refine pairwise_cons.mpr ?_
    obtain ⟨b, hf, hg, ho⟩ | ⟨b, hf, hg, ho⟩ | ⟨hf, hg, ho⟩ := or_cases hfg a
    · rw [filterMap_cons_some hf, filterMap_cons_none hg,
        filterMap_cons_some ho, cons_append, List.cons.injEq] at h
      rw [filterMap_cons_some ho, nodup_cons] at hno
      exact ⟨fun c _ hne => absurd hg hne, ih hno.2 h.2⟩
    · rw [filterMap_cons_none hf, filterMap_cons_some hg, filterMap_cons_some ho] at h
      rw [filterMap_cons_some ho, nodup_cons] at hno
      -- The first element of the first selection would have to be `b`.
      have hn : l.filterMap f = [] := by
        cases hl : l.filterMap f with
        | nil => rfl
        | cons c rest =>
          rw [hl, cons_append, List.cons.injEq] at h
          have hm : c ∈ l.filterMap (either f g) :=
            (filterMap_append_perm hfg l).subset (by simp [hl])
          rw [h.1] at hm
          exact absurd hm hno.1
      rw [hn, nil_append, List.cons.injEq] at h
      refine ⟨fun c hc _ => filterMap_eq_nil_iff.mp hn c hc, ih hno.2 ?_⟩
      rw [hn, nil_append]
      exact h.2
    · rw [filterMap_cons_none hf, filterMap_cons_none hg, filterMap_cons_none ho] at h
      rw [filterMap_cons_none ho] at hno
      exact ⟨fun c _ hne => absurd hg hne, ih hno h⟩

end

end Lists
