import Mathlib.Data.Multiset.AddSub
import Mathlib.Data.Set.Insert

/-!
# Tokens in Exactly One Place

A system hands tokens around: at any time each of them is in one of many places, once.
`ExactlyOne tokens held` says so for the contents `held` of the places. An action that
moves one token from one place to another keeps this; that is all a proof about such a
system has to show about an action.
-/

namespace Ownership

open Multiset

variable {P τ : Type*} [DecidableEq τ]

/-- Every token is in exactly one place, once, and nothing else is anywhere. -/
structure ExactlyOne (tokens : Set τ) (held : P → Multiset τ) : Prop where
  unique : ∀ t ∈ tokens, ∃ p, (held p).count t = 1 ∧ ∀ q, q ≠ p → t ∉ held q
  known : ∀ p, ∀ t ∈ held p, t ∈ tokens

namespace ExactlyOne

variable {tokens : Set τ} {held held' : P → Multiset τ}

section

variable (h : ExactlyOne tokens held)
include h

theorem eq_of_mem {p q : P} {t : τ} (hp : t ∈ held p)
    (hq : t ∈ held q) : p = q := by
  obtain ⟨r, -, hr⟩ := h.unique t (h.known p t hp)
  have hpr : p = r := by_contra fun hne => hr p hne hp
  have hqr : q = r := by_contra fun hne => hr q hne hq
  exact hpr.trans hqr.symm

theorem count_eq_one {p : P} {t : τ} (hp : t ∈ held p) :
    (held p).count t = 1 := by
  obtain ⟨r, hc, hr⟩ := h.unique t (h.known p t hp)
  obtain rfl : p = r := by_contra fun hne => hr p hne hp
  exact hc

/-- A token of which each place has as many as before is still in exactly one place. -/
theorem unique_of_count_eq {t : τ} (ht : t ∈ tokens)
    (hs : ∀ r, (held' r).count t = (held r).count t) :
    ∃ p, (held' p).count t = 1 ∧ ∀ q, q ≠ p → t ∉ held' q := by
  obtain ⟨p, hc, hp⟩ := h.unique t ht
  refine ⟨p, (hs p).trans hc, fun q hq => ?_⟩
  rw [← count_eq_zero, hs q]
  exact count_eq_zero.mpr (hp q hq)

/-- **Moving tokens** from one place to another. -/
theorem moveAll {p q : P} (hpq : p ≠ q) {m : Multiset τ}
    (hp : held p = m + held' p) (hq : held' q = m + held q)
    (hother : ∀ r, r ≠ p → r ≠ q → held' r = held r) : ExactlyOne tokens held' := by
  constructor
  · intro t ht
    by_cases hm : t ∈ m
    · -- the token was in `p` only, and now it is in `q` only
      have htp : t ∈ held p := hp ▸ mem_add.mpr (.inl hm)
      have htq : t ∉ held q := fun hm => hpq (h.eq_of_mem htp hm)
      have ho := h.count_eq_one htp
      have hpo := count_pos.mpr hm
      rw [hp, count_add] at ho
      refine ⟨q, ?_, fun r hrq => ?_⟩
      · rw [hq, count_add, count_eq_zero.mpr htq]
        omega
      · by_cases hrp : r = p
        · subst hrp
          exact count_eq_zero.mp (by omega)
        · rw [hother r hrp hrq]
          exact fun hr => hrp (h.eq_of_mem hr htp)
    · have hz := count_eq_zero.mpr hm
      refine h.unique_of_count_eq ht fun r => ?_
      by_cases hrp : r = p
      · subst hrp
        rw [hp, count_add, hz, Nat.zero_add]
      by_cases hrq : r = q
      · subst hrq
        rw [hq, count_add, hz, Nat.zero_add]
      · rw [hother r hrp hrq]
  · have hk : ∀ r, ∀ t ∈ m + held r, t ∈ tokens := by
      intro r t ht
      rcases mem_add.mp ht with hmo | hh
      · exact h.known p t (hp ▸ mem_add.mpr (.inl hmo))
      · exact h.known r t hh
    intro r t ht
    by_cases hrp : r = p
    · subst hrp
      exact h.known r t (hp ▸ mem_add.mpr (.inr ht))
    by_cases hrq : r = q
    · subst hrq
      exact hk r t (hq ▸ ht)
    · exact h.known r t (hother r hrp hrq ▸ ht)

/-- **Moving a token** from one place to another. -/
theorem move {p q : P} (hpq : p ≠ q) {t : τ}
    (hp : held p = t ::ₘ held' p) (hq : held' q = t ::ₘ held q)
    (hother : ∀ r, r ≠ p → r ≠ q → held' r = held r) : ExactlyOne tokens held' :=
  h.moveAll hpq (hp.trans (singleton_add t _).symm)
    (hq.trans (singleton_add t _).symm) hother

/-- **A new token** enters at one place. -/
theorem insert {p : P} {t : τ} (ht : t ∉ tokens)
    (hp : held' p = t ::ₘ held p) (hother : ∀ q, q ≠ p → held' q = held q) :
    ExactlyOne (insert t tokens) held' := by
  have hn : ∀ q, t ∉ held q := fun q hq => ht (h.known q t hq)
  have hs : ∀ u, u ≠ t → ∀ q, (held' q).count u = (held q).count u := by
    intro u hut q
    by_cases hqp : q = p
    · subst hqp
      rw [hp, count_cons_of_ne hut]
    · rw [hother q hqp]
  constructor
  · intro u hu
    by_cases hut : u = t
    · subst hut
      refine ⟨p, ?_, fun q hqp => ?_⟩
      · rw [hp, count_cons_self, count_eq_zero.mpr (hn p)]
      · rw [hother q hqp]
        exact hn q
    · exact h.unique_of_count_eq (Set.mem_of_mem_insert_of_ne hu hut) (hs u hut)
  · intro q u hu
    by_cases hut : u = t
    · exact Set.mem_insert_iff.mpr (.inl hut)
    · rw [← count_pos, hs u hut q, count_pos] at hu
      exact Set.mem_insert_of_mem t (h.known q u hu)

end

section Gathered

variable {all : List τ} {p : P} (hall : all.Nodup) (hother : ∀ q, q ≠ p → held q = 0)

include hall hother

theorem of_gathered (hp : held p = all) : ExactlyOne {t | t ∈ all} held := by
  constructor
  · intro t ht
    refine ⟨p, ?_, fun q hq => ?_⟩
    · rw [hp, coe_count]
      exact List.count_eq_one_of_mem hall ht
    · rw [hother q hq]
      exact notMem_zero t
  · intro q t ht
    by_cases hq : q = p
    · subst hq
      rw [hp] at ht
      exact mem_coe.mp ht
    · rw [hother q hq] at ht
      exact absurd ht (notMem_zero t)

theorem eq_all_of_gathered (h : ExactlyOne {t | t ∈ all} held) : held p = all := by
  refine ext.mpr fun t => ?_
  rw [coe_count]
  by_cases ht : t ∈ all
  · obtain ⟨q, hc, -⟩ := h.unique t ht
    obtain rfl : q = p := by
      by_contra hq
      rw [hother q hq, count_zero] at hc
      exact absurd hc (by decide)
    rw [hc, List.count_eq_one_of_mem hall ht]
  · rw [List.count_eq_zero.mpr ht, count_eq_zero]
    exact fun hm => ht (h.known p t hm)

end Gathered

end ExactlyOne

end Ownership
