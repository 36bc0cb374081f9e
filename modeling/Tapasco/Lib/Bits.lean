import Mathlib.Data.List.Range

/-!
# The Set Bits of a Word

A loop over the set bits of a word finds the lowest one (`ffs`), handles it, and clears
it by an exclusive or. `setBits` is the list of positions such a loop visits.
-/

open List

namespace Bits

variable {n : ℕ}

/-- The positions of the set bits, in ascending order. -/
def setBits (w : BitVec n) : List ℕ :=
  (List.range n).filter fun i => w.getLsbD i

/-- One plus the position of the lowest set bit, or zero if there is none. -/
def ffs (w : BitVec n) : ℕ :=
  match (List.range n).find? fun i => w.getLsbD i with
  | some i => i + 1
  | none => 0

theorem mem_setBits {w : BitVec n} {i : ℕ} : i ∈ setBits w ↔ w.getLsbD i = true := by
  rw [setBits, mem_filter, List.mem_range]
  exact and_iff_right_of_imp BitVec.lt_of_getLsbD

theorem setBits_pairwise (w : BitVec n) : (setBits w).Pairwise (· < ·) :=
  pairwise_lt_range.sublist filter_sublist

theorem length_setBits_le (w : BitVec n) : (setBits w).length ≤ n :=
  (length_filter_le _ _).trans (length_range).le

theorem setBits_eq_nil_iff {w : BitVec n} : setBits w = [] ↔ w = 0#n := by
  constructor
  · intro h
    refine BitVec.eq_of_getLsbD_eq fun i _ => ?_
    rw [BitVec.getLsbD_zero, ← Bool.not_eq_true, ← mem_setBits, h]
    exact not_mem_nil
  · rintro rfl
    refine eq_nil_iff_forall_not_mem.mpr fun i hi => ?_
    rw [mem_setBits, BitVec.getLsbD_zero] at hi
    exact Bool.false_ne_true hi

theorem getLsbD_xor_shiftLeft (w : BitVec n) {i j : ℕ} (hi : i < n) :
    (w ^^^ 1#n <<< i).getLsbD j = (w.getLsbD j ^^ decide (j = i)) := by
  rw [BitVec.getLsbD_xor, BitVec.getLsbD_shiftLeft, BitVec.getLsbD_one]
  congr 1
  by_cases h : j = i
  · subst h
    simp [hi]
    omega
  · simp [h]
    omega

/-- **Clearing the lowest set bit** removes the head of the list of set bits. -/
theorem setBits_eq_cons {w : BitVec n} (hw : w ≠ 0#n) :
    setBits w = (ffs w - 1) :: setBits (w ^^^ 1#n <<< (ffs w - 1)) := by
  cases hfi : (List.range n).find? fun i => w.getLsbD i with
  | none =>
    refine absurd (setBits_eq_nil_iff.mp ?_) hw
    rw [setBits, filter_eq_nil_iff]
    exact fun i hi => find?_eq_none.mp hfi i hi
  | some i =>
    have hf : ffs w - 1 = i := by rw [ffs, hfi]; rfl
    obtain ⟨hs, pre, post, hr, hp⟩ := find?_eq_some_iff_append.mp hfi
    have hn : (List.range n).Nodup := nodup_range
    have hin : i < n := BitVec.lt_of_getLsbD hs
    rw [hr, nodup_append, nodup_cons] at hn
    obtain ⟨-, ⟨hpo, -⟩, hd⟩ := hn
    have hfl : ∀ j, j ≠ i → (w ^^^ 1#n <<< i).getLsbD j = w.getLsbD j := fun j hj => by
      rw [getLsbD_xor_shiftLeft w hin, decide_eq_false hj, Bool.xor_false]
    have hb : ∀ j ∈ pre, ¬ w.getLsbD j = true := fun j hj => by
      simpa using hp j hj
    have ha : (post.filter fun j => (w ^^^ 1#n <<< i).getLsbD j) =
        post.filter fun j => w.getLsbD j :=
      filter_congr fun j hj => hfl j fun h => hpo (h ▸ hj)
    have hb' : ∀ j ∈ pre, ¬ (w ^^^ 1#n <<< i).getLsbD j = true := fun j hj => by
      rw [hfl j (hd j hj i mem_cons_self)]
      exact hb j hj
    have hc : ¬ (w ^^^ 1#n <<< i).getLsbD i = true := by
      rw [getLsbD_xor_shiftLeft w hin, hs, decide_eq_true rfl]
      exact Bool.false_ne_true
    rw [hf, setBits, setBits, hr, filter_append, filter_append,
      filter_cons_of_pos hs, filter_cons_of_neg hc, ha,
      filter_eq_nil_iff.mpr hb, filter_eq_nil_iff.mpr hb']
    rfl

end Bits
