import Mathlib.Data.Nat.Bitwise

/-!
# Wrapping 64-bit Arithmetic

Machine words of 64 bits are natural numbers here, and the operations of unchecked machine
arithmetic are written out with their reduction modulo `2 ^ 64`. Each operation comes with the lemma
that removes the reduction where the exact result fits the word.
-/

namespace Word64

/-- The sum of two words. -/
def wrappingAdd (a b : ℕ) : ℕ :=
  (a + b) % 2 ^ 64

/-- The difference of two words. -/
def wrappingSub (a b : ℕ) : ℕ :=
  (a + (2 ^ 64 - b)) % 2 ^ 64

/-- All bits of a word inverted. -/
def complement (a : ℕ) : ℕ :=
  2 ^ 64 - 1 - a

/-- A sum that fits the word is exact. -/
theorem wrappingAdd_of_lt {a b : ℕ} (h : a + b < 2 ^ 64) : wrappingAdd a b = a + b :=
  Nat.mod_eq_of_lt h

/-- A difference that is not negative is exact. -/
theorem wrappingSub_of_le {a b : ℕ} (hba : b ≤ a) (hb : b ≤ 2 ^ 64)
    (hfit : a - b < 2 ^ 64) : wrappingSub a b = a - b := by
  rw [wrappingSub]
  omega

/-- A common summand does not change a difference, also if the sums wrap. -/
theorem wrappingSub_wrappingAdd {a b : ℕ} (c : ℕ) (hb : b < 2 ^ 64) :
    wrappingSub (wrappingAdd c a) (wrappingAdd c b) = wrappingSub a b := by
  simp only [wrappingSub, wrappingAdd]
  omega

/-- A word is the sum of its bits inside and outside a mask. -/
theorem and_add_and_complement {x m : ℕ} (hx : x < 2 ^ 64) (hm : m < 2 ^ 64) :
    (x &&& m) + (x &&& complement m) = x := by
  have hb : (BitVec.ofNat 64 x &&& BitVec.ofNat 64 m) +
      (BitVec.ofNat 64 x &&& ~~~BitVec.ofNat 64 m) = BitVec.ofNat 64 x := by
    rw [BitVec.add_eq_or_of_and_eq_zero]
    · ext i hi
      simp only [BitVec.getElem_or, BitVec.getElem_and, BitVec.getElem_not]
      cases (BitVec.ofNat 64 x)[i] <;> cases (BitVec.ofNat 64 m)[i] <;> rfl
    · ext i hi
      simp only [BitVec.getElem_and, BitVec.getElem_not, BitVec.getElem_zero]
      cases (BitVec.ofNat 64 x)[i] <;> cases (BitVec.ofNat 64 m)[i] <;> rfl
  have h := congrArg BitVec.toNat hb
  simp only [BitVec.toNat_add, BitVec.toNat_and, BitVec.toNat_not, BitVec.toNat_ofNat,
    Nat.mod_eq_of_lt hx, Nat.mod_eq_of_lt hm] at h
  have h₁ : x &&& m ≤ m := Nat.and_le_right
  have h₂ : x &&& (2 ^ 64 - 1 - m) ≤ 2 ^ 64 - 1 - m := Nat.and_le_right
  rw [complement]
  omega

/-- Clearing the low bits of a word leaves the greatest multiple that is not above it. -/
theorem and_complement_two_pow {x k : ℕ} (hx : x < 2 ^ 64) (hk : k ≤ 64) :
    x &&& complement (2 ^ k - 1) = x / 2 ^ k * 2 ^ k := by
  have hp : 2 ^ k ≤ 2 ^ 64 := Nat.pow_le_pow_right (by omega) hk
  have hs := and_add_and_complement (m := 2 ^ k - 1) hx (by omega)
  rw [Nat.and_two_pow_sub_one_eq_mod] at hs
  have hd := Nat.div_add_mod' x (2 ^ k)
  omega

/-- Rounding up with the mask `alignment - 1`: add the mask, then clear its bits. -/
def alignUp (x alignment : ℕ) : ℕ :=
  wrappingAdd x (wrappingSub alignment 1) &&& complement (wrappingSub alignment 1)

section

variable {x alignment : ℕ} (hpos : 0 < alignment) (hfit : x + (alignment - 1) < 2 ^ 64)

include hpos hfit

/-- Rounding up clears the bits of the mask and changes nothing else. -/
theorem alignUp_add_and : (x + (alignment - 1) &&& alignment - 1) + alignUp x alignment =
    x + (alignment - 1) := by
  have hs : wrappingSub alignment 1 = alignment - 1 := wrappingSub_of_le hpos (by omega) (by omega)
  rw [alignUp, hs, wrappingAdd_of_lt hfit]
  exact and_add_and_complement hfit (by omega)

/-- Rounding up does not make a value smaller where the sum fits. -/
theorem le_alignUp : x ≤ alignUp x alignment := by
  have hs := alignUp_add_and hpos hfit
  have ha : x + (alignment - 1) &&& alignment - 1 ≤ alignment - 1 := Nat.and_le_right
  omega

end

section

variable {k : ℕ} (hk : k < 64)

include hk

/-- The mask of a power of two. -/
theorem wrappingSub_two_pow_one : wrappingSub (2 ^ k) 1 = 2 ^ k - 1 := by
  have hpos : 0 < 2 ^ k := Nat.two_pow_pos k
  have hp : 2 ^ k < 2 ^ 64 := Nat.pow_lt_pow_right (by omega) hk
  exact wrappingSub_of_le hpos (by omega) (by omega)

/-- Rounding up to a power of two, as a division. -/
theorem alignUp_two_pow (x : ℕ) :
    alignUp x (2 ^ k) = wrappingAdd x (2 ^ k - 1) / 2 ^ k * 2 ^ k := by
  rw [alignUp, wrappingSub_two_pow_one hk]
  exact and_complement_two_pow (Nat.mod_lt _ (by omega)) (by omega)

/-- The result is aligned, also if the sum wraps. -/
theorem dvd_alignUp (x : ℕ) : 2 ^ k ∣ alignUp x (2 ^ k) := by
  rw [alignUp_two_pow hk]
  exact dvd_mul_left _ _

/-- A sum of aligned words is aligned, also if it wraps. -/
theorem dvd_wrappingAdd {a b : ℕ} (ha : 2 ^ k ∣ a) (hb : 2 ^ k ∣ b) : 2 ^ k ∣ wrappingAdd a b :=
  (Nat.dvd_mod_iff (Nat.pow_dvd_pow 2 (le_of_lt hk))).mpr (Nat.dvd_add ha hb)

end

/-- A value that is too large to be rounded up becomes smaller. -/
theorem alignUp_lt {x alignment : ℕ} (hx : x < 2 ^ 64) (hpos : 0 < alignment)
    (hal : alignment < 2 ^ 64) (hw : 2 ^ 64 ≤ x + (alignment - 1)) : alignUp x alignment < x := by
  have hs : wrappingSub alignment 1 = alignment - 1 := wrappingSub_of_le hpos (by omega) (by omega)
  have hle : alignUp x alignment ≤ wrappingAdd x (alignment - 1) := by
    rw [alignUp, hs]
    exact Nat.and_le_left
  have ha : wrappingAdd x (alignment - 1) = x + (alignment - 1) - 2 ^ 64 := by
    rw [wrappingAdd]
    omega
  omega

end Word64
