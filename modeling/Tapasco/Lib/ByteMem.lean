import Mathlib.Algebra.Order.Group.Nat
import Mathlib.Data.List.Basic

/-!
# Byte-Addressed Memory

A memory is a function from addresses to bytes. `writeBytes` replaces a range, and
`Holds m a l` says that the memory contains the bytes `l` from address `a` on.
-/

/-- Eight bits. -/
abbrev Byte := BitVec 8

/-- A memory of bytes. -/
abbrev ByteMem := ℕ → Byte

open List

namespace ByteMem

/-- Replace the bytes from address `a` on. -/
def writeBytes (m : ByteMem) (a : ℕ) (l : List Byte) : ByteMem := fun x =>
  if a ≤ x then l.getD (x - a) (m x) else m x

/-- The bytes from address `a` on. -/
def readBytes (m : ByteMem) (a n : ℕ) : List Byte :=
  (List.range n).map fun i => m (a + i)

/-- The memory contains the bytes from address `a` on. -/
def Holds (m : ByteMem) (a : ℕ) (l : List Byte) : Prop :=
  readBytes m a l.length = l

variable {m : ByteMem} {l : List Byte}

theorem writeBytes_of_outside {a x : ℕ} (h : x < a ∨ a + l.length ≤ x) :
    writeBytes m a l x = m x := by
  rw [writeBytes]
  split
  · rw [getD_eq_getElem?_getD, getElem?_eq_none (by omega), Option.getD_none]
  · rfl

/-- **Writing**: a range holds what was written to it. -/
theorem holds_writeBytes (m : ByteMem) (a : ℕ) (l : List Byte) : Holds (writeBytes m a l) a l := by
  refine ext_getElem (by simp [readBytes]) fun i h₁ h₂ => ?_
  simp [readBytes, writeBytes, h₂]

theorem readBytes_congr {m' : ByteMem} {a n : ℕ} (h : ∀ x, a ≤ x → x < a + n → m x = m' x) :
    readBytes m a n = readBytes m' a n := by
  refine map_congr_left fun i hi => h (a + i) (by omega) ?_
  rw [List.mem_range] at hi
  omega

/-- **Framing**: what a range holds depends on the bytes of the range only. -/
theorem Holds.congr {m' : ByteMem} {a : ℕ} (h : Holds m a l)
    (heq : ∀ x, a ≤ x → x < a + l.length → m' x = m x) : Holds m' a l :=
  (readBytes_congr heq).trans h

theorem Holds.writeBytes {a : ℕ} (h : Holds m a l) {b : ℕ} {k : List Byte}
    (hd : a + l.length ≤ b ∨ b + k.length ≤ a) : Holds (writeBytes m b k) a l :=
  h.congr fun x hl hh => writeBytes_of_outside (by omega)

@[simp] theorem writeBytes_nil (m : ByteMem) (a : ℕ) : writeBytes m a [] = m := by
  funext x
  exact writeBytes_of_outside (by simpa using lt_or_ge x a)

/-- **Writing in two parts.** -/
theorem writeBytes_append (m : ByteMem) (a : ℕ) (l k : List Byte) :
    writeBytes m a (l ++ k) = writeBytes (writeBytes m a l) (a + l.length) k := by
  funext x
  by_cases hx : a + l.length ≤ x
  · rw [writeBytes, writeBytes, if_pos (by omega), if_pos hx,
      writeBytes_of_outside (.inr hx), getD_eq_getElem?_getD, getD_eq_getElem?_getD,
      getElem?_append_right (by omega), Nat.sub_sub]
  rw [writeBytes_of_outside (m := writeBytes m a l) (.inl (by omega)), writeBytes, writeBytes]
  split
  · rw [getD_eq_getElem?_getD, getD_eq_getElem?_getD, getElem?_append_left (by omega)]
  · rfl

theorem length_readBytes (m : ByteMem) (a n : ℕ) : (readBytes m a n).length = n := by
  rw [readBytes, length_map, length_range]

/-- **Reading in two parts.** -/
theorem readBytes_add (m : ByteMem) (a n k : ℕ) :
    readBytes m a (n + k) = readBytes m a n ++ readBytes m (a + n) k := by
  rw [readBytes, range_add, map_append, map_map]
  simp only [readBytes, Function.comp_def, add_assoc]

theorem Holds.head {a : ℕ} {b : Byte} (h : Holds m a (b :: l)) : m a = b := by
  rw [Holds, length_cons, add_comm, readBytes_add] at h
  exact (List.cons.inj h).1

theorem take_readBytes (m : ByteMem) (a : ℕ) {n k : ℕ} (h : k ≤ n) :
    (readBytes m a n).take k = readBytes m a k := by
  obtain ⟨j, rfl⟩ := Nat.exists_eq_add_of_le h
  rw [readBytes_add, take_append_of_le_length (by rw [length_readBytes]),
    take_of_length_le (by rw [length_readBytes])]

end ByteMem
