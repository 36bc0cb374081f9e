import Mathlib.Order.Lattice

/-!
# Priority Queues

A priority queue as a list of its elements, in no particular order, and a way to take out an
element with the greatest key. Which of several such elements comes first is left open.
-/

/-- A way to take an element with the greatest key out of a queue. -/
structure Dequeue {α κ : Type*} [LinearOrder κ] (key : α → κ) where
  dequeue : List α → Option (α × List α)
  isSome : ∀ q, q ≠ [] → ∃ a rest, dequeue q = some (a, rest)
  perm : ∀ q a rest, dequeue q = some (a, rest) → (a :: rest).Perm q
  max : ∀ q a rest, dequeue q = some (a, rest) → ∀ b ∈ rest, key b ≤ key a

namespace Dequeue

variable {α κ : Type*} [LinearOrder κ] {key : α → κ}

/-- Take out several elements, one after the other. -/
def takeMany (d : Dequeue key) : ℕ → List α → List α × List α
  | 0, q => ([], q)
  | n + 1, q =>
    match d.dequeue q with
    | none => ([], q)
    | some (a, rest) => (a :: (d.takeMany n rest).1, (d.takeMany n rest).2)

/-- **No element is lost.** -/
theorem perm_takeMany (d : Dequeue key) (n : ℕ) (q : List α) :
    ((d.takeMany n q).1 ++ (d.takeMany n q).2).Perm q := by
  induction n generalizing q with
  | zero => exact List.Perm.refl q
  | succ n ih =>
    rw [takeMany]
    cases hd : d.dequeue q with
    | none => exact List.Perm.refl q
    | some x => exact ((ih x.2).cons x.1).trans (d.perm q x.1 x.2 hd)

theorem length_takeMany_le (d : Dequeue key) (n : ℕ) (q : List α) :
    (d.takeMany n q).1.length ≤ n := by
  induction n generalizing q with
  | zero => exact le_refl 0
  | succ n ih =>
    rw [takeMany]
    cases d.dequeue q with
    | none => exact Nat.zero_le _
    | some x => exact Nat.succ_le_succ (ih x.2)

theorem takeMany_ne_nil (d : Dequeue key) {n : ℕ} (hn : 0 < n) {q : List α} (hq : q ≠ []) :
    (d.takeMany n q).1 ≠ [] := by
  obtain ⟨n, rfl⟩ : ∃ m, n = m + 1 := ⟨n - 1, by omega⟩
  obtain ⟨a, rest, hd⟩ := d.isSome q hq
  simp only [takeMany, hd]
  exact List.cons_ne_nil _ _

/-- Take the first of the greatest elements of a list. -/
def takeMax (key : α → κ) : List α → Option (α × List α)
  | [] => none
  | a :: l =>
    match takeMax key l with
    | none => some (a, [])
    | some (b, rest) => if key b ≤ key a then some (a, l) else some (b, a :: rest)

theorem takeMax_isSome {q : List α} (hq : q ≠ []) : ∃ a rest, takeMax key q = some (a, rest) := by
  cases q with
  | nil => exact absurd rfl hq
  | cons x l =>
    rw [takeMax]
    cases takeMax key l with
    | none => exact ⟨x, [], rfl⟩
    | some y =>
      dsimp only
      split
      · exact ⟨x, l, rfl⟩
      · exact ⟨y.1, x :: y.2, rfl⟩

theorem takeMax_spec {q : List α} {a : α} {rest : List α} (h : takeMax key q = some (a, rest)) :
    (a :: rest).Perm q ∧ ∀ b ∈ rest, key b ≤ key a := by
  induction q generalizing a rest with
  | nil => simp [takeMax] at h
  | cons x l ih =>
    rw [takeMax] at h
    cases hl : takeMax key l with
    | none =>
      obtain rfl : l = [] := by
        by_contra hne
        obtain ⟨b, rest', hs⟩ := @takeMax_isSome _ _ _ key _ hne
        rw [hl] at hs
        simp at hs
      obtain ⟨rfl, rfl⟩ : x = a ∧ [] = rest := by simpa [hl] using h
      exact ⟨List.Perm.refl [x], fun b hb => absurd hb List.not_mem_nil⟩
    | some y =>
      obtain ⟨hp, hm⟩ := ih hl
      rw [hl] at h
      dsimp only at h
      split at h
      · rename_i hle
        obtain ⟨rfl, rfl⟩ : x = a ∧ l = rest := by simpa using h
        refine ⟨List.Perm.refl _, fun b hb => ?_⟩
        rcases List.mem_cons.mp (hp.mem_iff.mpr hb) with rfl | hb
        · exact hle
        · exact (hm b hb).trans hle
      · rename_i hlt
        obtain ⟨rfl, rfl⟩ : y.1 = a ∧ x :: y.2 = rest := by simpa using h
        refine ⟨(List.Perm.swap x y.1 y.2).trans (hp.cons x), fun b hb => ?_⟩
        rcases List.mem_cons.mp hb with rfl | hb
        · exact (le_of_not_ge hlt)
        · exact hm b hb

/-- **A queue** that takes the first of the greatest elements. -/
def maxFirst (key : α → κ) : Dequeue key where
  dequeue := takeMax key
  isSome _ hq := takeMax_isSome hq
  perm _ _ _ h := (takeMax_spec h).1
  max _ _ _ h := (takeMax_spec h).2

end Dequeue
