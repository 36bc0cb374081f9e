import Mathlib.Order.WellFounded

/-!
# Progress under Fair Schedules

An infinite schedule of actions is fair if every action recurs in it. To show that a system
reaches a goal under every fair schedule, give each state a rank and the action that helps
there: this action reaches the goal or lowers the rank, and every other action does so too, or
changes neither the rank nor the action that helps.
-/

namespace Progress

variable {σ α : Type*} (step : σ → α → σ)

/-- The state after `n` actions of a schedule. -/
def state (s : σ) (sched : ℕ → α) : ℕ → σ
  | 0 => s
  | n + 1 => step (state s sched n) (sched n)

/-- Every action recurs. -/
def Fair (sched : ℕ → α) : Prop :=
  ∀ a n, ∃ m, n ≤ m ∧ sched m = a

variable {step} {β : Type*} [Preorder β] {goal : σ → Prop} {rank : σ → β} {helpful : σ → α}

/-- An action reaches the goal, or lowers the rank, or is not the one that helps and leaves
this action and the rank as they are. -/
def Advances (step : σ → α → σ) (goal : σ → Prop) (rank : σ → β) (helpful : σ → α) (s : σ)
    (a : α) : Prop :=
  goal (step s a) ∨ rank (step s a) < rank s ∨
    a ≠ helpful s ∧ rank (step s a) = rank s ∧ helpful (step s a) = helpful s

theorem state_invariant {I : σ → Prop} (hI : ∀ s a, I s → I (step s a)) {s : σ} (hs : I s)
    (sched : ℕ → α) (n : ℕ) : I (state step s sched n) := by
  induction n with
  | zero => exact hs
  | succ n ih => exact hI _ _ ih

section

variable (rank helpful) {I : σ → Prop} (hI : ∀ s a, I s → I (step s a))
  (hadvances : ∀ s a, I s → ¬ goal s → Advances step goal rank helpful s a)

include hI hadvances

/-- Until the action that helps is taken, the goal is reached, or the rank is lowered, or
nothing changes. -/
theorem waiting {s : σ} (hs : I s) (sched : ℕ → α) (n k : ℕ) :
    (∃ m, goal (state step s sched m)) ∨
      (∃ m, rank (state step s sched m) < rank (state step s sched n)) ∨
      rank (state step s sched (n + k)) = rank (state step s sched n) ∧
        helpful (state step s sched (n + k)) = helpful (state step s sched n) := by
  induction k with
  | zero => exact .inr (.inr ⟨rfl, rfl⟩)
  | succ k ih =>
    obtain hg | hl | ⟨hr, hh⟩ := ih
    · exact .inl hg
    · exact .inr (.inl hl)
    by_cases hg : goal (state step s sched (n + k))
    · exact .inl ⟨n + k, hg⟩
    obtain hn | hl | ⟨-, hr', hh'⟩ :=
      hadvances _ (sched (n + k)) (state_invariant hI hs sched (n + k)) hg
    · exact .inl ⟨n + k + 1, hn⟩
    · exact .inr (.inl ⟨n + k + 1, hr ▸ hl⟩)
    · exact .inr (.inr ⟨hr'.trans hr, hh'.trans hh⟩)

/-- **Progress**: under a fair schedule the goal is reached. -/
theorem eventually_of_rank [WellFoundedLT β] {s : σ} (hs : I s) {sched : ℕ → α}
    (hf : Fair sched) : ∃ n, goal (state step s sched n) := by
  -- from every time on, by induction on the rank at this time
  suffices h : ∀ r n, rank (state step s sched n) = r → ∃ m, goal (state step s sched m) from
    h _ 0 rfl
  intro r
  induction r using WellFoundedLT.induction with
  | ind r ih =>
    rintro n rfl
    by_cases hg : goal (state step s sched n)
    · exact ⟨n, hg⟩
    obtain ⟨m, hnm, hm⟩ := hf (helpful (state step s sched n)) n
    obtain ⟨k, rfl⟩ := Nat.exists_eq_add_of_le hnm
    obtain hre | ⟨i, hl⟩ | ⟨hr, hh⟩ := waiting rank helpful hI hadvances hs sched n k
    · exact hre
    · exact ih _ hl i rfl
    by_cases hg' : goal (state step s sched (n + k))
    · exact ⟨n + k, hg'⟩
    obtain hn | hl | ⟨hne, -⟩ :=
      hadvances _ (sched (n + k)) (state_invariant hI hs sched (n + k)) hg'
    · exact ⟨n + k + 1, hn⟩
    · exact ih _ (hr ▸ hl) (n + k + 1) rfl
    · exact absurd (hm.trans hh.symm) hne

end

end Progress
