import Mathlib.Data.List.Basic

/-!
# Runs of a Step Function

A system is a total step function `step : σ → α → σ`: the state after one action. A
run is a list of actions, and nondeterminism (which thread moves, what the environment
answers) is part of the actions. An action that is not enabled leaves the state as it
is, so every list of actions is a run.
-/

namespace Runs

variable {σ α : Type*} (step : σ → α → σ)

/-- The state after a list of actions. -/
def run (s : σ) (as : List α) : σ :=
  as.foldl step s

@[simp] theorem run_nil (s : σ) : run step s [] = s := rfl

@[simp] theorem run_cons (s : σ) (a : α) (as : List α) :
    run step s (a :: as) = run step (step s a) as := rfl

/-- All states a run passes through, the first and the last included. -/
def trace : σ → List α → List σ
  | s, [] => [s]
  | s, a :: as => s :: trace (step s a) as

/-- Every step of the run meets the condition in the state it is taken from. -/
def AllSteps (ok : σ → α → Prop) : σ → List α → Prop
  | _, [] => True
  | s, a :: as => ok s a ∧ AllSteps ok (step s a) as

instance decidableAllSteps {ok : σ → α → Prop} [∀ s a, Decidable (ok s a)] :
    (s : σ) → (as : List α) → Decidable (AllSteps step ok s as)
  | _, [] => instDecidableTrue
  | s, a :: as =>
    have : Decidable (AllSteps step ok (step s a) as) := decidableAllSteps (step s a) as
    inferInstanceAs (Decidable (_ ∧ _))

variable {step}

variable {P : σ → Prop}

/-- **Invariants of runs**: what every step preserves holds after every run. -/
theorem run_invariant (hst : ∀ s a, P s → P (step s a)) {s : σ} (hs : P s) (as : List α) :
    P (run step s as) := by
  induction as generalizing s with
  | nil => exact hs
  | cons a as ih => exact ih (hst s a hs)

/-- What all steps of a run preserve holds in every state it passes through. -/
theorem forall_mem_trace_of {ok : σ → α → Prop} (hst : ∀ s a, P s → ok s a → P (step s a)) {s : σ}
    (hs : P s) {as : List α} (hok : AllSteps step ok s as) : ∀ t ∈ trace step s as, P t := by
  induction as generalizing s with
  | nil => simpa [trace] using hs
  | cons a as ih => exact List.forall_mem_cons.mpr ⟨hs, ih (hst s a hs hok.1) hok.2⟩

theorem forall_mem_trace (hst : ∀ s a, P s → P (step s a)) {s : σ} (hs : P s) (as : List α) :
    ∀ t ∈ trace step s as, P t := by
  induction as generalizing s with
  | nil => simpa [trace] using hs
  | cons a as ih => exact List.forall_mem_cons.mpr ⟨hs, ih (hst s a hs)⟩

theorem run_mem_trace (s : σ) (as : List α) : run step s as ∈ trace step s as := by
  induction as generalizing s with
  | nil => exact List.mem_singleton_self s
  | cons a as ih => exact List.mem_cons_of_mem s (ih (step s a))

theorem allSteps_of_forall_mem {p : α → Prop} (s : σ) {as : List α}
    (h : ∀ a ∈ as, p a) : AllSteps step (fun _ a => p a) s as := by
  induction as generalizing s with
  | nil => trivial
  | cons a as ih =>
    rw [List.forall_mem_cons] at h
    exact ⟨h.1, ih _ h.2⟩

/-- **Exact conditions**: a property that holds at the start, and that survives a step exactly when
the step meets `ok`, holds throughout a run exactly when every step meets `ok`. The invariant `I`
may be used. -/
theorem forall_mem_trace_iff {I : σ → Prop} {ok : σ → α → Prop} (hI : ∀ s a, I s → I (step s a))
    (hP : ∀ s a, I s → P s → (P (step s a) ↔ ok s a)) {s : σ} (hs : I s) (hPs : P s) (as : List α) :
    (∀ t ∈ trace step s as, P t) ↔ AllSteps step ok s as := by
  induction as generalizing s with
  | nil => simpa [trace, AllSteps] using hPs
  | cons a as ih =>
    have hst := hP s a hs hPs
    rw [trace, AllSteps, List.forall_mem_cons]
    constructor
    · rintro ⟨-, ha⟩
      have hn : P (step s a) := ha _ (by cases as <;> simp [trace])
      exact ⟨hst.mp hn, (ih (hI s a hs) hn).mp ha⟩
    · rintro ⟨hok, ha⟩
      exact ⟨hPs, (ih (hI s a hs) (hst.mpr hok)).mpr ha⟩

/-- Exact conditions where steps have to satisfy something too: if under the invariant `J` a step is
right and leads to `P` exactly when it meets `ok`, and then keeps the invariant, a run is right
throughout exactly when every step meets `ok`. -/
theorem trace_and_steps_iff {J : σ → Prop} {R ok : σ → α → Prop} (hJP : ∀ s, J s → P s)
    (hJ : ∀ s a, J s → ok s a → J (step s a)) (hok : ∀ s a, J s → (P (step s a) ∧ R s a ↔ ok s a))
    {s : σ} (hs : J s) (as : List α) :
    (∀ t ∈ trace step s as, P t) ∧ AllSteps step R s as ↔ AllSteps step ok s as := by
  induction as generalizing s with
  | nil => simpa [trace, AllSteps] using hJP s hs
  | cons a as ih =>
    rw [trace, AllSteps, AllSteps, List.forall_mem_cons]
    constructor
    · rintro ⟨⟨-, ha⟩, hR, hr⟩
      have hn : P (step s a) := ha _ (by cases as <;> simp [trace])
      have hm := (hok s a hs).mp ⟨hn, hR⟩
      exact ⟨hm, (ih (hJ s a hs hm)).mp ⟨ha, hr⟩⟩
    · rintro ⟨hm, hr⟩
      obtain ⟨ha, hR⟩ := (ih (hJ s a hs hm)).mpr hr
      exact ⟨⟨hJP s hs, ha⟩, ((hok s a hs).mpr hm).2, hR⟩

end Runs
