import Mathlib.Data.List.Sort
import Mathlib.Data.Prod.Lex
import Tapasco.Lib.PriorityQueue

/-!
# Design Space Exploration

`Exploration.scala` looks for a composition and a frequency that can be built for a target. The
elements of the design space are put into a priority queue and composed in batches. A batch
that fails gives new elements, with lower frequencies after timing failures, and removes
others that need not be tried any more.

The model is for any compositions, frequencies and values of the heuristic. What the composer
makes of an element is a function, and the frequency that is expected to work after a timing
failure is another. All elements have the same target, so the utilization of a design, its LUTs
in percent of those available, is ordered like its number of LUTs. Areas are known for all
compositions: `start` requires this. `PriorityQueue` promises to give out an element that no
other one exceeds, and not more. The recursion of `apply` has a budget; without a result in the
budget there is none.
-/

open List

namespace Tapasco.Dse

/-! ### The design space -/

/-- Estimate of resource usage of a hardware design. -/
structure ResourcesEstimate where
  SLICE : ℕ
  LUT : ℕ
  FF : ℕ
  DSP : ℕ
  BRAM : ℕ

/-- The order of `ResourcesEstimate.compare`. -/
def ResourcesEstimate.compareKey (r : ResourcesEstimate) : ℕ ×ₗ ℕ ×ₗ ℕ ×ₗ ℕ :=
  toLex (r.LUT, toLex (r.FF, toLex (r.DSP, r.BRAM)))

/-- No resource is used more than by another design. -/
structure ResourcesEstimate.Within (r that : ResourcesEstimate) : Prop where
  SLICE : r.SLICE ≤ that.SLICE
  LUT : r.LUT ≤ that.LUT
  FF : r.FF ≤ that.FF
  DSP : r.DSP ≤ that.DSP
  BRAM : r.BRAM ≤ that.BRAM

inductive ComposeResult where
  | success | timingFailure | timeout | placerError | otherError
  deriving DecidableEq

/-- The result of a run, with the worst negative slack if there is a timing report. -/
structure Result (W : Type*) where
  result : ComposeResult
  worstNegativeSlack : Option W

/-- An element of the design space. A run is known by its element. -/
structure Element (C F H : Type*) where
  composition : C
  frequency : F
  h : H
  deriving DecidableEq

/-- The order of `Run.compare`. -/
def compareKey {C F H : Type*} (area : C → ResourcesEstimate) (e : Element C F H) : ℕ ×ₗ H ×ₗ F :=
  toLex ((area e.composition).LUT, toLex (e.h, e.frequency))

/-- What an exploration is given. -/
structure Exploration (C F H W : Type*) [LinearOrder F] [LinearOrder H] where
  compositions : List C
  feasibleFreqs : C → List F
  heuristic : C → F → H
  area : C → ResourcesEstimate
  compose : C → F → Result W
  /-- `1000.0 / ((1000.0 / frequency) - wns)`. -/
  newFrequency : F → W → F
  /-- The slack without a timing report, `-2.0`. -/
  defaultSlack : W
  /-- The lowest frequency for feedback elements, `50.0`. -/
  minFrequency : F
  batchSize : ℕ
  batchSize_pos : 0 < batchSize
  queue : Dequeue (compareKey area : Element C F H → ℕ ×ₗ H ×ₗ F)

namespace Exploration

variable {C F H W : Type*} [LinearOrder F] [LinearOrder H]

def element (ex : Exploration C F H W) (bd : C) (f : F) : Element C F H :=
  ⟨bd, f, ex.heuristic bd f⟩

def enumerate (ex : Exploration C F H W) : List (Element C F H) :=
  ((ex.compositions.flatMap fun bd => (ex.feasibleFreqs bd).map (ex.element bd)).insertionSort
    fun a b => a.h ≤ b.h).reverse

/-- How the run of an element ends. -/
def runResult (ex : Exploration C F H W) (e : Element C F H) : ComposeResult :=
  (ex.compose e.composition e.frequency).result

def Succeeds (ex : Exploration C F H W) (e : Element C F H) : Prop :=
  ex.runResult e = .success

instance (ex : Exploration C F H W) (e : Element C F H) : Decidable (ex.Succeeds e) :=
  inferInstanceAs (Decidable (_ = _))

/-! ### Batches -/

/-- Model of `createBatch`: the batch, and what is left in the queue. -/
def createBatch (ex : Exploration C F H W) (q : List (Element C F H)) :
    List (Element C F H) × List (Element C F H) :=
  ex.queue.takeMany (min ex.batchSize q.length) q

def isFirstSuccess (ex : Exploration C F H W) (batch : List (Element C F H)) : Bool :=
  (batch.head?.map fun e => decide (ex.Succeeds e)).getD false

/-- Model of `Batch.result`. -/
def batchResult (ex : Exploration C F H W) (batch : List (Element C F H)) :
    Option (Element C F H) :=
  batch.find? fun e => decide (ex.Succeeds e)

variable {ex : Exploration C F H W}

theorem batchResult_eq_some {batch : List (Element C F H)} {e : Element C F H}
    (h : ex.batchResult batch = some e) : e ∈ batch ∧ ex.Succeeds e :=
  ⟨mem_of_find?_eq_some h, by simpa using find?_some h⟩

theorem exists_batchResult {batch : List (Element C F H)} {e : Element C F H} (he : e ∈ batch)
    (hs : ex.Succeeds e) : ∃ first, ex.batchResult batch = some first := by
  rw [← Option.isSome_iff_exists, batchResult, find?_isSome]
  exact ⟨e, he, decide_eq_true hs⟩

/-! ### Results of batches -/

/-- A batch, and the queue from which elements are removed after it. -/
structure Step (C F H : Type*) where
  batch : List (Element C F H)
  queue : List (Element C F H)

/-- The result of an exploration, and what was done for it. -/
structure Outcome (C F H : Type*) where
  result : Option (Element C F H)
  steps : List (Step C F H)

/-- The better one of the result of the next batches and that of a batch. -/
def better (next result : Option (Element C F H)) : Option (Element C F H) :=
  match next with
  | none => result
  | some run =>
    match result with
    | none => some run
    | some r => if r.h < run.h then some run else some r

/-- The result of an exploration is the best one of the results of its batches. -/
structure BestOfBatches (ex : Exploration C F H W) (o : Outcome C F H) : Prop where
  none : o.result = none → ∀ s ∈ o.steps, ex.batchResult s.batch = none
  mem : ∀ r, o.result = some r → ∃ s ∈ o.steps, ex.batchResult s.batch = some r
  le : ∀ r, o.result = some r → ∀ s ∈ o.steps, ∀ f, ex.batchResult s.batch = some f → f.h ≤ r.h

theorem bestOfBatches_singleton (ex : Exploration C F H W) (s : Step C F H) :
    ex.BestOfBatches ⟨ex.batchResult s.batch, [s]⟩ where
  none h s' hs' := by
    rw [mem_singleton.mp hs']
    exact h
  mem r hr := ⟨s, mem_singleton_self s, hr⟩
  le r hr s' hs' f hf := by
    rw [mem_singleton.mp hs'] at hf
    obtain rfl : f = r := Option.mem_unique hf hr
    exact le_refl f.h

theorem bestOfBatches_some {r : Element C F H} {steps : List (Step C F H)}
    (hm : ∃ s ∈ steps, ex.batchResult s.batch = some r)
    (hle : ∀ s ∈ steps, ∀ f, ex.batchResult s.batch = some f → f.h ≤ r.h) :
    ex.BestOfBatches ⟨some r, steps⟩ :=
  ⟨nofun, fun _ hr => Option.some.inj hr ▸ hm, fun _ hr => Option.some.inj hr ▸ hle⟩

variable {o : Outcome C F H}

theorem BestOfBatches.cons (h : ex.BestOfBatches o) (s : Step C F H) :
    ex.BestOfBatches ⟨better o.result (ex.batchResult s.batch), s :: o.steps⟩ := by
  cases hn : o.result with
  | none =>
    refine ⟨fun hno s' hs' => ?_, fun r hr => ⟨s, mem_cons_self, hr⟩, fun r hr s' hs' f hf => ?_⟩
    · rcases mem_cons.mp hs' with rfl | hs'
      · exact hno
      · exact h.none hn s' hs'
    · rcases mem_cons.mp hs' with rfl | hs'
      · obtain rfl : f = r := Option.mem_unique hf hr
        exact le_refl f.h
      · rw [h.none hn s' hs'] at hf
        simp at hf
  | some run =>
    obtain ⟨s₀, hs, hru⟩ := h.mem run hn
    have hle := h.le run hn
    cases hb : ex.batchResult s.batch with
    | none =>
      refine bestOfBatches_some ⟨s₀, mem_cons_of_mem s hs, hru⟩
        (forall_mem_cons.mpr ⟨fun f hf => ?_, hle⟩)
      rw [hb] at hf
      simp at hf
    | some b =>
      simp only [better]
      split
      · rename_i hlt
        refine bestOfBatches_some ⟨s₀, mem_cons_of_mem s hs, hru⟩
          (forall_mem_cons.mpr ⟨fun f hf => ?_, hle⟩)
        obtain rfl : b = f := Option.mem_unique hb hf
        exact hlt.le
      · rename_i hnl
        refine bestOfBatches_some ⟨s, mem_cons_self, hb⟩
          (forall_mem_cons.mpr ⟨fun f hf => ?_, fun s' hs' f hf => ?_⟩)
        · obtain rfl : b = f := Option.mem_unique hb hf
          exact le_refl b.h
        · exact (hle s' hs' f hf).trans (not_lt.mp hnl)

/-- The result, if there is one, is a run that succeeded, and no run that succeeded is
better. -/
def Optimal (ex : Exploration C F H W) (o : Outcome C F H) : Prop :=
  ∀ r, o.result = some r → ex.Succeeds r ∧ (∃ s ∈ o.steps, r ∈ s.batch) ∧
    ∀ s ∈ o.steps, ∀ e ∈ s.batch, ex.Succeeds e → ¬ r.h < e.h

/-- A run that succeeds behind another one of its batch, and is better, is not better than the
first successful run of some batch. -/
def FirstIsBest (ex : Exploration C F H W) (o : Outcome C F H) : Prop :=
  ∀ s ∈ o.steps, ∀ first, ex.batchResult s.batch = some first →
    ∀ e ∈ s.batch, ex.Succeeds e → first.h < e.h →
      ∃ s' ∈ o.steps, ∃ first', ex.batchResult s'.batch = some first' ∧ e.h ≤ first'.h

/-! ### The exploration -/

variable [DecidableEq C]

/-- A run removes an element from the queue. -/
def prunes (ex : Exploration C F H W) (run r : Element C F H) : Bool :=
  match ex.runResult run with
  | .success => r.h < run.h
  | .placerError =>
    (ex.area run.composition).compareKey ≤ (ex.area r.composition).compareKey
  | .timingFailure => r.composition = run.composition ∧ run.frequency ≤ r.frequency
  | _ => false

/-- Model of `prune` for a batch. -/
def prune (ex : Exploration C F H W) (batch q : List (Element C F H)) : List (Element C F H) :=
  q.filter fun r => !batch.any fun run => ex.prunes run r

/-- Model of `generate` for a run. -/
def generateRun (ex : Exploration C F H W) (run : Element C F H) : List (Element C F H) :=
  let result := ex.compose run.composition run.frequency
  if result.result = .timingFailure then
    let wns := result.worstNegativeSlack.getD ex.defaultSlack
    let newFrequency := ex.newFrequency run.frequency wns
    if ex.minFrequency ≤ newFrequency then [ex.element run.composition newFrequency] else []
  else []

/-- Model of `generate` for a batch. -/
def generate (ex : Exploration C F H W) (batch q : List (Element C F H)) : List (Element C F H) :=
  q ++ batch.flatMap ex.generateRun

/-- Model of `apply`, with a budget. -/
def apply (ex : Exploration C F H W) : ℕ → List (Element C F H) → Option (Outcome C F H)
  | 0, _ => none
  | fuel + 1, q =>
    if q.isEmpty then some ⟨none, []⟩
    else
      let batch := (ex.createBatch q).1
      let generated := ex.generate batch (ex.createBatch q).2
      if ex.isFirstSuccess batch then some ⟨ex.batchResult batch, [⟨batch, []⟩]⟩
      else
        let step : Step C F H := ⟨batch, generated⟩
        let left := ex.prune batch generated
        if left.isEmpty ∧ (ex.batchResult batch).isSome then some ⟨ex.batchResult batch, [step]⟩
        else
          (ex.apply fuel left).map fun o =>
            ⟨better o.result (ex.batchResult batch), step :: o.steps⟩

/-- Enter an element unless the queue has one that compares as equal. -/
def enqueue (ex : Exploration C F H W) (q : List (Element C F H)) (e : Element C F H) :
    List (Element C F H) :=
  if (q.find? fun r => compareKey ex.area r = compareKey ex.area e).isNone then q ++ [e] else q

def initialQueue (ex : Exploration C F H W) : List (Element C F H) :=
  ex.enumerate.foldl ex.enqueue []

/-- Model of `start`, with a budget. -/
def start (ex : Exploration C F H W) (fuel : ℕ) : Option (Outcome C F H) :=
  ex.apply fuel ex.initialQueue

/-! ### The result -/

section Apply

variable {ex : Exploration C F H W} {fuel : ℕ} {q : List (Element C F H)} {o : Outcome C F H}

theorem apply_cases (h : ex.apply (fuel + 1) q = some o) :
    (q = [] ∧ o = ⟨none, []⟩) ∨
    (q ≠ [] ∧ ex.isFirstSuccess (ex.createBatch q).1 = true ∧
      o = ⟨ex.batchResult (ex.createBatch q).1, [⟨(ex.createBatch q).1, []⟩]⟩) ∨
    (q ≠ [] ∧ (ex.batchResult (ex.createBatch q).1).isSome ∧
      o = ⟨ex.batchResult (ex.createBatch q).1,
        [⟨(ex.createBatch q).1, ex.generate (ex.createBatch q).1 (ex.createBatch q).2⟩]⟩) ∨
    (q ≠ [] ∧ ∃ o', ex.apply fuel (ex.prune (ex.createBatch q).1
        (ex.generate (ex.createBatch q).1 (ex.createBatch q).2)) = some o' ∧
      o = ⟨better o'.result (ex.batchResult (ex.createBatch q).1),
        ⟨(ex.createBatch q).1, ex.generate (ex.createBatch q).1 (ex.createBatch q).2⟩ ::
          o'.steps⟩) := by
  rw [apply] at h
  split at h
  · rename_i he
    exact .inl ⟨List.isEmpty_iff.mp he, (Option.some.inj h).symm⟩
  · rename_i he
    have hq : q ≠ [] := fun hq => he (List.isEmpty_iff.mpr hq)
    dsimp only at h
    split at h
    · rename_i hf
      exact .inr (.inl ⟨hq, hf, (Option.some.inj h).symm⟩)
    · split at h
      · rename_i hs
        exact .inr (.inr (.inl ⟨hq, hs.2, (Option.some.inj h).symm⟩))
      · obtain ⟨o', ho', rfl⟩ := Option.map_eq_some_iff.mp h
        exact .inr (.inr (.inr ⟨hq, o', ho', rfl⟩))

end Apply

/-- **The result of an exploration** is the best one of the results of its batches. -/
theorem bestOfBatches_of_apply {fuel : ℕ} {q : List (Element C F H)}
    (h : ex.apply fuel q = some o) : ex.BestOfBatches o := by
  induction fuel generalizing q o with
  | zero => exact absurd h (by simp [apply])
  | succ fuel ih =>
    rcases apply_cases h with ⟨-, rfl⟩ | ⟨-, -, rfl⟩ | ⟨-, -, rfl⟩ | ⟨-, o', ho', rfl⟩
    · exact ⟨fun _ s hs => absurd hs not_mem_nil, fun r hr => absurd hr (by simp),
        fun r hr => absurd hr (by simp)⟩
    · exact bestOfBatches_singleton ex ⟨_, _⟩
    · exact bestOfBatches_singleton ex ⟨_, _⟩
    · exact (ih ho').cons ⟨_, _⟩

/-! ### Optimality -/

/-- **Optimality** of an exploration that returns. -/
theorem optimal_iff {ex : Exploration C F H W} {fuel : ℕ} {o : Outcome C F H}
    (h : ex.start fuel = some o) : ex.Optimal o ↔ ex.FirstIsBest o := by
  have hbest := bestOfBatches_of_apply h
  constructor
  · intro hopt s hs first hfirst e he hsucc _
    cases hresult : o.result with
    | none => exact absurd hfirst (by rw [hbest.none hresult s hs]; simp)
    | some r =>
      obtain ⟨s', hs', hr⟩ := hbest.mem r hresult
      exact ⟨s', hs', r, hr, not_lt.mp ((hopt r hresult).2.2 s hs e he hsucc)⟩
  · intro hfirst r hresult
    obtain ⟨s', hs', hr⟩ := hbest.mem r hresult
    refine ⟨(batchResult_eq_some hr).2, ⟨s', hs', (batchResult_eq_some hr).1⟩, ?_⟩
    intro s hs e he hsucc hlt
    obtain ⟨first, hf⟩ := exists_batchResult he hsucc
    have hle := hbest.le r hresult s hs first hf
    obtain ⟨s'', hs'', first', hf', hle'⟩ := hfirst s hs first hf e he hsucc (hle.trans_lt hlt)
    exact absurd (hlt.trans_le (hle'.trans (hbest.le r hresult s'' hs'' first' hf')))
      (lt_irrefl r.h)

theorem length_batch_le {fuel : ℕ} {q : List (Element C F H)} (h : ex.apply fuel q = some o) :
    ∀ s ∈ o.steps, s.batch.length ≤ ex.batchSize := by
  have hb (q : List (Element C F H)) : (ex.createBatch q).1.length ≤ ex.batchSize :=
    (ex.queue.length_takeMany_le _ q).trans (min_le_left _ _)
  induction fuel generalizing q o with
  | zero => exact absurd h (by simp [apply])
  | succ fuel ih =>
    rcases apply_cases h with ⟨-, rfl⟩ | ⟨-, -, rfl⟩ | ⟨-, -, rfl⟩ | ⟨-, o', ho', rfl⟩
    · exact fun s hs => absurd hs not_mem_nil
    · exact fun s hs => mem_singleton.mp hs ▸ hb q
    · exact fun s hs => mem_singleton.mp hs ▸ hb q
    · intro s hs
      rcases mem_cons.mp hs with rfl | hs
      · exact hb q
      · exact ih ho' s hs

theorem firstIsBest_of_batchSize_eq_one (ho : ex.batchSize = 1) {fuel : ℕ}
    (h : ex.start fuel = some o) : ex.FirstIsBest o := by
  intro s hs first hf e he _ hlt
  have hl := ho ▸ length_batch_le h s hs
  obtain ⟨a, ha⟩ : ∃ a, s.batch = [a] := length_eq_one_iff.mp
    (le_antisymm hl (length_pos_of_mem he))
  have hm := (batchResult_eq_some hf).1
  rw [ha, mem_singleton] at he hm
  rw [he, hm] at hlt
  exact absurd hlt (lt_irrefl a.h)

/-- Two designs that can be built, the larger one with the lower heuristic value, in batches of
some size. -/
def twoDesigns (batchSize : ℕ) (h : 0 < batchSize) : Exploration Bool ℕ ℕ ℕ where
  compositions := [false, true]
  feasibleFreqs _ := [100]
  heuristic c _ := if c then 20 else 10
  area c := if c then ⟨10, 40, 0, 0, 0⟩ else ⟨10, 50, 0, 0, 0⟩
  compose _ _ := ⟨.success, none⟩
  newFrequency f _ := f - 1
  defaultSlack := 0
  minFrequency := 50
  batchSize := batchSize
  batchSize_pos := h
  queue := Dequeue.maxFirst _

theorem optimal_iff_batches_of_one : ∃ o, (twoDesigns 1 (by decide)).start 1 = some o ∧
    o.result = some ⟨false, 100, 10⟩ ∧ (twoDesigns 1 (by decide)).Optimal o := by
  obtain ⟨o, ho, hresult⟩ : ∃ o, (twoDesigns 1 (by decide)).start 1 = some o ∧
      o.result = some ⟨false, 100, 10⟩ := ⟨_, rfl, by decide⟩
  exact ⟨o, ho, hresult, (optimal_iff ho).mpr (firstIsBest_of_batchSize_eq_one rfl ho)⟩

/-- Both designs are built, and the one with the lower value is the result. -/
theorem second_of_batch_is_better : ∃ o, (twoDesigns 2 (by decide)).start 1 = some o ∧
    o.result = some ⟨false, 100, 10⟩ ∧ (∃ s ∈ o.steps, ⟨true, 100, 20⟩ ∈ s.batch) ∧
    (twoDesigns 2 (by decide)).Succeeds ⟨true, 100, 20⟩ ∧
    ¬ (twoDesigns 2 (by decide)).Optimal o := by
  refine ⟨_, rfl, by decide, ⟨_, mem_singleton_self _, by decide⟩, rfl, fun hopt => ?_⟩
  exact (hopt ⟨false, 100, 10⟩ (by decide)).2.2 _ (mem_singleton_self _) ⟨true, 100, 20⟩
    (by decide) rfl (by decide)

end Exploration

end Tapasco.Dse
