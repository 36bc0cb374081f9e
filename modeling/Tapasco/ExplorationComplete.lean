import Mathlib.Data.Multiset.DershowitzManna
import Tapasco.Exploration

/-!
# Completeness of the Design Space Exploration

Whether an exploration finds a design if there is one. Elements are discarded in three places.
`start` drops an element if the queue has one with the same utilization, heuristic value and
frequency, which may have another composition. After a placer error, elements with a larger
area are removed, where areas are compared lexicographically. After a timing failure, elements
with the same composition and no lower frequency are removed.

There is no endless falling sequence of frequencies, as there is none of floating-point numbers, so
every exploration ends.
-/

open List

namespace Tapasco.Dse.Exploration

section Frequencies

variable {C F H : Type*}

def frequencies (q : List (Element C F H)) : Multiset F :=
  ↑(q.map Element.frequency)

theorem frequencies_append (q q' : List (Element C F H)) :
    frequencies (q ++ q') = frequencies q + frequencies q' := by
  rw [frequencies, map_append, ← Multiset.coe_add]
  rfl

theorem frequencies_perm {q q' : List (Element C F H)} (h : q.Perm q') :
    frequencies q = frequencies q' :=
  Multiset.coe_eq_coe.mpr (h.map _)

theorem mem_frequencies {q : List (Element C F H)} {e : Element C F H} (he : e ∈ q) :
    e.frequency ∈ frequencies q :=
  Multiset.mem_coe.mpr (mem_map_of_mem he)

end Frequencies

variable {C F H W : Type*} [LinearOrder F] [LinearOrder H] {e : Element C F H}

/-! ### Batches and the queue -/

theorem perm_createBatch (ex : Exploration C F H W) (q : List (Element C F H)) :
    ((ex.createBatch q).1 ++ (ex.createBatch q).2).Perm q :=
  ex.queue.perm_takeMany _ q

variable {q : List (Element C F H)}

theorem createBatch_ne_nil (ex : Exploration C F H W) (hq : q ≠ []) : (ex.createBatch q).1 ≠ [] :=
  ex.queue.takeMany_ne_nil (Nat.lt_min.mpr ⟨ex.batchSize_pos, length_pos_of_ne_nil hq⟩) hq

variable {ex : Exploration C F H W}

theorem mem_generateRun {run g : Element C F H} (h : g ∈ ex.generateRun run) :
    ex.runResult run = .timingFailure ∧ g.composition = run.composition := by
  simp only [generateRun] at h
  split at h
  · rename_i htiming
    split at h
    · rw [mem_singleton.mp h]
      exact ⟨htiming, rfl⟩
    · exact absurd h not_mem_nil
  · exact absurd h not_mem_nil

theorem isSome_batchResult_of_isFirstSuccess {batch : List (Element C F H)}
    (h : ex.isFirstSuccess batch = true) : (ex.batchResult batch).isSome := by
  cases batch with
  | nil => exact absurd h (by simp [isFirstSuccess])
  | cons e batch =>
    have hs : ex.Succeeds e := by simpa [isFirstSuccess] using h
    obtain ⟨first, hf⟩ := exists_batchResult (mem_cons_self (l := batch)) hs
    rw [hf]
    rfl

omit [LinearOrder F] in
theorem isSome_better {next res : Option (Element C F H)}
    (h : next.isSome ∨ res.isSome) : (better next res).isSome := by
  cases next with
  | none => simpa [better] using h
  | some run =>
    cases res with
    | none => rfl
    | some r =>
      rw [better]
      split <;> rfl

theorem exists_mem_foldl_enqueue (ex : Exploration C F H W) (l q : List (Element C F H)) :
    (∀ e ∈ q, e ∈ l.foldl ex.enqueue q) ∧
      ∀ e ∈ l, ∃ r ∈ l.foldl ex.enqueue q, compareKey ex.area r = compareKey ex.area e := by
  induction l generalizing q with
  | nil => exact ⟨fun e he => he, fun e he => absurd he not_mem_nil⟩
  | cons a l ih =>
    obtain ⟨hm, hl⟩ := ih (ex.enqueue q a)
    have hq : ∀ e ∈ q, e ∈ ex.enqueue q a := by
      intro e he
      rw [enqueue]
      split
      · exact mem_append_left _ he
      · exact he
    have ha : ∃ r ∈ ex.enqueue q a, compareKey ex.area r = compareKey ex.area a := by
      rw [enqueue]
      split
      · exact ⟨a, mem_append_right _ (mem_singleton_self a), rfl⟩
      · rename_i hf
        rw [Option.isNone_iff_eq_none, ← ne_eq, Option.ne_none_iff_exists'] at hf
        obtain ⟨r, hr⟩ := hf
        exact ⟨r, mem_of_find?_eq_some hr, by simpa using find?_some hr⟩
    refine ⟨fun e he => hm e (hq e he), fun e he => ?_⟩
    rcases mem_cons.mp he with rfl | he
    · obtain ⟨r, hr, hk⟩ := ha
      exact ⟨r, hm r hr, hk⟩
    · exact hl e he

theorem runResult_eq_of_compareKey {r : Element C F H}
    (hk : compareKey ex.area r = compareKey ex.area e) (hc : r.composition = e.composition) :
    ex.runResult r = ex.runResult e := by
  have hf : r.frequency = e.frequency := congrArg (fun k => (ofLex (ofLex k).2).2) hk
  rw [runResult, runResult, hc, hf]

theorem mem_of_mem_foldl_enqueue {l : List (Element C F H)}
    (he : e ∈ l.foldl ex.enqueue q) : e ∈ q ∨ e ∈ l := by
  induction l generalizing q with
  | nil => exact .inl he
  | cons a l ih =>
    rcases ih he with he | he
    · rw [enqueue] at he
      split at he
      · rcases mem_append.mp he with he | he
        · exact .inl he
        · exact .inr (mem_singleton.mp he ▸ mem_cons_self)
      · exact .inl he
    · exact .inr (mem_cons_of_mem a he)

/-! ### Monotone outcomes and sound discards -/

/-- A design that uses no less than one that cannot be placed cannot be placed. -/
def PlacementMonotone (ex : Exploration C F H W) : Prop :=
  ∀ c f c' f', (ex.compose c f).result = .placerError → (ex.area c).Within (ex.area c') →
    (ex.compose c' f').result = .placerError

/-- A composition that fails timing fails it at every higher frequency. -/
def TimingMonotone (ex : Exploration C F H W) : Prop :=
  ∀ c f f', (ex.compose c f).result = .timingFailure → f ≤ f' →
    (ex.compose c f').result = .timingFailure

/-- No element that would succeed is lost as a duplicate of an element with another composition, or
after a placer error of a design that does not use less. -/
structure SoundDiscards (ex : Exploration C F H W) (o : Outcome C F H) : Prop where
  duplicates : ∀ e ∈ ex.enumerate, ∀ r ∈ ex.initialQueue,
    compareKey ex.area r = compareKey ex.area e → r.composition ≠ e.composition →
    ex.Succeeds e → ex.Succeeds r
  pruned : ∀ s ∈ o.steps, ∀ run ∈ s.batch, ex.runResult run = .placerError →
    ∀ r ∈ s.queue,
      (ex.area run.composition).compareKey ≤ (ex.area r.composition).compareKey →
      ¬ (ex.area run.composition).Within (ex.area r.composition) → ¬ ex.Succeeds r

theorem soundDiscards_of_comparable
    (hd : ∀ e ∈ ex.enumerate, ∀ r ∈ ex.enumerate,
      compareKey ex.area r = compareKey ex.area e → r.composition = e.composition)
    (ha : ∀ c c', (ex.area c).compareKey ≤ (ex.area c').compareKey →
      (ex.area c).Within (ex.area c')) (o : Outcome C F H) : ex.SoundDiscards o where
  duplicates e he r hr hk hne := by
    rcases mem_of_mem_foldl_enqueue hr with hr | hr
    · exact absurd hr not_mem_nil
    · exact absurd (hd e he r hr hk) hne
  pruned s _ run _ _ r _ hle hn := absurd (ha _ _ hle) hn

variable [DecidableEq C]

/-! ### Termination -/

theorem mem_prune {batch : List (Element C F H)} {r : Element C F H} :
    r ∈ ex.prune batch q ↔ r ∈ q ∧ ∀ run ∈ batch, ex.prunes run r = false := by
  simp [prune]

theorem frequency_lt_of_mem_generateRun {run g : Element C F H} (hg : g ∈ ex.generateRun run)
    (hk : ex.prunes run g = false) : g.frequency < run.frequency := by
  obtain ⟨htiming, hc⟩ := mem_generateRun hg
  simp only [prunes, htiming, hc, true_and, decide_eq_false_iff_not, not_le] at hk
  exact hk

theorem frequencies_lt (ex : Exploration C F H W) (hq : q ≠ []) :
    Multiset.IsDershowitzMannaLT
      (frequencies (ex.prune (ex.createBatch q).1
        (ex.generate (ex.createBatch q).1 (ex.createBatch q).2))) (frequencies q) := by
  obtain ⟨batch, hb⟩ : ∃ batch, batch = (ex.createBatch q).1 := ⟨_, rfl⟩
  obtain ⟨rest, hre⟩ : ∃ rest, rest = (ex.createBatch q).2 := ⟨_, rfl⟩
  obtain ⟨keep, hke⟩ : ∃ keep : Element C F H → Bool,
      keep = fun r => !batch.any fun run => ex.prunes run r := ⟨_, rfl⟩
  have hp := ex.perm_createBatch q
  have hne := ex.createBatch_ne_nil hq
  rw [← hb, ← hre] at hp ⊢
  rw [← hb] at hne
  -- what is kept of the rest stays, and the batch pays for what is generated
  refine ⟨frequencies (rest.filter keep), frequencies ((batch.flatMap ex.generateRun).filter keep),
    frequencies batch + frequencies (rest.filter fun r => !keep r), ?_, ?_, ?_, ?_⟩
  · obtain ⟨e, he⟩ := exists_mem_of_ne_nil batch hne
    have hm : e.frequency ∈ frequencies batch + frequencies (rest.filter fun r => !keep r) :=
      Multiset.mem_add.mpr (.inl (mem_frequencies he))
    exact fun hz => Multiset.notMem_zero _ (hz ▸ hm)
  · rw [prune, generate, filter_append, frequencies_append, hke]
  · rw [← frequencies_perm hp, frequencies_append, ← frequencies_perm
      (filter_append_perm keep rest), frequencies_append]
    exact add_left_comm _ _ _
  · intro f hf
    obtain ⟨g, hg, rfl⟩ := mem_map.mp (Multiset.mem_coe.mp hf)
    obtain ⟨hgen, hk⟩ := mem_filter.mp hg
    obtain ⟨run, hr, hgr⟩ := mem_flatMap.mp hgen
    refine ⟨run.frequency, Multiset.mem_add.mpr (.inl (mem_frequencies hr)), ?_⟩
    refine frequency_lt_of_mem_generateRun hgr ?_
    simp only [hke, Bool.not_eq_true', any_eq_false, Bool.not_eq_true] at hk
    exact hk run hr

theorem exists_apply [WellFoundedLT F] (ex : Exploration C F H W) (q : List (Element C F H)) :
    ∃ fuel o, ex.apply fuel q = some o := by
  induction hq : frequencies q using
    (Multiset.wellFounded_isDershowitzMannaLT (α := F)).induction generalizing q with
  | _ m ih =>
    by_cases he : q = []
    · exact ⟨1, ⟨none, []⟩, by rw [he]; rfl⟩
    obtain ⟨fuel, o, ho⟩ := ih _ (hq ▸ ex.frequencies_lt he) _ rfl
    refine ⟨fuel + 1, ?_⟩
    rw [apply, if_neg (by simpa using he)]
    dsimp only
    split
    · exact ⟨_, rfl⟩
    · split
      · exact ⟨_, rfl⟩
      · rw [ho]
        exact ⟨_, rfl⟩

/-! ### Completeness -/

section Complete

variable {ex : Exploration C F H W} (hplace : ex.PlacementMonotone) (htiming : ex.TimingMonotone)
include hplace htiming

theorem succeeds_of_prunes {run r : Element C F H} (h : ex.prunes run r = true) (hr : ex.Succeeds r)
    (hp : ex.runResult run = .placerError →
      (ex.area run.composition).compareKey ≤ (ex.area r.composition).compareKey →
      ¬ (ex.area run.composition).Within (ex.area r.composition) → ¬ ex.Succeeds r) :
    ex.Succeeds run := by
  cases hru : ex.runResult run with
  | success => exact hru
  | placerError =>
    simp only [prunes, hru, decide_eq_true_eq] at h
    by_cases hw : (ex.area run.composition).Within (ex.area r.composition)
    · have hf := hplace _ _ _ r.frequency hru hw
      rw [Succeeds, runResult, hf] at hr
      exact absurd hr (by decide)
    · exact absurd hr (hp hru h hw)
  | timingFailure =>
    simp only [prunes, hru, decide_eq_true_eq] at h
    have hf := htiming _ _ r.frequency hru h.2
    rw [Succeeds, runResult, h.1, hf] at hr
    exact absurd hr (by decide)
  | timeout => simp [prunes, hru] at h
  | otherError => simp [prunes, hru] at h

/-- **An element that succeeds is found**, or a better one, if discards are sound. -/
theorem result_of_mem {fuel : ℕ} {q : List (Element C F H)} {o : Outcome C F H}
    (h : ex.apply fuel q = some o)
    (hpr : ∀ s ∈ o.steps, ∀ run ∈ s.batch, ex.runResult run = .placerError → ∀ r ∈ s.queue,
        (ex.area run.composition).compareKey ≤ (ex.area r.composition).compareKey →
        ¬ (ex.area run.composition).Within (ex.area r.composition) → ¬ ex.Succeeds r) (he : e ∈ q)
    (hs : ex.Succeeds e) : o.result.isSome := by
  induction fuel generalizing q o with
  | zero => exact absurd h (by simp [apply])
  | succ fuel ih =>
    rcases apply_cases h with ⟨rfl, -⟩ | ⟨-, hf, rfl⟩ | ⟨-, hso, rfl⟩ | ⟨-, o', ho', rfl⟩
    · exact absurd he not_mem_nil
    · exact isSome_batchResult_of_isFirstSuccess hf
    · exact hso
    · apply isSome_better
      have hb {run : Element C F H} (hr : run ∈ (ex.createBatch q).1)
          (hrs : ex.Succeeds run) : (ex.batchResult (ex.createBatch q).1).isSome := by
        obtain ⟨first, hf⟩ := exists_batchResult hr hrs
        rw [hf]
        rfl
      rcases mem_append.mp ((ex.perm_createBatch q).mem_iff.mpr he) with he | he
      · exact .inr (hb he hs)
      have hg : e ∈ ex.generate (ex.createBatch q).1 (ex.createBatch q).2 := mem_append_left _ he
      by_cases hk : ∀ run ∈ (ex.createBatch q).1, ex.prunes run e = false
      · exact .inl (ih ho' (fun s hs' => hpr s (mem_cons_of_mem _ hs')) (mem_prune.mpr ⟨hg, hk⟩))
      push Not at hk
      obtain ⟨run, hr, hp⟩ := hk
      refine .inr (hb hr (succeeds_of_prunes hplace htiming (by simpa using hp)
        hs fun hpl => ?_))
      exact hpr _ mem_cons_self run hr hpl e hg

end Complete

/-- **Completeness.** An exploration ends, and if an element of the design space would succeed
and discards are sound, it ends with a design that succeeds. -/
theorem exists_result [WellFoundedLT F] {ex : Exploration C F H W}
    (hplace : ex.PlacementMonotone) (htiming : ex.TimingMonotone)
    {e : Element C F H} (he : e ∈ ex.enumerate) (hs : ex.Succeeds e) :
    ∃ fuel o, ex.start fuel = some o ∧
      (ex.SoundDiscards o → ∃ r, o.result = some r ∧ ex.Succeeds r) := by
  obtain ⟨fuel, o, ho⟩ := ex.exists_apply ex.initialQueue
  refine ⟨fuel, o, ho, fun hsound => ?_⟩
  obtain ⟨r, hr, hkey⟩ := (ex.exists_mem_foldl_enqueue ex.enumerate []).2 e he
  have hrs : ex.Succeeds r := by
    by_cases hcomp : r.composition = e.composition
    · exact (runResult_eq_of_compareKey hkey hcomp).trans hs
    · exact hsound.duplicates e he r hr hkey hcomp hs
  obtain ⟨result, hresult⟩ := Option.isSome_iff_exists.mp
    (result_of_mem hplace htiming ho hsound.pruned hr hrs)
  obtain ⟨s, -, hbatch⟩ := (bestOfBatches_of_apply ho).mem result hresult
  exact ⟨result, hresult, (batchResult_eq_some hbatch).2⟩

/-- Two designs, of which the second one cannot be placed. -/
def oneFits (fits tooLarge : ResourcesEstimate) (h : ℕ) : Exploration Bool ℕ ℕ ℕ where
  compositions := [false, true]
  feasibleFreqs _ := [100]
  heuristic c _ := if c then 20 else h
  area c := if c then tooLarge else fits
  compose c _ := if c then ⟨.placerError, none⟩ else ⟨.success, none⟩
  newFrequency f _ := f - 1
  defaultSlack := 0
  minFrequency := 50
  batchSize := 1
  batchSize_pos := by decide
  queue := Dequeue.maxFirst _

theorem placementMonotone_oneFits {fits tooLarge : ResourcesEstimate} {h : ℕ}
    (hl : ¬ tooLarge.Within fits) : (oneFits fits tooLarge h).PlacementMonotone := by
  intro c f c' f' hc hw
  cases c with
  | false => exact absurd hc (by simp [oneFits])
  | true =>
    cases c' with
    | false => exact absurd hw hl
    | true => rfl

theorem timingMonotone_oneFits (fits tooLarge : ResourcesEstimate) (h : ℕ) :
    (oneFits fits tooLarge h).TimingMonotone := by
  intro c f f' hc
  cases c <;> exact absurd hc (by simp [oneFits])

theorem exists_result_smaller_design :
    ∃ fuel o, (oneFits ⟨10, 40, 0, 0, 0⟩ ⟨10, 50, 0, 0, 0⟩ 10).start fuel = some o ∧
      ∃ r, o.result = some r ∧ (oneFits ⟨10, 40, 0, 0, 0⟩ ⟨10, 50, 0, 0, 0⟩ 10).Succeeds r := by
  obtain ⟨fuel, o, ho, hresult⟩ :=
    exists_result (placementMonotone_oneFits fun h => absurd h.LUT (by decide))
      (timingMonotone_oneFits ⟨10, 40, 0, 0, 0⟩ ⟨10, 50, 0, 0, 0⟩ 10)
      (e := ⟨false, 100, 10⟩) (by decide) rfl
  refine ⟨fuel, o, ho, hresult (soundDiscards_of_comparable (by decide) ?_ o)⟩
  intro c c' hle
  cases c <;> cases c' <;> first | exact absurd hle (by decide) | constructor <;> decide

/-- An exploration that ends without a result although a design would succeed. -/
def Incomplete (ex : Exploration C F H W) : Prop :=
  ex.PlacementMonotone ∧ ex.TimingMonotone ∧ (∃ e ∈ ex.enumerate, ex.Succeeds e) ∧
    ∃ fuel o, ex.start fuel = some o ∧ o.result = none

/-- The design that fits is dropped as a duplicate of the other one, which uses more BRAM. And
it is removed for its flip-flops after a placer error of the other one. -/
theorem fitting_design_discarded :
    (oneFits ⟨10, 40, 5, 0, 1⟩ ⟨10, 40, 5, 0, 9⟩ 20).Incomplete ∧
    (oneFits ⟨10, 40, 6, 0, 1⟩ ⟨10, 40, 5, 0, 9⟩ 10).Incomplete := by
  refine ⟨⟨placementMonotone_oneFits fun h => absurd h.BRAM (by decide),
    timingMonotone_oneFits _ _ _, ⟨⟨false, 100, 20⟩, by decide, rfl⟩, 2, _, rfl, by decide⟩,
    ⟨placementMonotone_oneFits fun h => absurd h.BRAM (by decide),
    timingMonotone_oneFits _ _ _, ⟨⟨false, 100, 10⟩, by decide, rfl⟩, 2, _, rfl, by decide⟩⟩

end Tapasco.Dse.Exploration
