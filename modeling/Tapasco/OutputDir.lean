import Tapasco.Alternatives
import Tapasco.Lib.HexText
import Mathlib.Data.List.Sort
import Mathlib.Data.Rat.Floor
import Mathlib.Data.String.Basic

/-!
# Output Directories of Compose Runs

A compose run works in a directory whose name is made from its target, its composition, its
frequency and its features, and that is used for nothing else. `outputDir` joins names by
separators that may be part of them and rounds the frequency, and when a run has ended, `clean`
derives the directory a second time, from other data.

A frequency is the decimal number that a `Double` is printed as. Of the values of features nothing
is used. Paths are lists of segments.
-/

open List HexText

namespace Tapasco.OutputDir

open Alternatives (Entry)

abbrev Path := List (List Char)

/-- `Path.resolve` for a text: an absolute one replaces the path. -/
def resolve (p : Path) (text : List Char) : Path :=
  (if text.head? = some '/' then [] else p) ++ tokens (· == '/') text

structure Feature (ν : Type) where
  name : List Char
  value : ν
  deriving DecidableEq

/-- What the directory of a run depends on, with the names of its target. -/
structure Run (ν : Type) where
  ad : List Char
  pd : List Char
  composition : List Entry
  frequency : ℚ
  features : List (Feature ν)
  deriving DecidableEq

/-- The format `%0wd`. -/
def padded (w n : ℕ) : List Char :=
  replicate (w - (Nat.toDigits 10 n).length) '0' ++ Nat.toDigits 10 n

/-- A frequency in tenths, rounded half up. -/
def tenths (f : ℚ) : ℕ :=
  ⌊10 * f + 1 / 2⌋.toNat

/-- The format `%05.1f`. -/
def frequencyText (f : ℚ) : List Char :=
  padded 3 (tenths f / 10) ++ '.' :: Nat.toDigits 10 (tenths f % 10)

def kernelsText (composition : List Entry) : List Char :=
  ['_', '_'].intercalate
    (composition.map fun e => e.kernel.map fun c => if c = ' ' then '_' else c)

def countsText (composition : List Entry) : List Char :=
  ['_'].intercalate (composition.map fun e => padded 3 e.count)

variable {ν : Type}

def featuresText (features : List (Feature ν)) : List Char :=
  ((features.map fun x => '+' :: x.name).insertionSort (· ≤ ·)).flatten

/-- The texts that `outputDir` resolves, one after the other. -/
def Run.texts (r : Run ν) : List (List Char) :=
  [r.ad, r.pd, kernelsText r.composition, countsText r.composition,
    frequencyText r.frequency ++ featuresText r.features]

def outputDir (compositionDir : Path) (r : Run ν) : Path :=
  r.texts.foldl resolve compositionDir

/-- The path before the last text. -/
def Run.parent (r : Run ν) (compositionDir : Path) : Path :=
  r.texts.dropLast.foldl resolve compositionDir

/-- `checkFrequency`, for a platform with this maximum. -/
def checkFrequency (f maxFrequency : ℚ) : ℚ :=
  if maxFrequency < f then maxFrequency else f

def composeDir (compositionDir : Path) (maxFrequency : ℚ) (r : Run ν) : Path :=
  outputDir compositionDir { r with frequency := checkFrequency r.frequency maxFrequency }

/-- The directories that a run writes to: that of the log of the task, and that of the composer,
for platforms with these maxima. -/
def runDirs (compositionDir : Path) (maxFrequency : List Char → ℚ) (r : Run ν) : List Path :=
  [outputDir compositionDir r, composeDir compositionDir (maxFrequency r.pd) r]

def cleanDir (compositionDir : Path) (r : Run ν) : Path :=
  outputDir compositionDir { r with features := ([] : List (Feature ν)) }

def microarch : List Char :=
  ['m', 'i', 'c', 'r', 'o', 'a', 'r', 'c', 'h']

def userIp : List Char :=
  ['u', 's', 'e', 'r', '_', 'i', 'p']

/-- The file is one of those that `clean` deletes in a directory. -/
def InWork (dir p : Path) : Prop :=
  dir ++ [microarch] <+: p ∨ dir ++ [userIp] <+: p

instance (dir p : Path) : Decidable (InWork dir p) :=
  inferInstanceAs (Decidable (_ ∨ _))

/-- The files that `nodeExecution` deletes after the run, of those that there are. -/
def deleted (compositionDir : Path) (deleteOnFail : Option Bool) (success : Bool) (r : Run ν)
    (files : List Path) : List Path :=
  if deleteOnFail.getD success then
    files.filter fun p => InWork (cleanDir compositionDir r) p
  else []

/-! ### Texts -/

theorem isDigit_of_mem_padded {w n : ℕ} : ∀ c ∈ padded w n, c.isDigit = true := by
  intro c hc
  rcases mem_append.mp hc with hc | hc
  · rw [eq_of_mem_replicate hc]
    rfl
  · exact Nat.isDigit_of_mem_toDigits (by decide) (by decide) hc

theorem ofDigitChars_padded (w n : ℕ) : Nat.ofDigitChars 10 (padded w n) 0 = n := by
  rw [padded, Nat.ofDigitChars_append, Nat.ofDigitChars_replicate_zero, mul_zero,
    Nat.ofDigitChars_ten_toDigits]

theorem ne_of_mem_frequencyText {d : Char} (hd : d.isDigit = false) (hp : d ≠ '.') {f : ℚ} :
    ∀ c ∈ frequencyText f, (c == d) = false := by
  intro c hc
  refine beq_eq_false_iff_ne.mpr ?_
  rintro rfl
  rcases mem_append.mp hc with hc | hc
  · exact absurd (isDigit_of_mem_padded c hc) (by simp [hd])
  · rcases mem_cons.mp hc with rfl | hc
    · exact hp rfl
    · exact absurd (Nat.isDigit_of_mem_toDigits (by decide) (by decide) hc) (by simp [hd])

theorem ofDigitChars_frequencyText (f : ℚ) :
    Nat.ofDigitChars 10 ((frequencyText f).filter Char.isDigit) 0 = tenths f := by
  have hd : tenths f % 10 < 10 := Nat.mod_lt _ (by decide)
  rw [frequencyText, filter_append, filter_eq_self.mpr isDigit_of_mem_padded,
    filter_cons_of_neg (by decide),
    filter_eq_self.mpr fun c => Nat.isDigit_of_mem_toDigits (by decide) (by decide),
    Nat.ofDigitChars_append, ofDigitChars_padded, Nat.toDigits_of_lt_base hd,
    Nat.ofDigitChars_cons_digitChar_of_lt_ten hd, Nat.ofDigitChars_nil]
  omega

theorem featuresText_cases (features : List (Feature ν)) :
    features = [] ∧ featuresText features = [] ∨
      features ≠ [] ∧ ∃ l, featuresText features = '+' :: l := by
  have hp := perm_insertionSort (· ≤ ·) (features.map fun x => '+' :: x.name)
  rw [featuresText]
  cases h : (features.map fun x => '+' :: x.name).insertionSort (· ≤ ·) with
  | nil =>
    rw [h] at hp
    exact .inl ⟨map_eq_nil_iff.mp hp.symm.eq_nil, rfl⟩
  | cons t ts =>
    obtain ⟨x, hx, rfl⟩ := mem_map.mp (hp.subset (h ▸ mem_cons_self))
    exact .inr ⟨ne_nil_of_mem hx, _, rfl⟩

/-- **The frequency and what follows can be told apart**: what follows begins with a plus sign. -/
theorem frequencyText_append_inj {f g : ℚ} {s t : List Char} (hs : ∀ c ∈ s.head?, c = '+')
    (ht : ∀ c ∈ t.head?, c = '+') :
    frequencyText f ++ s = frequencyText g ++ t ↔ tenths f = tenths g ∧ s = t := by
  have htake : ∀ (f : ℚ) {s : List Char}, (∀ c ∈ s.head?, c = '+') →
      (frequencyText f ++ s).takeWhile (· != '+') = frequencyText f := by
    intro f s hs
    rw [takeWhile_append_of_pos, append_right_eq_self]
    · cases s with
      | nil => rfl
      | cons c s => simp [hs c rfl]
    · intro c hc
      rw [bne, ne_of_mem_frequencyText rfl (by decide) c hc]
      rfl
  constructor
  · intro h
    have hfg := congrArg (takeWhile (· != '+')) h
    rw [htake f hs, htake g ht] at hfg
    rw [hfg, append_right_inj] at h
    refine ⟨?_, h⟩
    rw [← ofDigitChars_frequencyText, hfg, ofDigitChars_frequencyText]
  · rintro ⟨h, rfl⟩
    rw [frequencyText, frequencyText, h]

/-! ### Directories -/

theorem resolve_append {w t : List Char} (hne : w ≠ []) (hw : ∀ c ∈ w, (c == '/') = false)
    (hr : ∀ c ∈ t.head?, c = '/') (p : Path) :
    resolve p (w ++ t) = p ++ w :: tokens (· == '/') t := by
  have hh : (w ++ t).head? ≠ some '/' := by
    obtain ⟨c, l, rfl⟩ := exists_cons_of_ne_nil hne
    exact fun h => absurd (hw '/' (by simp_all)) (by decide)
  rw [resolve, if_neg hh]
  cases t with
  | nil => rw [append_nil, tokens_word hw hne, tokens_nil]
  | cons c l =>
    obtain rfl := hr c rfl
    rw [tokens_word_append hw hne rfl, ← tokens_append_of_seps (s := ['/']) (by simp)]
    rfl

theorem outputDir_last (dir : Path) (r : Run ν) :
    ∃ t l, outputDir dir r = r.parent dir ++ (frequencyText r.frequency ++ t) :: l ∧
      (∀ c ∈ t.head?, c = '+') ∧ (t = [] ↔ r.features = []) ∧ (t = [] → l = []) := by
  have hw : ∀ c ∈ frequencyText r.frequency ++ (featuresText r.features).takeWhile (· != '/'),
      (c == '/') = false := by
    refine forall_mem_append.mpr ⟨ne_of_mem_frequencyText rfl (by decide), fun c hc => ?_⟩
    simpa using all_eq_true.mp all_takeWhile c hc
  have hr : ∀ c ∈ ((featuresText r.features).dropWhile (· != '/')).head?, c = '/' := by
    intro c hc
    have h := head?_dropWhile_not (· != '/') (featuresText r.features)
    rw [hc] at h
    simpa using h
  have heq := resolve_append (by simp [frequencyText]) hw hr (r.parent dir)
  rw [append_assoc, takeWhile_append_dropWhile] at heq
  refine ⟨_, _, heq, ?_⟩
  obtain ⟨hf, hn⟩ | ⟨hf, l, hl⟩ := featuresText_cases r.features
  · rw [hn]
    simp [hf]
  · simp [hf, hl]

/-- **A run cleans its own directory exactly if** it has no features and its frequency is not
reduced, or nothing is to be deleted. -/
theorem cleans_own_iff (dir : Path) (maxFrequency : ℚ) (deleteOnFail : Option Bool)
    (success : Bool) (r : Run ν) :
    (∀ files,
      (∀ p ∈ deleted dir deleteOnFail success r files, composeDir dir maxFrequency r <+: p) ∧
      (deleteOnFail.getD success = true → ∀ p ∈ files,
        InWork (composeDir dir maxFrequency r) p →
          p ∈ deleted dir deleteOnFail success r files)) ↔
      deleteOnFail.getD success = false ∨
        r.features = [] ∧
          tenths (checkFrequency r.frequency maxFrequency) = tenths r.frequency := by
  cases hd : deleteOnFail.getD success with
  | false => simp [deleted, hd]
  | true =>
    simp only [deleted, hd, if_true, mem_filter, decide_eq_true_eq, Bool.true_eq_false, false_or,
      forall_const]
    constructor
    · intro h
      obtain ⟨t, l, hrun, hp, hnil, -⟩ := outputDir_last dir
        { r with frequency := checkFrequency r.frequency maxFrequency }
      obtain ⟨t', l', hclean, -, hnil', hl'⟩ := outputDir_last dir
        { r with features := ([] : List (Feature ν)) }
      obtain rfl := hnil'.mpr rfl
      obtain rfl := hl' rfl
      have hpre := (h [cleanDir dir r ++ [microarch]]).1 _
        ⟨mem_singleton_self _, .inl (prefix_refl _)⟩
      have hdir : composeDir dir maxFrequency r = r.parent dir ++ _ := hrun
      have hown : cleanDir dir r = r.parent dir ++ _ := hclean
      rw [hdir, hown, append_assoc, prefix_append_right_inj, singleton_append,
        cons_prefix_cons] at hpre
      obtain ⟨htenths, rfl⟩ := (frequencyText_append_inj hp (by simp)).mp hpre.1
      exact ⟨hnil.mp rfl, htenths⟩
    · rintro ⟨hf, ht⟩ files
      have hdir : composeDir dir maxFrequency r = cleanDir dir r := by
        simp only [composeDir, cleanDir, outputDir, Run.texts, frequencyText, hf, ht]
      rw [hdir]
      exact ⟨fun p hp => hp.2.elim ((prefix_append _ _).trans ·) ((prefix_append _ _).trans ·),
        fun p hp hw => ⟨hp, hw⟩⟩

/-! ### Directories of two runs -/

/-- Each text is the name of one directory. -/
def Run.Plain (r : Run ν) : Prop :=
  ∀ text ∈ r.texts, text ≠ [] ∧ (∀ c ∈ text, (c == '/') = false) ∧ text ≠ ['.'] ∧
    text ≠ ['.', '.']

theorem outputDir_eq_append {r : Run ν} (h : r.Plain) (dir : Path) :
    outputDir dir r = dir ++ r.texts := by
  rw [Run.Plain] at h
  rw [outputDir]
  generalize r.texts = texts at h ⊢
  induction texts generalizing dir with
  | nil => exact (append_nil _).symm
  | cons text texts ih =>
    rw [forall_mem_cons] at h
    have ht := resolve_append h.1.1 h.1.2.1 (t := []) (by simp) dir
    rw [append_nil, tokens_nil] at ht
    rw [foldl_cons, ih _ h.2, ht, append_assoc, singleton_append]

theorem countsText_inj {c d : List Entry} :
    countsText c = countsText d ↔ c.map Entry.count = d.map Entry.count := by
  have ht : ∀ c : List Entry, (tokens (· == '_') (countsText c)).map (Nat.ofDigitChars 10 · 0) =
      c.map Entry.count := fun c => by
    rw [countsText, tokens_intercalate (by simp) (by simp) (forall_mem_map.mpr fun e _ => ⟨?_, ?_⟩),
      map_map]
    · simp [Function.comp_def, ofDigitChars_padded]
    · simp [padded, Nat.toDigits_ne_nil]
    · exact fun ch hch => beq_eq_false_iff_ne.mpr fun hu => by
        have := isDigit_of_mem_padded ch hch
        simp [hu] at this
  constructor
  · intro h
    rw [← ht, h, ht]
  · intro h
    have hm := congrArg (fun l => ['_'].intercalate (l.map (padded 3))) h
    simpa [countsText, Function.comp_def] using hm

theorem outputDir_eq_iff {r₁ r₂ : Run ν} (h₁ : r₁.Plain) (h₂ : r₂.Plain) (dir : Path) :
    outputDir dir r₁ = outputDir dir r₂ ↔
      r₁.ad = r₂.ad ∧ r₁.pd = r₂.pd ∧
        kernelsText r₁.composition = kernelsText r₂.composition ∧
        r₁.composition.map Entry.count = r₂.composition.map Entry.count ∧
        tenths r₁.frequency = tenths r₂.frequency ∧
        featuresText r₁.features = featuresText r₂.features := by
  have hh : ∀ r : Run ν, ∀ c ∈ (featuresText r.features).head?, c = '+' := fun r => by
    obtain ⟨-, hn⟩ | ⟨-, l, hl⟩ := featuresText_cases r.features
    · simp [hn]
    · simp [hl]
  rw [outputDir_eq_append h₁, outputDir_eq_append h₂, append_right_inj]
  simp only [Run.texts, cons.injEq, and_true, countsText_inj,
    frequencyText_append_inj (hh r₁) (hh r₂)]

theorem Run.Plain.setFrequency {r : Run ν} (h : r.Plain) (f : ℚ) :
    ({ r with frequency := f } : Run ν).Plain := by
  simp only [Run.Plain, Run.texts, forall_mem_cons] at h ⊢
  obtain ⟨had, hpd, hk, hc, ⟨-, hsep, -⟩, -⟩ := h
  have hl : 2 < (frequencyText f ++ featuresText r.features).length := by
    simp [frequencyText, padded]
    omega
  refine ⟨had, hpd, hk, hc, ⟨fun h => ?_, forall_mem_append.mpr ⟨ne_of_mem_frequencyText rfl
    (by decide), (forall_mem_append.mp hsep).2⟩, fun h => ?_, fun h => ?_⟩, by simp⟩ <;>
  · rw [h] at hl
    exact absurd hl (by decide)

theorem tenths_mono {f g : ℚ} (h : f ≤ g) : tenths f ≤ tenths g :=
  Int.toNat_le_toNat (Int.floor_mono (by linarith))

theorem tenths_checkFrequency (f m : ℚ) :
    tenths (checkFrequency f m) = min (tenths f) (tenths m) := by
  rw [checkFrequency]
  split
  next h => exact (min_eq_right (tenths_mono h.le)).symm
  next h => exact (min_eq_left (tenths_mono (not_lt.mp h))).symm

theorem exists_of_mem_runDirs {dir d : Path} {maxFrequency : List Char → ℚ} {r : Run ν}
    (h : d ∈ runDirs dir maxFrequency r) :
    ∃ f, d = outputDir dir { r with frequency := f } ∧
      tenths (checkFrequency f (maxFrequency r.pd)) =
        tenths (checkFrequency r.frequency (maxFrequency r.pd)) := by
  simp only [runDirs, mem_cons, not_mem_nil, or_false] at h
  rcases h with rfl | rfl
  · exact ⟨r.frequency, rfl, rfl⟩
  · exact ⟨_, rfl, by simp only [tenths_checkFrequency, min_assoc, min_self]⟩

/-- **Two runs share a directory exactly if** their composers do, and these do exactly if the runs
have the same target, the same counts, the same texts for their kernels and features, and
frequencies that are, at most the maximum of the platform, rounded to the same tenth. -/
theorem runs_collide_iff {r₁ r₂ : Run ν} (h₁ : r₁.Plain) (h₂ : r₂.Plain) (dir : Path)
    (maxFrequency : List Char → ℚ) :
    ((∃ d ∈ runDirs dir maxFrequency r₁, d ∈ runDirs dir maxFrequency r₂) ↔
      composeDir dir (maxFrequency r₁.pd) r₁ = composeDir dir (maxFrequency r₂.pd) r₂) ∧
    (composeDir dir (maxFrequency r₁.pd) r₁ = composeDir dir (maxFrequency r₂.pd) r₂ ↔
      r₁.ad = r₂.ad ∧ r₁.pd = r₂.pd ∧
        kernelsText r₁.composition = kernelsText r₂.composition ∧
        r₁.composition.map Entry.count = r₂.composition.map Entry.count ∧
        tenths (checkFrequency r₁.frequency (maxFrequency r₁.pd)) =
          tenths (checkFrequency r₂.frequency (maxFrequency r₂.pd)) ∧
        featuresText r₁.features = featuresText r₂.features) := by
  have hdir := fun f g => outputDir_eq_iff (h₁.setFrequency f) (h₂.setFrequency g) dir
  refine ⟨⟨?_, fun h => ⟨composeDir dir (maxFrequency r₁.pd) r₁, by simp [runDirs], ?_⟩⟩, hdir _ _⟩
  · rintro ⟨d, hd₁, hd₂⟩
    obtain ⟨f, rfl, hf⟩ := exists_of_mem_runDirs hd₁
    obtain ⟨g, heq, hg⟩ := exists_of_mem_runDirs hd₂
    obtain ⟨had, hpd, hk, hc, ht, hfe⟩ := (hdir f g).mp heq
    refine (hdir _ _).mpr ⟨had, hpd, hk, hc, ?_, hfe⟩
    simp only [tenths_checkFrequency] at ht hf hg ⊢
    rw [← hf, ← hg, ht, show r₁.pd = r₂.pd from hpd]
  · simp [runDirs, h]

/-- A run for one kernel with the name `k`. -/
def kernelRun (f : ℚ) (features : List (Feature Unit)) : Run Unit :=
  ⟨['a'], ['p'], [⟨['k'], 1⟩], f, features⟩

theorem runs_collide_iff_kernelRun :
    composeDir [] 500 (kernelRun 100 []) ≠ composeDir [] 500 (kernelRun 200 []) := by
  have h₁ : (kernelRun 100 []).texts =
      [['a'], ['p'], ['k'], ['0', '0', '1'], ['1', '0', '0', '.', '0']] := by decide +kernel
  have h₂ : (kernelRun 200 []).texts =
      [['a'], ['p'], ['k'], ['0', '0', '1'], ['2', '0', '0', '.', '0']] := by decide +kernel
  have hp₁ : (kernelRun 100 []).Plain := by simp [Run.Plain, h₁]
  have hp₂ : (kernelRun 200 []).Plain := by simp [Run.Plain, h₂]
  exact fun h => absurd ((runs_collide_iff hp₁ hp₂ [] fun _ => 500).2.mp h).2.2.2.2.1
    (by decide +kernel)

/-- Two frequencies that timing feedback may give. -/
theorem frequencies_collide :
    kernelRun (10001 / 100) [] ≠ kernelRun (10002 / 100) [] ∧
      composeDir [] 500 (kernelRun (10001 / 100) []) =
        composeDir [] 500 (kernelRun (10002 / 100) []) := by
  decide +kernel

/-- With a feature, files of a run without it are deleted. -/
theorem clean_other_run :
    let other := outputDir [] (kernelRun 100 []) ++ [microarch, ['f']]
    deleted [] (some true) true (kernelRun 100 [⟨['L'], ()⟩]) [other] = [other] ∧
      ¬ composeDir [] 500 (kernelRun 100 [⟨['L'], ()⟩]) <+: other := by
  decide +kernel

end Tapasco.OutputDir
