import Mathlib.Data.List.Infix
import Mathlib.Data.List.Forall2

/-!
# Matching Reports Line by Line

`SequenceMatcher` looks for lines of a report that match a list of regular expressions, one after
the other; `RepSeqMatcher` starts again whenever it has found such lines. A regular expression is
given by what `findFirstMatchIn` returns for a line, and `must` is `mustMatchEveryLine`.

If every line must match, the matcher starts over at a line that does not. It then keeps the
matches it has, and the line is not compared with the first expression.
-/

open List

namespace Tapasco.SequenceMatcher

abbrev Line := List Char

variable {M T : Type}

abbrev Regex (M : Type) := Line → Option M

/-- The variables of a matcher: the expressions that are left, and the matches. -/
structure State (M : Type) where
  rs : List (Regex M)
  ms : List M

def State.matched (s : State M) : Bool :=
  s.rs.isEmpty

/-- The expressions match the lines, with these matches. -/
abbrev Hits (rs : List (Regex M)) (ps : List (Line × M)) : Prop :=
  Forall₂ (fun r p => r p.1 = some p.2) rs ps

variable (must : Bool) (ors : List (Regex M))

def update (s : State M) (line : Line) : State M :=
  match s.rs with
  | [] => s
  | r :: rs =>
    match r line with
    | none => if must then { s with rs := ors } else s
    | some m => ⟨rs, s.ms ++ [m]⟩

/-- A matcher after some lines. -/
def run (lines : List Line) : State M :=
  lines.foldl (update must ors) ⟨ors, []⟩

/-- `RepSeqMatcher.update`, with the matcher and the results. -/
def repUpdate (cons : List M → T) (s : State M × List T) (line : Line) : State M × List T :=
  let matcher := update must ors s.1 line
  if matcher.matched then (⟨ors, []⟩, s.2 ++ [cons matcher.ms]) else (matcher, s.2)

/-- The results of a `RepSeqMatcher` after some lines. -/
def results (cons : List M → T) (lines : List Line) : List T :=
  (lines.foldl (repUpdate must ors cons) (⟨ors, []⟩, [])).2

/-- The lines with their matches are the ones to be found: consecutive lines, or just in order. -/
def Found (lines : List Line) (ps : List (Line × M)) : Prop :=
  Hits ors ps ∧
    if must then ps.map Prod.fst <:+: lines else ps.map Prod.fst <+ lines

/-- A match is reported exactly if there is one, and with the matches of such lines. -/
def Exact (lines : List Line) : Prop :=
  let s := run must ors lines
  (s.matched = true ↔ ∃ ps, Found must ors lines ps) ∧
    (s.matched = true → ∃ ps, Found must ors lines ps ∧ s.ms = ps.map Prod.snd)

variable {α : Type}

/-- The property holds for no shorter block at the beginning of this one. -/
def Shortest (P : List α → T → Prop) (b : List α) : Prop :=
  ∀ p, p <+: b → p ≠ b → ∀ t, ¬P p t

/-- The list is split into blocks with the property, each as short as possible, and a rest that
begins with none; `ts` is what the property says of the blocks. -/
inductive Split (P : List α → T → Prop) : List α → List T → Prop
  | rest {l : List α} (h : ∀ p, p <+: l → ∀ t, ¬P p t) : Split P l []
  | block {b l : List α} {t : T} {ts : List T} (h : P b t) (hb : Shortest P b) (hs : Split P l ts) :
      Split P (b ++ l) (t :: ts)

/-- There are such lines in the block, and the result is made from their matches. -/
def Contains (cons : List M → T) (b : List Line) (t : T) : Prop :=
  ∃ ps, Found must ors b ps ∧ t = cons (ps.map Prod.snd)

/-- There is one result for each complete sequence, made from its matches. -/
def RepExact (cons : List M → T) (lines : List Line) : Prop :=
  Split (Contains must ors cons) lines (results must ors cons lines)

/-- No match of some of the expressions is given up before a complete sequence: the first line that
matches the first expression begins a sequence, and so on behind it, as long as there is one. -/
inductive Unbroken (r : Regex M) (rs : List (Regex M)) : List Line → Prop
  | rest {lines : List Line} (h : ∀ ps, ¬Found true (r :: rs) lines ps) : Unbroken r rs lines
  | sequence {skipped lines : List Line} {ps : List (Line × M)} (hs : ∀ l ∈ skipped, r l = none)
      (hps : Hits (r :: rs) ps) (h : Unbroken r rs lines) :
      Unbroken r rs (skipped ++ ps.map Prod.fst ++ lines)

/-- A new matcher reports a match after the block, which gives this result. -/
def Reports (cons : List M → T) (b : List Line) (t : T) : Prop :=
  (run must ors b).matched = true ∧ t = cons (run must ors b).ms

variable {must ors} {P : List α → T → Prop} {r : Regex M} {rs : List (Regex M)}
  {lines skipped p : List Line} {ps : List (Line × M)} {cons : List M → T}

/-- Two blocks at the beginning of a list that are as short as possible are the same. -/
theorem eq_of_shortest {b b' l l' : List α} {t t' : T} (heq : b ++ l = b' ++ l')
    (h : P b t) (hb : Shortest P b) (h' : P b' t') (hb' : Shortest P b') : b = b' := by
  by_contra hne
  rcases prefix_or_prefix_of_prefix (prefix_append b l) (heq ▸ prefix_append b' l') with hp | hp
  · exact hb' b hp hne t h
  · exact hb b' hp (Ne.symm hne) t' h'

theorem run_concat (lines : List Line) (line : Line) :
    run must ors (lines ++ [line]) = update must ors (run must ors lines) line :=
  foldl_concat _ _ _ _

theorem update_of_some {s : State M} {line : Line} {m : M} (hs : s.rs = r :: rs)
    (hr : r line = some m) : update must ors s line = ⟨rs, s.ms ++ [m]⟩ := by
  simp only [update, hs, hr]

theorem update_of_none {s : State M} {line : Line} (hs : s.rs = r :: rs) (hr : r line = none) :
    update true ors s line = ⟨ors, s.ms⟩ := by
  simp only [update, hs, hr, if_true]

/-! ### Repetition -/

theorem matched_new (hne : ors ≠ []) (p : List Line) (hp : p <+: []) :
    (run must ors p).matched = false := by
  rw [prefix_nil.mp hp]
  exact isEmpty_eq_false_iff.mpr hne

/-- What the repeated matcher adds to the results, `pre` being the lines of the present matcher. -/
theorem split_foldl (hne : ors ≠ []) (cons : List M → T) (lines : List Line) {pre : List Line}
    (hpre : ∀ p, p <+: pre → (run must ors p).matched = false) (res : List T) :
    ∃ ts, (lines.foldl (repUpdate must ors cons) (run must ors pre, res)).2 = res ++ ts ∧
      Split (Reports must ors cons) (pre ++ lines) ts := by
  induction lines generalizing pre res with
  | nil => exact ⟨[], by simp, .rest fun p hp t ht => by simp_all [Reports]⟩
  | cons line lines ih =>
    rw [foldl_cons, repUpdate, ← run_concat]
    have hcat : pre ++ line :: lines = pre ++ [line] ++ lines := by simp
    cases hm : (run must ors (pre ++ [line])).matched with
    | true =>
      obtain ⟨ts, heq, hs⟩ := ih (matched_new hne) (res ++ [cons (run must ors (pre ++ [line])).ms])
      refine ⟨cons (run must ors (pre ++ [line])).ms :: ts, heq.trans (by simp), ?_⟩
      rw [hcat]
      refine .block ⟨hm, rfl⟩ (fun p hp hne t ht => ?_) hs
      exact absurd ht.1 (by simp [hpre p ((prefix_concat_iff.mp hp).resolve_left hne)])
    | false =>
      rw [hcat]
      refine ih (fun p hp => ?_) res
      rcases prefix_concat_iff.mp hp with rfl | hp
      · exact hm
      · exact hpre p hp

theorem split_results (must : Bool) (hne : ors ≠ []) (cons : List M → T) (lines : List Line) :
    Split (Reports must ors cons) lines (results must ors cons lines) := by
  obtain ⟨ts, heq, hs⟩ := split_foldl hne cons lines (matched_new hne) []
  rw [nil_append] at heq hs
  exact (show results must ors cons lines = ts from heq) ▸ hs

/-! ### Lines in order -/

theorem exists_hits (ors : List (Regex M)) (lines : List Line) (s : State M)
    (h : (lines.foldl (update false ors) s).matched = true) :
    ∃ ps, (Hits s.rs ps ∧ ps.map Prod.fst <+ lines) ∧
      (lines.foldl (update false ors) s).ms = s.ms ++ ps.map Prod.snd := by
  induction lines generalizing s with
  | nil =>
    have hnil : s.rs = [] := isEmpty_iff.mp h
    exact ⟨[], ⟨hnil ▸ .nil, .slnil⟩, (append_nil _).symm⟩
  | cons line lines ih =>
    obtain ⟨ps, ⟨hps, hsub⟩, heq⟩ := ih _ h
    obtain ⟨rs, ms⟩ := s
    rw [foldl_cons, heq]
    cases rs with
    | nil => exact ⟨ps, ⟨hps, hsub.cons _⟩, rfl⟩
    | cons r rs =>
      cases hr : r line with
      | none =>
        simp only [update, hr] at hps ⊢
        exact ⟨ps, ⟨hps, hsub.cons _⟩, rfl⟩
      | some m =>
        simp only [update, hr] at hps ⊢
        exact ⟨(line, m) :: ps, ⟨.cons hr hps, hsub.cons_cons _⟩, append_assoc _ _ _⟩

theorem matched_of_hits {lines : List Line} {s : State M} {ps : List (Line × M)}
    (hps : Hits s.rs ps) (hsub : ps.map Prod.fst <+ lines) :
    (lines.foldl (update false ors) s).matched = true := by
  induction lines generalizing s ps with
  | nil =>
    rw [map_eq_nil_iff.mp (sublist_nil.mp hsub)] at hps
    exact isEmpty_iff.mpr (forall₂_nil_right_iff.mp hps)
  | cons line lines ih =>
    obtain ⟨rs, ms⟩ := s
    cases hps with
    | nil => exact ih .nil (nil_sublist _)
    | @cons r p rs ps hp hps =>
      rw [foldl_cons]
      cases hr : r line with
      | none =>
        simp only [update, hr]
        refine ih (.cons hp hps) ?_
        rcases sublist_cons_iff.mp hsub with h | ⟨l, hl, -⟩
        · exact h
        · obtain ⟨rfl, -⟩ := List.cons.inj hl
          exact absurd (hr.symm.trans hp) (by simp)
      | some m =>
        simp only [update, hr]
        exact ih hps hsub.tail

theorem exact_false (ors : List (Regex M)) (lines : List Line) : Exact false ors lines := by
  have hf := exists_hits ors lines ⟨ors, []⟩
  exact ⟨⟨fun h => (hf h).imp fun _ => And.left, fun ⟨_, h⟩ => matched_of_hits h.1 h.2⟩, hf⟩

theorem repExact_false (hne : ors ≠ []) (cons : List M → T) (lines : List Line) :
    RepExact false ors cons lines := by
  -- a match is reported exactly if there is one, so both split the lines in the same way
  have hrep : ∀ {b t}, Contains false ors cons b t → ∃ t', Reports false ors cons b t' :=
    fun ⟨ps, hps, _⟩ => ⟨_, (exact_false ors _).1.mpr ⟨ps, hps⟩, rfl⟩
  have hs := split_results false hne cons lines
  rw [RepExact]
  generalize results false ors cons lines = ts at hs ⊢
  induction hs with
  | rest h => exact .rest fun p hp t ht => (hrep ht).elim (h p hp)
  | block h hb _ ih =>
    obtain ⟨ps, hps, hms⟩ := (exact_false ors _).2 h.1
    exact .block ⟨ps, hps, by rw [h.2, hms]⟩ (fun p hp hne t ht => (hrep ht).elim (hb p hp hne)) ih

/-! ### Consecutive lines -/

/-- A matcher that has not reported a match before has the matches of an attempt at the end of the
lines, and those of earlier attempts; if there are none, no earlier line began one. -/
theorem exists_attempt (h : ∀ p, p <+: lines → p ≠ lines → (run true (r :: rs) p).matched = false) :
    ∃ pre ps done old, lines = pre ++ ps.map Prod.fst ∧
      r :: rs = done ++ (run true (r :: rs) lines).rs ∧ Hits done ps ∧
      (run true (r :: rs) lines).ms = old ++ ps.map Prod.snd ∧
      (old = [] → ∀ l ∈ pre, r l = none) := by
  induction lines using List.reverseRecOn with
  | nil => exact ⟨[], [], [], [], rfl, rfl, .nil, rfl, by simp⟩
  | append_singleton lines line ih =>
    obtain ⟨pre, ps, done, old, heq, hrs, hhits, hms, hold⟩ :=
      ih fun p hp _ => h p (hp.trans (prefix_append _ _)) fun he => by
        have hle := hp.length_le
        rw [he, length_append, length_singleton] at hle
        omega
    have hm := h lines (prefix_append _ _) (by simp)
    obtain ⟨r', rs', hs⟩ := exists_cons_of_ne_nil (isEmpty_eq_false_iff.mp hm)
    rw [hs] at hrs
    cases hr : r' line with
    | some m =>
      rw [run_concat, update_of_some hs hr]
      refine ⟨pre, ps ++ [(line, m)], done ++ [r'], old, by simp [heq], by simp [hrs],
        rel_append hhits (.cons hr .nil), by simp [hms], hold⟩
    | none =>
      -- the attempt is given up, but its matches stay
      rw [run_concat, update_of_none hs hr]
      refine ⟨lines ++ [line], [], [], old ++ ps.map Prod.snd, by simp, rfl, .nil, by simp [hms],
        fun hnil => ?_⟩
      obtain ⟨ho, hp⟩ := append_eq_nil_iff.mp hnil
      obtain rfl := map_eq_nil_iff.mp hp
      obtain rfl := forall₂_nil_right_iff.mp hhits
      obtain ⟨rfl, -⟩ := List.cons.inj hrs
      rw [heq, map_nil, append_nil]
      exact forall_mem_append.mpr ⟨hold ho, forall_mem_singleton.mpr hr⟩

theorem exists_of_reports {t : T} (h : Reports true (r :: rs) cons lines t)
    (hb : Shortest (Reports true (r :: rs) cons) lines) :
    ∃ pre ps old, lines = pre ++ ps.map Prod.fst ∧ Hits (r :: rs) ps ∧
      t = cons (old ++ ps.map Prod.snd) ∧ (old = [] → ∀ l ∈ pre, r l = none) := by
  obtain ⟨pre, ps, done, old, heq, hrs, hhits, hms, hold⟩ := exists_attempt fun p hp hne =>
    Bool.eq_false_iff.mpr fun hm => hb p hp hne _ ⟨hm, rfl⟩
  rw [isEmpty_iff.mp h.1, append_nil] at hrs
  exact ⟨pre, ps, old, heq, hrs ▸ hhits, hms ▸ h.2, hold⟩

theorem found_of_matched (hm : (run true (r :: rs) lines).matched = true) :
    ∃ ps, Found true (r :: rs) lines ps := by
  have hs := split_results true (cons_ne_nil r rs) id lines
  generalize results true (r :: rs) id lines = ts at hs
  cases hs with
  | rest h => exact absurd ⟨hm, rfl⟩ (h lines prefix_rfl _)
  | @block b l _ _ h hb _ =>
    obtain ⟨pre, ps, -, rfl, hps, -⟩ := exists_of_reports h hb
    exact ⟨ps, hps, pre, l, rfl⟩

/-- In lines that do not match the first expression and a sequence behind them there is no sequence
before the last line. -/
theorem not_found_before (hs : ∀ l ∈ skipped, r l = none)
    (hps : Hits (r :: rs) ps) (hp : p <+: skipped ++ ps.map Prod.fst)
    (hne : p ≠ skipped ++ ps.map Prod.fst) (qs : List (Line × M)) : ¬Found true (r :: rs) p qs := by
  rintro ⟨hqs, u, v, hu⟩
  have hlt : p.length < (skipped ++ ps.map Prod.fst).length :=
    lt_of_le_of_ne hp.length_le fun hl => hne (hp.eq_of_length hl)
  have hlen := hps.length_eq
  have hlen' := hqs.length_eq
  have hul : u.length < skipped.length := by
    rw [← hu] at hlt
    simp only [length_append, length_map] at hlt
    omega
  cases hqs with
  | @cons _ q _ qs hq _ =>
    obtain ⟨w, hw⟩ := hp
    have hmem : q.1 ∈ skipped := by
      have hget : (skipped ++ ps.map Prod.fst)[u.length]? = some q.1 := by
        rw [← hw, ← hu]
        simp
      rw [getElem?_append_left hul] at hget
      exact mem_of_getElem? hget
    exact absurd (hs _ hmem) (by simp [hq])

theorem foldl_update_hits {ors : List (Regex M)} (hps : Hits rs ps) (ms : List M) :
    (ps.map Prod.fst).foldl (update true ors) ⟨rs, ms⟩ = ⟨[], ms ++ ps.map Prod.snd⟩ := by
  induction hps generalizing ms with
  | nil => simp
  | cons h _ ih =>
    rw [map_cons, foldl_cons, update_of_some rfl h, ih]
    simp

theorem run_sequence (hs : ∀ l ∈ skipped, r l = none) (hps : Hits (r :: rs) ps) (more : List Line) :
    run true (r :: rs) (skipped ++ ps.map Prod.fst ++ more) = ⟨[], ps.map Prod.snd⟩ := by
  have hskip : skipped.foldl (update true (r :: rs)) ⟨r :: rs, []⟩ = ⟨r :: rs, []⟩ := by
    clear hps
    induction skipped with
    | nil => rfl
    | cons l skipped ih =>
      obtain ⟨hl, hs⟩ := forall_mem_cons.mp hs
      rw [foldl_cons, update_of_none rfl hl]
      exact ih hs
  have hmore : more.foldl (update true (r :: rs)) ⟨[], ps.map Prod.snd⟩ = ⟨[], ps.map Prod.snd⟩ :=
    foldl_fixed' (fun _ => rfl) more
  rw [run, foldl_append, foldl_append, hskip, foldl_update_hits hps, nil_append, hmore]

theorem Found.of_prefix (h : Found true (r :: rs) p ps) (hp : p <+: lines) :
    Found true (r :: rs) lines ps :=
  ⟨h.1, h.2.trans hp.isInfix⟩

theorem exact_of_unbroken (h : Unbroken r rs lines) : Exact true (r :: rs) lines := by
  cases h with
  | rest h =>
    have hm : ¬(run true (r :: rs) lines).matched = true := fun hm =>
      (found_of_matched hm).elim h
    exact ⟨⟨fun h' => absurd h' hm, fun ⟨ps, hps⟩ => absurd hps (h ps)⟩, fun h' => absurd h' hm⟩
  | @sequence skipped more ps hs hps _ =>
    have hf : Found true (r :: rs) (skipped ++ ps.map Prod.fst ++ more) ps :=
      ⟨hps, skipped, more, rfl⟩
    rw [Exact, run_sequence hs hps]
    exact ⟨⟨fun _ => ⟨ps, hf⟩, fun _ => rfl⟩, fun _ => ⟨ps, hf, rfl⟩⟩

theorem repExact_of_unbroken (cons : List M → T) (h : Unbroken r rs lines) :
    RepExact true (r :: rs) cons lines := by
  have hs := split_results true (cons_ne_nil r rs) cons lines
  rw [RepExact]
  generalize results true (r :: rs) cons lines = ts at hs ⊢
  induction h generalizing ts with
  | rest h =>
    cases hs with
    | rest _ => exact .rest fun p hp _ ⟨ps, hps, _⟩ => h ps (hps.of_prefix hp)
    | @block b _ _ _ hb _ _ =>
      obtain ⟨ps, hps⟩ := found_of_matched hb.1
      exact absurd (hps.of_prefix (prefix_append b _)) (h ps)
  | @sequence skipped lines ps hsk hps _ ih =>
    have hrun := run_sequence hsk hps []
    rw [append_nil] at hrun
    have hb : Reports true (r :: rs) cons (skipped ++ ps.map Prod.fst)
        (cons (ps.map Prod.snd)) := by
      rw [Reports, hrun]
      exact ⟨rfl, rfl⟩
    have hmin : ∀ p, p <+: skipped ++ ps.map Prod.fst → p ≠ skipped ++ ps.map Prod.fst →
        ∀ qs, ¬Found true (r :: rs) p qs := fun p hp hne => not_found_before hsk hps hp hne
    generalize hl : skipped ++ ps.map Prod.fst ++ lines = all at hs
    cases hs with
    | rest h => exact absurd hb (h _ (hl ▸ prefix_append _ _) _)
    | block hb' hmin' hs =>
      obtain rfl := eq_of_shortest hl hb
        (fun p hp hne t ht => (found_of_matched ht.1).elim (hmin p hp hne)) hb' hmin'
      obtain rfl := append_cancel_left hl
      exact .block ⟨ps, ⟨hps, skipped, [], by simp⟩, by rw [hb'.2, hrun]⟩
        (fun p hp hne _ ⟨qs, hqs, _⟩ => hmin p hp hne qs hqs) (ih _ hs)

theorem unbroken_of_repExact (h : RepExact true (r :: rs) id lines) : Unbroken r rs lines := by
  have hs := split_results true (cons_ne_nil r rs) id lines
  rw [RepExact] at h
  generalize results true (r :: rs) id lines = ts at hs h
  induction hs with
  | rest _ =>
    cases h with
    | rest h => exact .rest fun ps hps => h _ prefix_rfl _ ⟨ps, hps, rfl⟩
  | @block b lines t ts hb hmin _ ih =>
    generalize hl : b ++ lines = all at h
    cases h with
    | @block b' lines' _ _ hb' hmin' h =>
      -- only the matches of the sequence itself are as many as the expressions
      obtain ⟨skipped, ps, old, rfl, hps, ht, hold⟩ := exists_of_reports hb hmin
      obtain ⟨qs, hqs, ht'⟩ := hb'
      have hlen := congrArg length (ht.symm.trans ht')
      rw [id, id, length_append, length_map, length_map, ← hps.length_eq, ← hqs.1.length_eq] at hlen
      have hsk := hold (length_eq_zero_iff.mp (by omega))
      obtain rfl := eq_of_shortest hl ⟨ps, ⟨hps, skipped, [], by simp⟩, rfl⟩
        (fun p hp hne _ ⟨qs, hqs, _⟩ => not_found_before hsk hps hp hne qs hqs)
        ⟨qs, hqs, ht'⟩ hmin'
      obtain rfl := append_cancel_left hl
      exact .sequence hsk hps (ih h)

/-- **Sequences are found exactly if** not every line must match, or no partial match is given up
before a sequence: a match is reported exactly if there are such lines, with their matches, and the
repeated matcher has a result for each complete sequence. -/
theorem exact_iff (must : Bool) (r : Regex M) (rs : List (Regex M)) (lines : List Line) :
    (Exact must (r :: rs) lines ∧
      ∀ (T : Type) (cons : List M → T), RepExact must (r :: rs) cons lines) ↔
      must = false ∨ Unbroken r rs lines := by
  cases must with
  | false =>
    exact ⟨fun _ => .inl rfl, fun _ => ⟨exact_false _ lines, fun T cons =>
      repExact_false (cons_ne_nil r rs) cons lines⟩⟩
  | true =>
    refine ⟨fun h => .inr (unbroken_of_repExact (h.2 _ id)), fun h => ?_⟩
    have h := h.resolve_left nofun
    exact ⟨exact_of_unbroken h, fun T cons => repExact_of_unbroken cons h⟩

/-- An expression that matches one line only. -/
def only (l : Line) : Regex Unit := fun line => if line = l then some () else none

/-- A line that matches the first of two expressions, another one, and then the sequence. -/
theorem match_kept :
    let s := run true [only ['a'], only ['b']] [['a'], ['c'], ['a'], ['b']]
    s.matched = true ∧ s.ms = [(), (), ()] :=
  ⟨rfl, rfl⟩

end Tapasco.SequenceMatcher
