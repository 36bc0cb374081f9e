import Mathlib.Data.List.Basic

/-!
# Templates

`Template.interpolate` replaces the needles `@@name@@` of a text by the strings that a map has for
their names. The replacement goes through `Matcher.appendReplacement`, for which a backslash quotes
the next character and a dollar sign refers to a group of the match: 0 is the whole needle, 1 its
name. `none` stands for an exception. The maps are given by what they have for each name together.
-/

open List

namespace Tapasco.Template

/-- The name of the needle at the beginning of a text, `@@([^@]+)@@`. -/
def needle (s : List Char) : Option (List Char) :=
  let name := (s.drop 2).takeWhile (· != '@')
  if ['@', '@'] <+: s ∧ name ≠ [] ∧ ['@', '@'] <+: s.drop (name.length + 2) then some name
  else none

/-- `replaceAllIn`, where `skip` characters belong to the last needle. -/
def replaceAllIn (replacement : List Char → Option (List Char)) :
    (skip : ℕ) → List Char → Option (List Char)
  | _, [] => some []
  | skip + 1, _ :: t => replaceAllIn replacement skip t
  | 0, c :: t =>
    match needle (c :: t) with
    | some name => do
      let value ← replacement name
      return value ++ (← replaceAllIn replacement (name.length + 3) t)
    | none => do return c :: (← replaceAllIn replacement 0 t)

/-- The group that a reference with these digits is to, and what follows: more digits belong to it
while there is such a group. -/
def group (n : ℕ) : List Char → ℕ × List Char
  | c :: t => if c.isDigit ∧ n * 10 + (c.toNat - 48) ≤ 1 then group (n * 10 + (c.toNat - 48)) t
    else (n, c :: t)
  | [] => (n, [])

theorem group_suffix (n : ℕ) (t : List Char) : (group n t).2 <:+ t := by
  fun_induction group n t with
  | case1 n c t h ih => exact ih.trans (suffix_cons c t)
  | case2 => exact suffix_rfl
  | case3 => exact suffix_rfl

/-- `appendReplacement`, for a needle with this name. -/
def expand (name : List Char) : List Char → Option (List Char)
  | [] => some []
  | '\\' :: c :: t => (c :: ·) <$> expand name t
  | ['\\'] => none
  | '$' :: c :: t =>
    if c.isDigit ∧ c.toNat - 48 ≤ 1 then
      let g := group (c.toNat - 48) t
      ((if g.1 = 0 then '@' :: '@' :: name ++ ['@', '@'] else name) ++ ·) <$> expand name g.2
    else none
  | ['$'] => none
  | c :: t => (c :: ·) <$> expand name t
termination_by t => t.length
decreasing_by
  all_goals simp only [length_cons]
  all_goals have := (group_suffix (c.toNat - 48) t).length_le
  all_goals omega

/-- What the maps have for a name, or nothing. -/
def value (ms : List Char → Option (List Char)) (name : List Char) : List Char :=
  (ms name).getD []

def interpolate (ms : List Char → Option (List Char)) (s : List Char) : Option (List Char) :=
  replaceAllIn (fun name => expand name (value ms name)) 0 s

/-- The text with the values in the place of the needles. -/
def substitute (value : List Char → List Char) : (skip : ℕ) → List Char → List Char
  | _, [] => []
  | skip + 1, _ :: t => substitute value skip t
  | 0, c :: t =>
    match needle (c :: t) with
    | some name => value name ++ substitute value (name.length + 3) t
    | none => c :: substitute value 0 t

/-- The names of the needles of a text, in the order in which they are found. -/
def findNeedles : (skip : ℕ) → List Char → List (List Char)
  | _, [] => []
  | skip + 1, _ :: t => findNeedles skip t
  | 0, c :: t =>
    match needle (c :: t) with
    | some name => name :: findNeedles (name.length + 3) t
    | none => findNeedles 0 t

/-- How many characters are special in a replacement. -/
def specials (v : List Char) : ℕ :=
  v.countP fun c => c == '\\' || c == '$'

/-- The text has no characters that are special in a replacement. -/
def Plain (v : List Char) : Prop :=
  specials v = 0

variable {ms : List Char → Option (List Char)} {name v w s : List Char} {skip : ℕ}

@[simp]
theorem specials_append (v w : List Char) : specials (v ++ w) = specials v + specials w :=
  countP_append

theorem specials_cons (c : Char) (v : List Char) :
    specials (c :: v) = specials v + if c = '\\' ∨ c = '$' then 1 else 0 := by
  simp [specials, countP_cons]

/-! ### Plain strings stand for themselves -/

theorem expand_of_plain (name : List Char) (h : Plain v) : expand name v = some v := by
  induction v with
  | nil => rw [expand]
  | cons c t ih =>
    obtain ⟨ht, hb, hd⟩ : Plain t ∧ c ≠ '\\' ∧ c ≠ '$' := by
      simpa [Plain, specials_cons] using h
    rw [expand, ih ht]
    · rfl
    · exact fun _ _ h => absurd h hb
    · exact fun h => absurd h hb
    · exact fun _ _ h => absurd h hd
    · exact fun h => absurd h hd

theorem replaceAllIn_of_plain (h : ∀ name ∈ findNeedles skip s, Plain (value ms name)) :
    replaceAllIn (fun name => expand name (value ms name)) skip s =
      some (substitute (value ms) skip s) := by
  fun_induction findNeedles skip s with
  | case1 => simp [replaceAllIn, substitute]
  | case2 skip c t ih => exact ih h
  | case3 c t name hn ih =>
    obtain ⟨hv, ht⟩ := forall_mem_cons.mp h
    simp [replaceAllIn, substitute, hn, expand_of_plain name hv, ih ht]
  | case4 c t hn ih => simp [replaceAllIn, substitute, hn, ih h]

/-! ### Others do not -/

/-- For a plain name a replacement gives fewer special characters than it has itself, unless it has
none. -/
theorem specials_expand (hname : Plain name) (h : expand name v = some w) :
    specials w ≤ specials v ∧ (specials w = specials v → Plain v) := by
  fun_induction expand name v generalizing w with
  | case1 =>
    obtain rfl := Option.some.inj h
    exact ⟨Nat.le_refl _, fun _ => rfl⟩
  | case2 c t ih =>
    -- the backslash is lost
    obtain ⟨w, hw, rfl⟩ := Option.map_eq_some_iff.mp h
    have hle := (ih hw).1
    rw [specials_cons '\\', if_pos (.inl rfl), specials_cons c, specials_cons c]
    omega
  | case4 c t hc g =>
    rename_i ih
    -- the group has no special characters, and the dollar sign is lost
    obtain ⟨w, hw, rfl⟩ := Option.map_eq_some_iff.mp h
    have hle := (ih hw).1
    have hg : specials g.2 ≤ specials t := (group_suffix _ t).sublist.countP_le
    have hp : specials (if g.1 = 0 then '@' :: '@' :: name ++ ['@', '@'] else name) = 0 := by
      split
      · rw [specials_append, specials_cons, specials_cons, hname]
        rfl
      · exact hname
    rw [specials_append, hp, specials_cons '$', if_pos (.inr rfl), specials_cons c]
    omega
  | case7 c t hb hb' hd hd' ih =>
    obtain ⟨w, hw, rfl⟩ := Option.map_eq_some_iff.mp h
    obtain ⟨hle, heq⟩ := ih hw
    have hc : ¬(c = '\\' ∨ c = '$') := by
      cases t with
      | nil => exact not_or.mpr ⟨(hb' · rfl), (hd' · rfl)⟩
      | cons => exact not_or.mpr ⟨(hb _ _ · rfl), (hd _ _ · rfl)⟩
    simpa [Plain, specials_cons, hc] using ⟨hle, heq⟩
  | _ => simp at h

theorem specials_replaceAllIn (hn : ∀ name ∈ findNeedles skip s, Plain name)
    (h : replaceAllIn (fun name => expand name (value ms name)) skip s = some w) :
    specials w ≤ specials (substitute (value ms) skip s) ∧
      (specials w = specials (substitute (value ms) skip s) →
        ∀ name ∈ findNeedles skip s, Plain (value ms name)) := by
  fun_induction findNeedles skip s generalizing w with
  | case1 => simp_all [replaceAllIn, substitute]
  | case2 skip c t ih => exact ih hn h
  | case3 c t name hs ih =>
    obtain ⟨hname, hn⟩ := forall_mem_cons.mp hn
    simp only [replaceAllIn, hs, Option.bind_eq_bind, Option.bind_eq_some_iff, Option.pure_def,
      Option.some.injEq] at h
    obtain ⟨v, hv, w, hw, rfl⟩ := h
    obtain ⟨hle, heq⟩ := specials_expand hname hv
    obtain ⟨hle', heq'⟩ := ih hn hw
    rw [substitute, hs]
    simp only [specials_append]
    exact ⟨by omega, fun he => forall_mem_cons.mpr ⟨heq (by omega), heq' (by omega)⟩⟩
  | case4 c t hs ih =>
    simp only [replaceAllIn, hs, Option.bind_eq_bind, Option.bind_eq_some_iff, Option.pure_def,
      Option.some.injEq] at h
    obtain ⟨w, hw, rfl⟩ := h
    simpa [substitute, hs, specials_cons] using ih hn hw

/-- **Needles are replaced by what the map has if** the strings for the needles of the text have no
backslashes and dollar signs, and if the names have none then only if. A name that has some may be
what a reference to it stands for. -/
theorem interpolate_exact_iff (ms : List Char → Option (List Char)) (s : List Char) :
    ((∀ name ∈ findNeedles 0 s, Plain (value ms name)) →
      interpolate ms s = some (substitute (value ms) 0 s)) ∧
    ((∀ name ∈ findNeedles 0 s, Plain name) →
      interpolate ms s = some (substitute (value ms) 0 s) →
        ∀ name ∈ findNeedles 0 s, Plain (value ms name)) :=
  ⟨replaceAllIn_of_plain, fun hn h => (specials_replaceAllIn hn h).2 rfl⟩

theorem dollar_refused :
    interpolate (fun _ => some ['$', 'x']) ['@', '@', 'n', '@', '@'] = none := by
  decide +kernel

end Tapasco.Template
