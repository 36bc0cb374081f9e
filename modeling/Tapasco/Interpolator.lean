import Mathlib.Algebra.Order.Field.Basic
import Mathlib.Data.List.Sort
import Mathlib.Tactic.Linarith

/-!
# Interpolation Between Measurements

`LinearInterpolator` extends measurements at some keys to all keys. It searches the two keys around
the query in the sorted list of keys and leaves the rest to an abstract function; benchmarks use
two such functions. `none` stands for an exception. A `Double` is a rational number here.
-/

open List

namespace Tapasco.Interpolator

variable {A B : Type} [LinearOrder A]

def findPos (a : A) : List A → Option (A × A)
  | ll :: lr :: ls =>
    if lr ≤ a then findPos a (lr :: ls)
    else if ll ≤ a ∧ a ≤ lr then some (ll, lr)
    else none
  | [lr] => some (lr, lr)
  | [] => none

/-- `dmp(a)`: later entries of the data replace earlier ones. -/
def dmp (data : List (A × B)) (a : A) : Option B :=
  data.reverse.lookup a

def apply (interpolate : A → A × B → A × B → B) (data : List (A × B)) (a : A) : Option B := do
  let least ← (data.map Prod.fst).min?
  let greatest ← (data.map Prod.fst).max?
  if a ≤ least then dmp data least
  else if greatest ≤ a then dmp data greatest
  else
    let pos ← findPos a ((data.map Prod.fst).insertionSort (· ≤ ·))
    if pos.1 = pos.2 then dmp data pos.2
    else return interpolate a (pos.1, ← dmp data pos.1) (pos.2, ← dmp data pos.2)

/-- The query is answered with the value of the smallest key up to there, with the value of the
largest key from there on, and between them with an interpolation between the two keys next to
it. -/
def Answered (interpolate : A → A × B → A × B → B) (data : List (A × B)) (a : A) : Prop :=
  (∃ p ∈ data, (∀ q ∈ data, p.1 ≤ q.1) ∧ a ≤ p.1 ∧ apply interpolate data a = some p.2) ∨
  (∃ p ∈ data, (∀ q ∈ data, q.1 ≤ p.1) ∧ p.1 ≤ a ∧ apply interpolate data a = some p.2) ∨
  (∃ p ∈ data, p.1 < a) ∧ ∃ l ∈ data, ∃ r ∈ data, l.1 ≤ a ∧ a < r.1 ∧
    (∀ q ∈ data, q.1 ≤ l.1 ∨ r.1 ≤ q.1) ∧ apply interpolate data a = some (interpolate a l r)

theorem findPos_spec {a l : A} {ls : List A} (hs : (l :: ls).Pairwise (· ≤ ·)) (hl : l ≤ a)
    (hex : ∃ x ∈ ls, a < x) :
    ∃ ll ∈ l :: ls, ∃ lr ∈ l :: ls, findPos a (l :: ls) = some (ll, lr) ∧ ll ≤ a ∧ a < lr ∧
      ∀ x ∈ l :: ls, x ≤ ll ∨ lr ≤ x := by
  induction ls generalizing l with
  | nil => simp at hex
  | cons lr ls ih =>
    obtain ⟨hle, hs'⟩ := pairwise_cons.mp hs
    by_cases hlr : lr ≤ a
    · have hex' : ∃ x ∈ ls, a < x := by
        obtain ⟨x, hx, hax⟩ := hex
        rcases mem_cons.mp hx with rfl | hx
        · exact absurd hlr (not_le.mpr hax)
        · exact ⟨x, hx, hax⟩
      obtain ⟨p, hp, q, hq, heq, hpa, haq, hx⟩ := ih hs' hlr hex'
      refine ⟨p, mem_cons_of_mem _ hp, q, mem_cons_of_mem _ hq, ?_, hpa, haq,
        forall_mem_cons.mpr ⟨.inl (hle p hp), hx⟩⟩
      rw [findPos, if_pos hlr, heq]
    · have halr := not_le.mp hlr
      refine ⟨l, mem_cons_self, lr, mem_cons_of_mem _ mem_cons_self, ?_, hl, halr,
        forall_mem_cons.mpr ⟨.inl le_rfl, forall_mem_cons.mpr ⟨.inr le_rfl, fun x hx =>
          .inr ((pairwise_cons.mp hs').1 x hx)⟩⟩⟩
      rw [findPos, if_neg hlr, if_pos ⟨hl, halr.le⟩]

variable {data : List (A × B)}

theorem dmp_of_mem (hn : (data.map Prod.fst).Nodup) {p : A × B} (hp : p ∈ data) :
    dmp data p.1 = some p.2 := by
  obtain ⟨l₁, l₂, heq⟩ := append_of_mem (mem_reverse.mpr hp)
  rw [dmp, lookup_eq_some_iff]
  refine ⟨l₁, l₂, heq, fun q hq => ?_⟩
  rw [← nodup_reverse, ← map_reverse, heq, map_append, nodup_append'] at hn
  exact bne_iff_ne.mpr fun h => hn.2.2 (mem_map_of_mem hq) (h ▸ mem_map_of_mem mem_cons_self)

theorem answered (interpolate : A → A × B → A × B → B) (hne : data ≠ [])
    (hn : (data.map Prod.fst).Nodup) (a : A) : Answered interpolate data a := by
  have hk : data.map Prod.fst ≠ [] := mt map_eq_nil_iff.mp hne
  obtain ⟨least, hmin⟩ := Option.isSome_iff_exists.mp (isSome_min?_of_ne_nil hk)
  obtain ⟨greatest, hmax⟩ := Option.isSome_iff_exists.mp (isSome_max?_of_ne_nil hk)
  obtain ⟨hml, hle⟩ := min?_eq_some_iff.mp hmin
  obtain ⟨hmg, hge⟩ := max?_eq_some_iff.mp hmax
  simp only [Answered, apply, hmin, hmax, Option.bind_eq_bind, Option.bind_some]
  obtain ⟨p, hp, rfl⟩ := mem_map.mp hml
  obtain ⟨q, hq, rfl⟩ := mem_map.mp hmg
  rcases le_or_gt a p.1 with hap | hpa
  · exact .inl ⟨p, hp, forall_mem_map.mp hle, hap, by rw [if_pos hap, dmp_of_mem hn hp]⟩
  rcases le_or_gt q.1 a with hqa | haq
  · refine .inr (.inl ⟨q, hq, forall_mem_map.mp hge, hqa, ?_⟩)
    rw [if_neg (not_le.mpr hpa), if_pos hqa, dmp_of_mem hn hq]
  have hmem : ∀ {k}, k ∈ (data.map Prod.fst).insertionSort (· ≤ ·) ↔ k ∈ data.map Prod.fst :=
    mem_insertionSort (· ≤ ·)
  have hs := pairwise_insertionSort (· ≤ ·) (data.map Prod.fst)
  cases hls : (data.map Prod.fst).insertionSort (· ≤ ·) with
  | nil => exact absurd (hls ▸ hmem.mpr hml) not_mem_nil
  | cons l ls =>
    rw [hls] at hs hmem
    have hla : l ≤ a := by
      rcases mem_cons.mp (hmem.mpr hml) with h | h
      · exact h ▸ hpa.le
      · exact ((pairwise_cons.mp hs).1 _ h).trans hpa.le
    have hex : ∃ x ∈ ls, a < x :=
      ⟨q.1, (mem_cons.mp (hmem.mpr hmg)).resolve_left (hla.trans_lt haq).ne', haq⟩
    obtain ⟨ll, hll, lr, hlr, heq, hlla, halr, hx⟩ := findPos_spec hs hla hex
    obtain ⟨x, hxd, rfl⟩ := mem_map.mp (hmem.mp hll)
    obtain ⟨y, hyd, rfl⟩ := mem_map.mp (hmem.mp hlr)
    refine .inr (.inr ⟨⟨p, hp, hpa⟩, x, hxd, y, hyd, hlla, halr,
      fun z hz => hx _ (hmem.mpr (mem_map_of_mem hz)), ?_⟩)
    rw [if_neg (not_le.mpr hpa), if_neg (not_le.mpr haq), heq, Option.bind_some,
      if_neg (hlla.trans_lt halr).ne, dmp_of_mem hn hxd, dmp_of_mem hn hyd]
    rfl

/-! ### Benchmarks -/

/-- The interpolation function of `LatencyInterpolator`, and of each component of
`TransferSpeedInterpolator`. -/
def linear (x : ℤ) (left right : ℤ × ℚ) : ℚ :=
  (x - left.1) / (right.1 - left.1) * (right.2 - left.2) + left.2

def transferSpeed (cs : ℤ) (left right : ℤ × ℚ × ℚ × ℚ) : ℚ × ℚ × ℚ :=
  (linear cs (left.1, left.2.1) (right.1, right.2.1),
    linear cs (left.1, left.2.2.1) (right.1, right.2.2.1),
    linear cs (left.1, left.2.2.2) (right.1, right.2.2.2))

def Between (x y z : ℚ) : Prop :=
  min x y ≤ z ∧ z ≤ max x y

theorem linear_self (left right : ℤ × ℚ) : linear left.1 left right = left.2 := by
  simp [linear]

theorem between_linear {x : ℤ} {left right : ℤ × ℚ} (hl : left.1 ≤ x) (hr : x < right.1) :
    Between left.2 right.2 (linear x left right) := by
  have hd : (0 : ℚ) < right.1 - left.1 := sub_pos.mpr (Int.cast_lt.mpr (hl.trans_lt hr))
  have h0 : 0 ≤ ((x : ℚ) - left.1) / (right.1 - left.1) :=
    div_nonneg (sub_nonneg.mpr (Int.cast_le.mpr hl)) hd.le
  have h1 : ((x : ℚ) - left.1) / (right.1 - left.1) ≤ 1 := by
    rw [div_le_one hd]
    exact sub_le_sub_right (Int.cast_le.mpr hr.le) _
  rw [Between, linear]
  generalize ((x : ℚ) - left.1) / (right.1 - left.1) = f at h0 h1
  rcases le_total left.2 right.2 with h | h
  · rw [min_eq_left h, max_eq_right h]
    constructor <;> nlinarith
  · rw [min_eq_right h, max_eq_left h]
    constructor <;> nlinarith

/-- **Every query is answered from the measurements next to it**, without an exception. Functions
that return the left value at the left key give the measured value at each key; those of the
benchmarks do so, and their results lie between the two values. -/
theorem apply_exact (interpolate : A → A × B → A × B → B) (data : List (A × B)) (hne : data ≠ [])
    (hn : (data.map Prod.fst).Nodup) :
    (∀ a, Answered interpolate data a) ∧
      ((∀ l r, interpolate l.1 l r = l.2) → ∀ p ∈ data, apply interpolate data p.1 = some p.2) ∧
      ∀ x : ℤ,
        (∀ l r, linear l.1 l r = l.2 ∧
          (l.1 ≤ x → x < r.1 → Between l.2 r.2 (linear x l r))) ∧
        ∀ l r, transferSpeed l.1 l r = l.2 ∧ (l.1 ≤ x → x < r.1 →
          Between l.2.1 r.2.1 (transferSpeed x l r).1 ∧
          Between l.2.2.1 r.2.2.1 (transferSpeed x l r).2.1 ∧
          Between l.2.2.2 r.2.2.2 (transferSpeed x l r).2.2) := by
  have ha := answered interpolate hne hn
  refine ⟨ha, fun hi p hp => ?_, fun x => ⟨fun l r => ⟨linear_self l r, between_linear⟩,
    fun l r => ⟨by simp [transferSpeed, linear], fun hl hr =>
      ⟨between_linear hl hr, between_linear hl hr, between_linear hl hr⟩⟩⟩⟩
  rcases ha p.1 with
    ⟨q, hq, hle, hpq, heq⟩ | ⟨q, hq, hge, hqp, heq⟩ | ⟨-, l, hl, r, hr, hlp, hpr, hx, heq⟩
  · rw [heq, inj_on_of_nodup_map hn hq hp (le_antisymm (hle p hp) hpq)]
  · rw [heq, inj_on_of_nodup_map hn hq hp (le_antisymm hqp (hge p hp))]
  · have hpl : p.1 = l.1 := le_antisymm ((hx p hp).resolve_right (not_le.mpr hpr)) hlp
    rw [heq, hpl, hi, inj_on_of_nodup_map hn hp hl hpl]

theorem apply_exact_three : apply linear [(0, 0), (20, 4), (10, 1)] 10 = some 1 :=
  (apply_exact linear [(0, 0), (20, 4), (10, 1)] (by simp) (by decide)).2.1 linear_self (10, 1)
    (by simp)

/-- At a key between others an arbitrary function need not return what was measured. -/
theorem inner_key_interpolated : apply (fun _ _ _ => 7) [(0, 0), (1, 1), (2, 2)] 1 ≠ some 1 := by
  decide

end Tapasco.Interpolator
