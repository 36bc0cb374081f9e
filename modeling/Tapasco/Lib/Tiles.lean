import Mathlib.Data.Nat.ModEq

/-!
# Loops that Cut an Index Range into Pieces

Batching code walks over the indices of an array with a loop that takes several of them at a
time. `tiles len stop i` are the pieces such a loop takes from `i` to `stop`, each as its first
index and its length, where `len` says how many indices are taken next. A common way to choose
the length is to go on as long as the next index still belongs to the piece and a limit is not
reached: `extend`.
-/

open List

namespace Tiles

/-- The pieces from `i` to `stop`. -/
def tiles (stop : ℕ) (len : (i : ℕ) → i < stop → {n : ℕ // 0 < n}) (i : ℕ) : List (ℕ × ℕ) :=
  if h : i < stop then (i, len i h) :: tiles stop len (i + len i h) else []
termination_by stop - i
decreasing_by
  have := (len i h).2
  omega

/-- How many indices the piece that starts at `i` has, if it has `n` already. -/
def extend (more : ℕ → Bool) (limit stop i n : ℕ) : ℕ :=
  if i + n < stop ∧ n < limit ∧ more (i + n) = true then extend more limit stop i (n + 1) else n
termination_by stop - (i + n)

section

variable {stop i : ℕ} {len : (i : ℕ) → i < stop → {n : ℕ // 0 < n}}

theorem tiles_of_lt (h : i < stop) :
    tiles stop len i = (i, (len i h).1) :: tiles stop len (i + len i h) := by
  rw [tiles, dif_pos h]

theorem tiles_of_le (h : stop ≤ i) : tiles stop len i = [] := by
  rw [tiles, dif_neg (not_lt.mpr h)]

variable (hl : ∀ i h, i + len i h ≤ stop)
include hl

theorem mem_tiles {g : ℕ × ℕ} (hg : g ∈ tiles stop len i) :
    i ≤ g.1 ∧ g.1 + g.2 ≤ stop ∧ ∃ h, g.2 = len g.1 h := by
  induction i using tiles.induct stop len with
  | case1 i h ih =>
    rw [tiles_of_lt h, mem_cons] at hg
    rcases hg with rfl | hg
    · exact ⟨le_rfl, hl i h, h, rfl⟩
    · obtain ⟨hle, hr⟩ := ih hg
      exact ⟨(Nat.le_add_right _ _).trans hle, hr⟩
  | case2 i h =>
    rw [tiles_of_le (not_lt.mp h)] at hg
    exact absurd hg not_mem_nil

/-- **Every index once**: the indices of the pieces are those of the range. -/
theorem flatMap_tiles {α : Type*} (f : ℕ → α) :
    ((tiles stop len i).flatMap fun g => (List.range g.2).map fun k => f (g.1 + k)) =
      (List.range (stop - i)).map fun k => f (i + k) := by
  induction i using tiles.induct stop len with
  | case1 i h ih =>
    have hle := hl i h
    have hs : stop - i = len i h + (stop - (i + len i h)) := by omega
    rw [tiles_of_lt h, flatMap_cons, ih, hs, range_add, map_append, map_map]
    simp only [Function.comp_def, add_assoc]
  | case2 i h =>
    rw [tiles_of_le (not_lt.mp h), Nat.sub_eq_zero_of_le (not_lt.mp h)]
    rfl

theorem flatMap_tiles_zero {α : Type*} (f : ℕ → α) :
    ((tiles stop len 0).flatMap fun g => (List.range g.2).map fun k => f (g.1 + k)) =
      (List.range stop).map f := by
  rw [flatMap_tiles hl]
  simp only [zero_add, Nat.sub_zero]

theorem exists_mem_tiles {j : ℕ} (hij : i ≤ j) (hj : j < stop) :
    ∃ g ∈ tiles stop len i, ∃ k < g.2, j = g.1 + k := by
  have hm : j ∈ (List.range (stop - i)).map fun k => i + k :=
    mem_map.mpr ⟨j - i, List.mem_range.mpr (by omega), by omega⟩
  have ht := flatMap_tiles (i := i) hl fun k => k
  rw [← ht] at hm
  obtain ⟨g, hg, hm⟩ := mem_flatMap.mp hm
  obtain ⟨k, hk, rfl⟩ := mem_map.mp hm
  exact ⟨g, hg, k, List.mem_range.mp hk, rfl⟩

theorem exists_index {α : Type*} (f : ℕ × ℕ → ℕ → α) :
    ∃ F : ℕ → α, ∀ g ∈ tiles stop len i, ∀ k < g.2, F (g.1 + k) = f g k := by
  induction i using tiles.induct stop len with
  | case1 i h ih =>
    obtain ⟨F, hF⟩ := ih
    refine ⟨fun j => if j < i + len i h then f (i, len i h) (j - i) else F j, ?_⟩
    rw [tiles_of_lt h, forall_mem_cons]
    refine ⟨fun k hk => ?_, fun g hg k hk => ?_⟩
    · simp only [if_pos (Nat.add_lt_add_left hk i), Nat.add_sub_cancel_left]
    · have hge := (mem_tiles hl hg).1
      simp only [if_neg (not_lt.mpr (hge.trans (Nat.le_add_right g.1 k))), hF g hg k hk]
  | case2 i h =>
    refine ⟨f (0, 0), fun g hg => ?_⟩
    rw [tiles_of_le (not_lt.mp h)] at hg
    exact absurd hg not_mem_nil

end

theorem flatMap_tiles_eq_iff {α : Type*} (gs : List (ℕ × ℕ)) (f f' : ℕ × ℕ → ℕ → α) :
    ((gs.flatMap fun g => (List.range g.2).map (f g)) =
        gs.flatMap fun g => (List.range g.2).map (f' g)) ↔ ∀ g ∈ gs, ∀ k < g.2, f g k = f' g k := by
  induction gs with
  | nil => simp
  | cons g gs ih =>
    rw [flatMap_cons, flatMap_cons, append_eq_append_iff_of_size_eq_left (by simp),
      ih, forall_mem_cons]
    refine and_congr_left fun _ => ?_
    rw [map_inj_left]
    exact forall_congr' fun k => imp_congr_left List.mem_range

/-! ### Pieces that go on as long as they can -/

section

variable {more : ℕ → Bool} {limit stop i n : ℕ}

theorem le_extend : n ≤ extend more limit stop i n := by
  fun_induction extend more limit stop i n with
  | case1 n h ih => exact (Nat.le_succ n).trans ih
  | case2 n h => exact le_rfl

theorem extend_le_limit (h : n ≤ limit) : extend more limit stop i n ≤ limit := by
  fun_induction extend more limit stop i n with
  | case1 n hg ih => exact ih hg.2.1
  | case2 n hs => exact h

theorem add_extend_le (h : i + n ≤ stop) : i + extend more limit stop i n ≤ stop := by
  fun_induction extend more limit stop i n with
  | case1 n hg ih => exact ih hg.1
  | case2 n hs => exact h

theorem more_of_lt_extend {k : ℕ} (hn : n ≤ k) (hk : k < extend more limit stop i n) :
    more (i + k) = true := by
  fun_induction extend more limit stop i n with
  | case1 n hg ih =>
    rcases lt_or_eq_of_le hn with hlt | rfl
    · exact ih hlt hk
    · exact hg.2.2
  | case2 n hs => omega

theorem extend_maximal :
    ¬ (i + extend more limit stop i n < stop ∧ extend more limit stop i n < limit ∧
      more (i + extend more limit stop i n) = true) := by
  fun_induction extend more limit stop i n with
  | case1 n hg ih => exact ih
  | case2 n hs => exact hs

theorem extend_congr {more' : ℕ → Bool}
    (h : ∀ k, n ≤ k → (∀ j, n ≤ j → j < k → more (i + j) = true) → more (i + k) = more' (i + k)) :
    extend more limit stop i n = extend more' limit stop i n := by
  induction n using extend.induct more limit stop i with
  | case1 n hg ih =>
    have hn := h n le_rfl fun j hj hlt => absurd hlt (not_lt.mpr hj)
    have hg' : i + n < stop ∧ n < limit ∧ more' (i + n) = true := hn ▸ hg
    rw [extend, if_pos hg, ih fun k hk hb => ?_]
    · conv_rhs => rw [extend, if_pos hg']
    · refine h k ((Nat.le_succ n).trans hk) fun j hj hlt => ?_
      rcases lt_or_eq_of_le hj with hj | rfl
      · exact hb j hj hlt
      · exact hg.2.2
  | case2 n hs =>
    have hn := h n le_rfl fun j hj hlt => absurd hlt (not_lt.mpr hj)
    rw [extend, if_neg hs, extend, if_neg (hn ▸ hs)]

end

/-- The length of the piece that starts at `i`. -/
def run (more : ℕ → ℕ → Bool) (limit stop i : ℕ) (_ : i < stop) : {n : ℕ // 0 < n} :=
  ⟨extend (more i) limit stop i 1, le_extend⟩

/-- The pieces of a loop that extends each as far as it can. -/
def groups (more : ℕ → ℕ → Bool) (limit stop i : ℕ) : List (ℕ × ℕ) :=
  tiles stop (run more limit stop) i

section

variable {more : ℕ → ℕ → Bool} {limit stop i : ℕ}

theorem add_run_le (i : ℕ) (h : i < stop) : i + (run more limit stop i h : ℕ) ≤ stop :=
  add_extend_le h

theorem flatMap_groups {α : Type*} (f : ℕ → α) :
    ((groups more limit stop i).flatMap fun g => (List.range g.2).map fun k => f (g.1 + k)) =
      (List.range (stop - i)).map fun k => f (i + k) :=
  flatMap_tiles add_run_le f

theorem flatMap_groups_zero {α : Type*} (f : ℕ → α) :
    ((groups more limit stop 0).flatMap fun g => (List.range g.2).map fun k => f (g.1 + k)) =
      (List.range stop).map f :=
  flatMap_tiles_zero add_run_le f

theorem exists_index_groups {α : Type*} (f : ℕ × ℕ → ℕ → α) :
    ∃ F : ℕ → α, ∀ g ∈ groups more limit stop i, ∀ k < g.2, F (g.1 + k) = f g k :=
  exists_index add_run_le f

theorem groups_congr {more' : ℕ → ℕ → Bool}
    (h : ∀ i k, 0 < k → (∀ j, 0 < j → j < k → more i (i + j) = true) →
      more i (i + k) = more' i (i + k)) : groups more limit stop i = groups more' limit stop i := by
  have hr : run more limit stop = run more' limit stop := by
    funext i hi
    exact Subtype.ext (extend_congr (h i))
  rw [groups, groups, hr]

variable {g : ℕ × ℕ} (hg : g ∈ groups more limit stop i)
include hg

theorem mem_groups :
    i ≤ g.1 ∧ g.1 + g.2 ≤ stop ∧ g.2 = extend (more g.1) limit stop g.1 1 := by
  obtain ⟨hle, hs, h, heq⟩ := mem_tiles add_run_le hg
  exact ⟨hle, hs, heq⟩

theorem groups_le_limit (hl : 0 < limit) : g.2 ≤ limit := by
  rw [(mem_groups hg).2.2]
  exact extend_le_limit hl

theorem groups_pos : 0 < g.2 := by
  rw [(mem_groups hg).2.2]
  exact le_extend

theorem more_of_mem_groups {k : ℕ} (hp : 0 < k) (hk : k < g.2) : more g.1 (g.1 + k) = true := by
  rw [(mem_groups hg).2.2] at hk
  exact more_of_lt_extend hp hk

end

/-! ### The first indices of the pieces, without the loop -/

/-- How many indices up to and including `j` follow one another, not counting the first. -/
def rank (adj : ℕ → Bool) : ℕ → ℕ
  | 0 => 0
  | j + 1 => if adj (j + 1) = true then rank adj j + 1 else 0

section

variable {adj : ℕ → Bool} {limit stop : ℕ}

theorem adj_of_not_dvd_rank {j : ℕ} (h : ¬ limit ∣ rank adj j) : adj j = true := by
  cases j with
  | zero => exact absurd (dvd_zero _) h
  | succ j =>
    by_contra hn
    rw [rank, if_neg hn] at h
    exact h (dvd_zero _)

theorem rank_add {i n : ℕ} (h : ∀ k, 0 < k → k < n → adj (i + k) = true) {k : ℕ} (hk : k < n) :
    rank adj (i + k) = rank adj i + k := by
  induction k with
  | zero => rfl
  | succ k ih =>
    have hs := h (k + 1) (Nat.succ_pos k) hk
    rw [← add_assoc] at hs ⊢
    rw [rank, if_pos hs, ih (Nat.lt_of_succ_lt hk), add_assoc]

theorem rank_next {i : ℕ} (hli : 0 < limit) (hi : limit ∣ rank adj i)
    (hlt : i + extend adj limit stop i 1 < stop) :
    limit ∣ rank adj (i + extend adj limit stop i 1) := by
  generalize hn : extend adj limit stop i 1 = n at hlt ⊢
  have hinn : ∀ k, 0 < k → k < n → adj (i + k) = true := fun k hp hk =>
    more_of_lt_extend hp (hn ▸ hk)
  have hp : 1 ≤ n := hn ▸ le_extend
  have hle : n ≤ limit := hn ▸ extend_le_limit hli
  obtain ⟨m, rfl⟩ : ∃ m, n = m + 1 := ⟨n - 1, by omega⟩
  have hm := @extend_maximal adj limit stop i 1
  rw [hn] at hm
  rw [← add_assoc] at hlt ⊢
  rw [rank]
  by_cases ha : adj (i + m + 1) = true
  · have hf : m + 1 = limit := by
      refine le_antisymm hle (not_lt.mp fun hl => hm ⟨hlt, hl, ha⟩)
    rw [if_pos ha, rank_add hinn (Nat.lt_succ_self m), add_assoc, hf]
    exact Nat.dvd_add hi (dvd_refl _)
  · rw [if_neg ha]
    exact dvd_zero limit

/-- **The inner indices** of the pieces are those whose rank is not a multiple of the limit. -/
theorem forall_inner_iff {p : ℕ → Prop} (hli : 0 < limit) {i : ℕ} (hi : limit ∣ rank adj i) :
    (∀ g ∈ groups (fun _ => adj) limit stop i, ∀ k, 0 < k → k < g.2 → p (g.1 + k)) ↔
      ∀ j, i ≤ j → j < stop → ¬ limit ∣ rank adj j → p j := by
  rw [groups]
  induction i using tiles.induct stop (run (fun _ => adj) limit stop) with
  | case1 i h ih =>
    have hl := @add_run_le (fun _ => adj) limit stop i h
    have hp := (run (fun _ => adj) limit stop i h).2
    have hinn : ∀ k, 0 < k → k < (run (fun _ => adj) limit stop i h : ℕ) →
        adj (i + k) = true := fun k hk hlt => more_of_lt_extend hk hlt
    have hle : (run (fun _ => adj) limit stop i h : ℕ) ≤ limit := extend_le_limit hli
    rw [tiles_of_lt h, forall_mem_cons]
    generalize hn : (run (fun _ => adj) limit stop i h : ℕ) = n at *
    have hre : (∀ g ∈ tiles stop (run (fun _ => adj) limit stop) (i + n),
        ∀ k, 0 < k → k < g.2 → p (g.1 + k)) ↔
        ∀ j, i + n ≤ j → j < stop → ¬ limit ∣ rank adj j → p j := by
      by_cases hlt : i + n < stop
      · have he : extend adj limit stop i 1 = n := hn
        have hnex : limit ∣ rank adj (i + extend adj limit stop i 1) :=
          rank_next hli hi (he.symm ▸ hlt)
        exact ih (he ▸ hnex)
      · rw [tiles_of_le (not_lt.mp hlt)]
        exact iff_of_true (fun g hg => absurd hg not_mem_nil) fun j hj hj' => by omega
    rw [hre]
    constructor
    · rintro ⟨hf, hla⟩ j hij hj hr
      by_cases hjn : j < i + n
      · obtain ⟨k, rfl⟩ := Nat.exists_eq_add_of_le hij
        have hk : k < n := by omega
        refine hf k (Nat.pos_of_ne_zero ?_) hk
        rintro rfl
        exact hr hi
      · exact hla j (not_lt.mp hjn) hj hr
    · intro ha
      refine ⟨fun k hk hlt => ha (i + k) (Nat.le_add_right _ _) (by omega) ?_,
        fun j hj => ha j ((Nat.le_add_right _ _).trans hj)⟩
      rw [rank_add hinn hlt, Nat.dvd_add_right hi]
      exact Nat.not_dvd_of_pos_of_lt hk (hlt.trans_le hle)
  | case2 i h =>
    rw [tiles_of_le (not_lt.mp h)]
    exact iff_of_true (fun g hg => absurd hg not_mem_nil) fun j hj hj' => by omega

theorem forall_inner_iff_zero {p : ℕ → Prop} (hli : 0 < limit) :
    (∀ g ∈ groups (fun _ => adj) limit stop 0, ∀ k, 0 < k → k < g.2 → p (g.1 + k)) ↔
      ∀ j < stop, ¬ limit ∣ rank adj j → p j := by
  rw [forall_inner_iff hli (dvd_zero _)]
  exact forall_congr' fun j => forall_prop_of_true (Nat.zero_le j)

end

end Tiles
