import Mathlib.Algebra.Order.Group.Nat

/-!
# A Forward Cursor over a Sorted List

Requests are looked up in a list that is sorted by key, with a cursor that only moves
forward: for each request the cursor advances past the smaller keys, but never past the
last element, and the request is served if the cursor then stands on its key. A cursor is
the list from the current element on.
-/

open List

namespace Cursor

variable {α : Type*} (key : α → ℕ)

/-- Move past the elements with smaller keys, but not past the last element. -/
def advance (s : ℕ) : List α → List α
  | [] => []
  | [a] => [a]
  | a :: b :: l => if key a < s then advance s (b :: l) else a :: b :: l

/-- The element the cursor stands on, if it has the key `s`. -/
def hit (s : ℕ) (c : List α) : List α :=
  match c with
  | [] => []
  | a :: _ => if key a = s then [a] else []

/-- The elements that are served for a list of requests, in order. -/
def serve : List α → List ℕ → List α
  | _, [] => []
  | c, s :: ss => hit key s (advance key s c) ++ serve (advance key s c) ss

variable {key}

theorem advance_suffix (s : ℕ) (c : List α) : advance key s c <:+ c := by
  induction c with
  | nil => exact suffix_rfl
  | cons a c ih =>
    cases c with
    | nil => exact suffix_rfl
    | cons b l =>
      rw [advance]
      split
      · exact ih.trans (suffix_cons a (b :: l))
      · exact suffix_rfl

variable {c : List α} {x : α}

theorem mem_of_mem_hit {s : ℕ} (h : x ∈ hit key s c) : x ∈ c ∧ key x = s := by
  cases c with
  | nil => exact absurd h not_mem_nil
  | cons a l =>
    rw [hit] at h
    split at h
    · rename_i ha
      rw [mem_singleton.mp h]
      exact ⟨mem_cons_self, ha⟩
    · exact absurd h not_mem_nil

theorem mem_of_mem_serve {ss : List ℕ} (h : x ∈ serve key c ss) : x ∈ c := by
  induction ss generalizing c with
  | nil => exact absurd h not_mem_nil
  | cons s ss ih =>
    rw [serve, mem_append] at h
    refine (advance_suffix s c).subset (h.elim (fun h => (mem_of_mem_hit h).1) ih)

/-- The list is strictly sorted by key. -/
def Sorted (key : α → ℕ) (c : List α) : Prop :=
  c.Pairwise fun a b => key a < key b

theorem Sorted.advance (h : Sorted key c) (s : ℕ) : Sorted key (advance key s c) :=
  h.sublist (advance_suffix s c).sublist

theorem Sorted.eq_of_key_eq (h : Sorted key c) {y : α} (hx : x ∈ c) (hy : y ∈ c)
    (hk : key x = key y) : x = y := by
  induction c with
  | nil => exact absurd hx not_mem_nil
  | cons a c ih =>
    obtain ⟨ha, hc⟩ := pairwise_cons.mp h
    rcases mem_cons.mp hx with hxa | hxc <;> rcases mem_cons.mp hy with hya | hyc
    · rw [hxa, hya]
    · exact absurd hk (ne_of_lt (hxa ▸ ha y hyc))
    · exact absurd hk (ne_of_gt (hya ▸ ha x hxc))
    · exact ih hc hxc hyc

/-- **Advancing** keeps the elements whose keys are not smaller, and the last element. -/
theorem mem_advance (h : Sorted key c) {s : ℕ} (hx : x ∈ c) :
    x ∈ advance key s c ↔ s ≤ key x ∨ ∀ y ∈ c, key y ≤ key x := by
  induction c with
  | nil => exact absurd hx not_mem_nil
  | cons a c ih =>
    obtain ⟨ha, hc⟩ := pairwise_cons.mp h
    cases c with
    | nil =>
      obtain rfl := mem_singleton.mp hx
      simp [advance]
    | cons b l =>
      have hab := ha b mem_cons_self
      rw [advance, forall_mem_cons]
      split
      · rename_i hlt
        rcases mem_cons.mp hx with rfl | hx
        · -- the first element is left behind
          refine iff_of_false (fun hm => ?_) ?_
          · exact absurd (ha x ((advance_suffix s _).subset hm)) (lt_irrefl _)
          · rintro (hle | ⟨-, hal⟩)
            · omega
            · exact absurd (hal b mem_cons_self) (by omega)
        · rw [ih hc hx, and_iff_right (le_of_lt (ha x hx))]
      · rename_i hge
        refine iff_of_true hx (.inl ?_)
        rcases mem_cons.mp hx with rfl | hx
        · omega
        · have := ha x hx
          omega

theorem key_lt_of_not_mem_advance (h : Sorted key c) {s : ℕ} {y : α} (hx : x ∈ advance key s c)
    (hy : y ∈ c) (hy' : y ∉ advance key s c) : key y < key x := by
  rw [mem_advance h hy, not_or, not_le] at hy'
  rcases (mem_advance h ((advance_suffix s c).subset hx)).mp hx with hle | hm
  · omega
  · refine lt_of_le_of_ne (hm y hy) fun heq => hy'.2 fun z hz => ?_
    rw [heq]
    exact hm z hz

theorem hit_advance (h : Sorted key c) (hx : x ∈ c) :
    hit key (key x) (advance key (key x) c) = [x] := by
  have hm := (mem_advance h hx).mpr (.inl le_rfl)
  cases had : advance key (key x) c with
  | nil => exact absurd (had ▸ hm) not_mem_nil
  | cons a l =>
    have hs := h.advance (key x)
    rw [had] at hm hs
    have ha : a ∈ advance key (key x) c := had ▸ mem_cons_self
    have hae : a = x := by
      rcases mem_cons.mp hm with heq | hl
      · exact heq.symm
      have hlt := (pairwise_cons.mp hs).1 x hl
      rcases (mem_advance h ((advance_suffix _ c).subset ha)).mp ha with hle | hma
      · omega
      · exact absurd (hma x hx) (by omega)
    rw [hit, hae, if_pos rfl]

/-! ### Which requests are served -/

/-- A request for `s` after one for `t` finds its element: it is not for a smaller key, or
only for one that no other key of the list exceeds. -/
def Findable (key : α → ℕ) (c : List α) (t s : ℕ) : Prop :=
  s < t → ∀ x ∈ c, key x = s → ∀ y ∈ c, key y ≤ s

theorem forall_findable_iff (h : Sorted key c) (t : ℕ) (ss : List ℕ) :
    (∀ s ∈ ss, Findable key c t s) ↔ ∀ x ∈ c, key x ∈ ss → x ∈ advance key t c := by
  constructor
  · intro ha x hx hr
    rw [mem_advance h hx, or_iff_not_imp_left, not_le]
    exact fun hlt => ha _ hr hlt x hx rfl
  · rintro hf s hs hlt x hx rfl
    rcases (mem_advance h hx).mp (hf x hx hs) with hle | hm
    · exact absurd hle (not_le.mpr hlt)
    · exact hm

theorem findable_advance_iff (h : Sorted key c) {t s : ℕ}
    (hfr : ∀ x ∈ c, key x = s → x ∈ advance key t c) (r : ℕ) :
    Findable key (advance key t c) r s ↔ Findable key c r s := by
  have hs : advance key t c ⊆ c := (advance_suffix t c).subset
  constructor
  · intro hf hlt x hx hk y hy
    have hx' := hfr x hx hk
    by_cases hy' : y ∈ advance key t c
    · exact hf hlt x hx' hk y hy'
    · rw [← hk]
      exact (key_lt_of_not_mem_advance h hx' hy hy').le
  · exact fun hf hlt x hx hk y hy => hf hlt x (hs hx) hk y (hs hy)

variable [DecidableEq α]

theorem count_serve_cons (h : Sorted key c) (hx : x ∈ c) (s : ℕ) (ss : List ℕ) :
    (serve key c (s :: ss)).count x =
      (serve key (advance key s c) ss).count x + if s = key x then 1 else 0 := by
  rw [serve, count_append, add_comm]
  congr 1
  split
  · rename_i heq
    rw [heq, hit_advance h hx, count_singleton_self]
  · rename_i hne
    refine count_eq_zero.mpr fun hm => hne ?_
    exact (mem_of_mem_hit hm).2.symm

theorem count_serve_of_not_mem (hx : x ∉ c) (ss : List ℕ) : (serve key c ss).count x = 0 :=
  count_eq_zero.mpr fun hm => hx (mem_of_mem_serve hm)

/-- **When a forward cursor serves everything**: each element once for each request of
its key, exactly when no request follows a greater one, except requests for a key that
no other one exceeds. -/
theorem serve_exact_iff (h : Sorted key c) (ss : List ℕ) :
    (∀ x ∈ c, (serve key c ss).count x = ss.count (key x)) ↔ ss.Pairwise (Findable key c) := by
  induction ss generalizing c with
  | nil => simp [serve]
  | cons t ss ih =>
    -- the first request is served in any case, so only the other ones decide
    have hst : ∀ x ∈ c,
        ((serve key c (t :: ss)).count x = (t :: ss).count (key x) ↔
          (serve key (advance key t c) ss).count x = ss.count (key x)) := by
      intro x hx
      simp only [count_serve_cons h hx, count_cons, beq_iff_eq, add_right_cancel_iff]
    have hp : (∀ x ∈ c, key x ∈ ss → x ∈ advance key t c) →
        (ss.Pairwise (Findable key (advance key t c)) ↔ ss.Pairwise (Findable key c)) :=
      fun hf => List.Pairwise.iff_of_mem fun _ hs =>
        findable_advance_iff h (fun x hx hk => hf x hx (hk ▸ hs)) _
    rw [forall₂_congr hst, pairwise_cons, forall_findable_iff h]
    constructor
    · intro hc
      have hf : ∀ x ∈ c, key x ∈ ss → x ∈ advance key t c := by
        intro x hx hr
        by_contra hb
        have hz := hc x hx
        rw [count_serve_of_not_mem hb] at hz
        exact count_eq_zero.mp hz.symm hr
      refine ⟨hf, (hp hf).mp ((ih (h.advance t)).mp fun x hx => ?_)⟩
      exact hc x ((advance_suffix t c).subset hx)
    · rintro ⟨hf, hpa⟩ x hx
      by_cases hx' : x ∈ advance key t c
      · exact (ih (h.advance t)).mpr ((hp hf).mpr hpa) x hx'
      · rw [count_serve_of_not_mem hx', eq_comm]
        exact count_eq_zero.mpr fun hr => hx' (hf x hx hr)

end Cursor
