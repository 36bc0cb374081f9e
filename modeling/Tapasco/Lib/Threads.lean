import Mathlib.Algebra.Order.BigOperators.Group.List
import Mathlib.Algebra.Order.Group.Nat
import Mathlib.Algebra.GroupWithZero.Nat

/-!
# Threads

The threads of a system are a list of local states: thread `t` is the one at index `t`, a
step of it replaces its state, and a new thread is appended. An invariant that adds up what
the threads contribute to a count changes with a step only by the contribution of the
thread that makes it.
-/

open List

namespace Threads

variable {τ β : Type*} {threads : List τ} {t u : ℕ} {c d e : τ}

theorem lt_of_getElem? (h : threads[t]? = some c) : t < threads.length :=
  (List.getElem?_eq_some_iff.mp h).1

/-- What all threads together contribute to a count. -/
def total (f : τ → ℕ) (threads : List τ) : ℕ :=
  (threads.map f).sum

/-- **A step** changes a total by the contribution of its thread. -/
theorem total_set (f : τ → ℕ) (h : threads[t]? = some c) :
    total f (threads.set t d) + f c = total f threads + f d := by
  induction threads generalizing t with
  | nil => simp at h
  | cons a threads ih =>
    cases t with
    | zero =>
      simp only [getElem?_cons_zero, Option.some.injEq] at h
      subst h
      simp only [total, set_cons_zero, map_cons, sum_cons]
      omega
    | succ t =>
      rw [getElem?_cons_succ] at h
      have hr := ih h
      simp only [total, set_cons_succ, map_cons, sum_cons] at hr ⊢
      omega

theorem total_concat (f : τ → ℕ) (threads : List τ) (c : τ) :
    total f (threads ++ [c]) = total f threads + f c := by
  simp [total]

theorem total_eq_zero {f : τ → ℕ} (h : ∀ c ∈ threads, f c = 0) : total f threads = 0 := by
  refine sum_eq_zero fun n hn => ?_
  obtain ⟨c, hc, rfl⟩ := mem_map.mp hn
  exact h c hc

theorem forall_concat {P : τ → Prop} (h : ∀ c ∈ threads, P c) (hc : P c) :
    ∀ d ∈ threads ++ [c], P d :=
  forall_mem_append.mpr ⟨h, forall_mem_singleton.mpr hc⟩

theorem forall_set {P : τ → Prop} (h : ∀ c ∈ threads, P c) (hd : P d) :
    ∀ e ∈ threads.set t d, P e := by
  intro e he
  obtain ho | rfl := mem_or_eq_of_mem_set he
  · exact h e ho
  · exact hd

theorem getElem?_set_cases (h : (threads.set t d)[u]? = some e) :
    u = t ∧ e = d ∨ u ≠ t ∧ threads[u]? = some e := by
  by_cases hut : u = t
  · subst hut
    rw [getElem?_set_self'] at h
    obtain ⟨a, -, rfl⟩ := Option.map_eq_some_iff.mp h
    exact .inl ⟨rfl, rfl⟩
  · rw [getElem?_set_ne (Ne.symm hut)] at h
    exact .inr ⟨hut, h⟩

theorem getElem?_concat_cases (h : (threads ++ [c])[u]? = some d) :
    u = threads.length ∧ d = c ∨ threads[u]? = some d := by
  rcases lt_trichotomy u threads.length with hlt | rfl | hgt
  · rw [getElem?_append_left hlt] at h
    exact .inr h
  · rw [getElem?_concat_length, Option.some.injEq] at h
    exact .inl ⟨rfl, h.symm⟩
  · rw [getElem?_eq_none (by simpa using Nat.succ_le_of_lt hgt)] at h
    simp at h

theorem flatMap_set_of_eq {f : τ → List β} (h : threads[t]? = some c) (heq : f d = f c) :
    (threads.set t d).flatMap f = threads.flatMap f := by
  induction threads generalizing t with
  | nil => rfl
  | cons a threads ih =>
    cases t with
    | zero =>
      simp only [getElem?_cons_zero, Option.some.injEq] at h
      subst h
      rw [set_cons_zero, flatMap_cons, flatMap_cons, heq]
    | succ t => rw [set_cons_succ, flatMap_cons, flatMap_cons, ih h]

theorem flatMap_eq_of_unique {f : τ → List β} (h : threads[t]? = some c)
    (ho : ∀ u d, u ≠ t → threads[u]? = some d → f d = []) : threads.flatMap f = f c := by
  induction threads generalizing t with
  | nil => simp at h
  | cons a threads ih =>
    rw [flatMap_cons]
    cases t with
    | zero =>
      simp only [getElem?_cons_zero, Option.some.injEq] at h
      subst h
      rw [flatMap_eq_nil_iff.mpr fun d hd => ?_, append_nil]
      obtain ⟨u, hu⟩ := getElem?_of_mem hd
      exact ho (u + 1) d (by omega) hu
    | succ t =>
      have ha : f a = [] := ho 0 a (by omega) rfl
      rw [ha, nil_append]
      exact ih h fun u d hut hu => ho (u + 1) d (by omega) hu

theorem total_eq_of_unique {f : τ → ℕ} (h : threads[t]? = some c)
    (ho : ∀ u d, u ≠ t → threads[u]? = some d → f d = 0) : total f threads = f c := by
  have hun := flatMap_eq_of_unique (f := fun d => List.replicate (f d) ()) h
    fun u d hut hu => by rw [ho u d hut hu, replicate_zero]
  have hl := congrArg List.length hun
  rw [length_flatMap, length_replicate] at hl
  simpa [total] using hl

theorem elim_concat {f : τ → List β} (hf : f c = []) (threads : List τ) (u : ℕ) :
    ((threads ++ [c])[u]?).elim [] f = (threads[u]?).elim [] f := by
  rcases lt_trichotomy u threads.length with hlt | rfl | hgt
  · rw [getElem?_append_left hlt]
  · rw [getElem?_concat_length, getElem?_eq_none (le_refl _)]
    exact hf
  · rw [getElem?_eq_none (le_of_lt hgt), getElem?_eq_none (by rw [length_append]; exact hgt)]

/-! ### A lock -/

section Lock

variable {lock lock' : Option ℕ} {f : τ → Bool}

/-- The holder of the lock works under it. -/
def Held (lock : Option ℕ) (f : τ → Bool) (threads : List τ) : Prop :=
  ∀ u, lock = some u → ∃ e, threads[u]? = some e ∧ f e = true

/-- Who works under the lock holds it. -/
def Exclusive (lock : Option ℕ) (f : τ → Bool) (threads : List τ) : Prop :=
  ∀ u e, threads[u]? = some e → f e = true → lock = some u

/-- A step frees the lock, takes it, or leaves it alone. -/
theorem held_set (h : Held lock f threads) (hc : threads[t]? = some c)
    (hst : lock' = none ∨ lock' = some t ∧ f d = true ∨ lock' = lock ∧ f d = f c) :
    Held lock' f (threads.set t d) := by
  have hs : (threads.set t d)[t]? = some d := getElem?_set_self (lt_of_getElem? hc)
  intro u hu
  obtain hn | ⟨hso, hh⟩ | ⟨hsa, hh⟩ := hst
  · exact absurd (hn.symm.trans hu) (by simp)
  · obtain rfl : t = u := Option.mem_unique hso hu
    exact ⟨d, hs, hh⟩
  · obtain ⟨e, he, hho⟩ := h u (hsa ▸ hu)
    by_cases hut : u = t
    · subst hut
      obtain rfl : c = e := Option.mem_unique hc he
      exact ⟨d, hs, hh.trans hho⟩
    · exact ⟨e, (getElem?_set_ne (Ne.symm hut)).trans he, hho⟩

theorem getElem?_concat_of_some (h : threads[t]? = some c) (d : τ) :
    (threads ++ [d])[t]? = some c :=
  (getElem?_append_left (lt_of_getElem? h)).trans h

theorem held_concat (h : Held lock f threads) (c : τ) : Held lock f (threads ++ [c]) := by
  intro u hu
  obtain ⟨e, he, hh⟩ := h u hu
  exact ⟨e, getElem?_concat_of_some he c, hh⟩

/-- When nobody works under the lock, it is free. -/
theorem lock_eq_none (h : Held lock f threads)
    (hn : ∀ (u : ℕ) e, threads[u]? = some e → f e = false) : lock = none := by
  by_contra hl
  obtain ⟨u, hu⟩ := Option.ne_none_iff_exists'.mp hl
  obtain ⟨e, he, hh⟩ := h u hu
  exact absurd ((hn u e he).symm.trans hh) Bool.false_ne_true

theorem lock_eq_none_of_others (h : Held lock f threads) (hc : threads[t]? = some c)
    (hn : f c = false) (ho : ∀ u d, threads[u]? = some d → u ≠ t → f d = false) : lock = none := by
  refine lock_eq_none h fun u e he => ?_
  by_cases hut : u = t
  · subst hut
    obtain rfl : c = e := Option.mem_unique hc he
    exact hn
  · exact ho u e he hut

/-- A step that works under the lock only with it, and takes it from nobody else. -/
theorem exclusive_set (h : Exclusive lock f threads) (hs : f d = true → lock' = some t)
    (ho : ∀ u, u ≠ t → lock = some u → lock' = some u) : Exclusive lock' f (threads.set t d) := by
  intro u e he hh
  rcases getElem?_set_cases he with ⟨rfl, rfl⟩ | ⟨hut, he⟩
  · exact hs hh
  · exact ho u hut (h u e he hh)

theorem exclusive_concat (h : Exclusive lock f threads) (hc : f c = false) :
    Exclusive lock f (threads ++ [c]) := by
  intro u e he hh
  rcases getElem?_concat_cases he with ⟨-, rfl⟩ | he
  · exact absurd (hc.symm.trans hh) Bool.false_ne_true
  · exact h u e he hh

end Lock

/-! ### Counts by a key -/

section Share

variable {κ : Type*} [DecidableEq κ] (key : τ → κ)

/-- What a thread contributes to a count among the threads with the key `k`. -/
def share (k : κ) (f : τ → ℕ) (c : τ) : ℕ :=
  if key c = k then f c else 0

variable {key}

theorem total_share_of_ne (h : threads[t]? = some c) (hke : key d = key c) (f : τ → ℕ) {k : κ}
    (hk : k ≠ key c) : total (share key k f) (threads.set t d) = total (share key k f) threads := by
  have hs := total_set (share key k f) h (d := d)
  have hz : share key k f c = 0 := if_neg (Ne.symm hk)
  have hz' : share key k f d = 0 := if_neg (hke ▸ Ne.symm hk)
  omega

theorem total_share_self (h : threads[t]? = some c) (hk : key d = key c) (f : τ → ℕ) :
    total (share key (key c) f) (threads.set t d) + f c =
      total (share key (key c) f) threads + f d := by
  have hs := total_set (share key (key c) f) h (d := d)
  have hse : share key (key c) f c = f c := if_pos rfl
  have hs' : share key (key c) f d = f d := if_pos hk
  omega

/-- What holds of every key with its total, also after a step of a thread that concerns no
other key. -/
theorem forall_share_set {γ : Type*} {ch ch' : κ → γ} {f : τ → ℕ} {P : γ → ℕ → Prop}
    (h : ∀ k, P (ch k) (total (share key k f) threads)) (hc : threads[t]? = some c)
    (hke : key d = key c) (ho : ∀ {k}, k ≠ key c → ch' k = ch k)
    (hs : ∀ n n', n' + f c = n + f d → P (ch (key c)) n → P (ch' (key c)) n') (k : κ) :
    P (ch' k) (total (share key k f) (threads.set t d)) := by
  by_cases hk : k = key c
  · subst hk
    exact hs _ _ (total_share_self hc hke f) (h _)
  · rw [ho hk, total_share_of_ne hc hke f hk]
    exact h k

/-- What holds of every entry still holds where only one of them is changed. -/
theorem forall_of_changed_at {γ : Type*} {ch ch' : κ → γ} {P : κ → γ → Prop} {k₀ : κ}
    (ho : ∀ {k}, k ≠ k₀ → ch' k = ch k) (hs : P k₀ (ch' k₀)) (h : ∀ k, k ≠ k₀ → P k (ch k))
    (k : κ) : P k (ch' k) := by
  by_cases hk : k = k₀
  · exact hk ▸ hs
  · exact (ho hk).symm ▸ h k hk

theorem share_eq_zero {f : τ → ℕ} (hf : f c = 0) (k : κ) : share key k f c = 0 := by
  rw [share, hf, ite_self]

theorem total_share_concat {f : τ → ℕ} (hf : f c = 0) (k : κ) (threads : List τ) :
    total (share key k f) (threads ++ [c]) = total (share key k f) threads := by
  rw [total_concat, share_eq_zero hf, add_zero]

theorem le_total_share (h : threads[t]? = some c) (f : τ → ℕ) :
    f c ≤ total (share key (key c) f) threads := by
  have hm : share key (key c) f c ∈ threads.map (share key (key c) f) :=
    mem_map_of_mem (mem_of_getElem? h)
  have hs : share key (key c) f c = f c := if_pos rfl
  rw [← hs]
  exact single_le_sum (fun _ _ => Nat.zero_le _) _ hm

/-- A thread that is the only one to contribute. -/
theorem total_share_of_unique {f : τ → ℕ} (h : threads[t]? = some c)
    (ho : ∀ u d, u ≠ t → threads[u]? = some d → f d = 0) :
    total (share key (key c) f) threads = f c := by
  rw [total_eq_of_unique h fun u d hut hd => share_eq_zero (ho u d hut hd) _]
  exact if_pos rfl

end Share

end Threads
