import Mathlib.Data.List.Nodup
import Mathlib.Data.List.Perm.Basic

/-!
# Things that Move between Places

A system in which every thing is at one place is a list of things with their places. A step of
it moves one thing to another place. Lists that the system keeps of the things at certain places
then change in one of three ways: a thing stays, enters or leaves. All of this is up to the order
of the lists.
-/

open List

namespace Places

variable {τ P : Type*}

/-- One thing moves from a place to another, and all others stay where they are. -/
def Moves (l l' : List (τ × P)) (t : τ) (a b : P) : Prop :=
  ∃ rest, l.Perm ((t, a) :: rest) ∧ l'.Perm ((t, b) :: rest)

/-- The things that are at certain places. -/
def things (w : P → Bool) (l : List (τ × P)) : List τ :=
  (l.filter fun e => w e.2).map Prod.fst

/-- The things of a list in two parts. -/
theorem things_append (w : P → Bool) (l l' : List (τ × P)) :
    things w (l ++ l') = things w l ++ things w l' := by
  rw [things, filter_append, map_append]
  rfl

variable {w : P → Bool} {t : τ}

/-- A thing at one of the places is in front. -/
theorem things_cons_of_pos {a : P} (h : w a = true) (l : List (τ × P)) :
    things w ((t, a) :: l) = t :: things w l := by
  rw [things, filter_cons_of_pos (by simpa using h)]
  rfl

/-- A thing at another place does not count. -/
theorem things_cons_of_neg {a : P} (h : w a = false) (l : List (τ × P)) :
    things w ((t, a) :: l) = things w l := by
  rw [things, filter_cons_of_neg (by simp [h])]
  rfl

variable {l : List (τ × P)}

/-- The order of the list decides only on the order of the things. -/
theorem things_perm (w : P → Bool) {l' : List (τ × P)} (h : l.Perm l') :
    (things w l).Perm (things w l') :=
  (h.filter _).map _

/-- A thing at one of the places is among them. -/
theorem mem_things {a : P} (h : (t, a) ∈ l) (ha : w a = true) : t ∈ things w l :=
  mem_map_of_mem (mem_filter.mpr ⟨h, ha⟩)

/-- A thing among them is at one of the places. -/
theorem exists_of_mem_things (h : t ∈ things w l) : ∃ a, (t, a) ∈ l ∧ w a = true := by
  obtain ⟨⟨u, a⟩, he, rfl⟩ := mem_map.mp h
  obtain ⟨hl, ha⟩ := mem_filter.mp he
  exact ⟨a, hl, ha⟩

/-- The things at certain places, among all things. -/
theorem things_sublist (w : P → Bool) (l : List (τ × P)) : (things w l).Sublist (l.map Prod.fst) :=
  filter_sublist.map _

/-- Where every thing is at one place, a thing at another place is not among them. -/
theorem not_mem_things {κ : Type*} {key : τ → κ} (h : (l.map fun e => key e.1).Nodup) {a : P}
    (ht : (t, a) ∈ l) (ha : w a = false) : t ∉ things w l := by
  intro hm
  obtain ⟨b, hb, hw⟩ := exists_of_mem_things hm
  obtain rfl : a = b := congrArg Prod.snd (inj_on_of_nodup_map h ht hb rfl)
  exact absurd (ha.symm.trans hw) (by simp)

/-! ### Moves -/

/-- A move in a part of the list. -/
theorem Moves.append {l' : List (τ × P)} {a b : P} (h : Moves l l' t a b)
    (pre post : List (τ × P)) : Moves (pre ++ l ++ post) (pre ++ l' ++ post) t a b := by
  obtain ⟨rest, hl, hl'⟩ := h
  refine ⟨pre ++ rest ++ post, ?_, ?_⟩
  · exact ((hl.append_left pre).trans perm_middle).append_right post
  · exact ((hl'.append_left pre).trans perm_middle).append_right post

/-- A new place for the thing at an index. -/
theorem moves_set {i : ℕ} {a : P} (h : l[i]? = some (t, a)) (b : P) :
    Moves l (l.set i (t, b)) t a b := by
  obtain ⟨hlt, hg⟩ := List.getElem?_eq_some_iff.mp h
  refine ⟨l.eraseIdx i, ?_, set_perm_cons_eraseIdx hlt _⟩
  rw [← hg]
  exact (getElem_cons_eraseIdx_perm hlt).symm

namespace Moves

variable {l l' : List (τ × P)} {t : τ} {a b : P} (h : Moves l l' t a b) {w : P → Bool}
include h

/-- The thing was at the first place. -/
theorem mem : (t, a) ∈ l := by
  obtain ⟨rest, hl, -⟩ := h
  exact hl.mem_iff.mpr mem_cons_self

/-- **A thing stays** where both places count, or none. -/
theorem things_keep (hw : w b = w a) : (things w l').Perm (things w l) := by
  obtain ⟨rest, hl, hl'⟩ := h
  refine (things_perm w hl').trans (List.Perm.trans ?_ (things_perm w hl).symm)
  cases ha : w a with
  | true => rw [things_cons_of_pos ha, things_cons_of_pos (hw.trans ha)]
  | false => rw [things_cons_of_neg ha, things_cons_of_neg (hw.trans ha)]

/-- **A thing enters** from a place that does not count. -/
theorem things_enter (ha : w a = false) (hb : w b = true) :
    (things w l').Perm (t :: things w l) := by
  obtain ⟨rest, hl, hl'⟩ := h
  refine (things_perm w hl').trans ?_
  rw [things_cons_of_pos hb, ← things_cons_of_neg ha (t := t)]
  exact (things_perm w hl).symm.cons t

/-- The move back. -/
theorem symm : Moves l' l t b a :=
  h.imp fun _ => And.symm

/-- **A thing leaves** to a place that does not count. -/
theorem things_leave (ha : w a = true) (hb : w b = false) : (things w l).Perm (t :: things w l') :=
  h.symm.things_enter hb ha

end Moves

end Places
