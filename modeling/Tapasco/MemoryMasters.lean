import Tapasco.InterconnectTree
import Mathlib.Algebra.BigOperators.Group.List.Basic
import Mathlib.Data.List.GetD

/-!
# Distributing Memory Masters

`arch_create_mem_interconnects` in `axi4mm.tcl` gives each memory port of a platform a number of
masters, round robin and up to the capacity of the port, and builds a tree of interconnects for each
port. `arch_connect_mem` takes slave ports from the trees in turn and connects the masters to them.

Both have an inner loop that does nothing but move an index around a list. So it does not end if it
has not ended after one round. The order in which the trees and their pins are found is arbitrary.
-/

open List

namespace Tapasco.MemoryMasters

open InterconnectTree

/-- Why a script ends without a result: `expr` without an expression, more masters than ports, a
different number of masters and slaves, or a loop that does not end. -/
inductive Abort where
  | emptyExpression
  | tooManyMasters
  | countMismatch
  | endless
  deriving DecidableEq

/-- A loop that moves an index until it has found something. -/
def turn (found : ℕ → Bool) (next : ℕ → ℕ) : ℕ → ℕ → Except Abort ℕ
  | 0, _ => .error .endless
  | k + 1, j => if found j then .ok j else turn found next k (next j)

/-- `incr j`, and `0` at the end of the list. -/
def nextPort (n j : ℕ) : ℕ :=
  if n ≤ j + 1 then 0 else j + 1

/-- The loop that fills `mdist`, by the number of masters that are left. -/
def distribute (outs : List ℕ) : ℕ → List ℕ → ℕ → Except Abort (List ℕ)
  | 0, mdist, _ => .ok mdist
  | k + 1, mdist, j =>
    let mdist := mdist.set j (mdist.getD j 0 + 1)
    if k = 0 then .ok mdist
    else do
      let j ← turn (fun j => mdist.getD j 0 != outs.getD j 0) (nextPort mdist.length) mdist.length
        (nextPort mdist.length j)
      distribute outs k mdist j

/-- The tree for a port with a number of masters. -/
def outTree (le : Pin → Pin → Bool) (smart : Bool) (n : ℕ) : Tree :=
  if smart then createSmartconnectTree le true n true else createInterconnectTree le true n

/-- `arch_create_mem_interconnects`, with the shares and the trees. -/
def archCreateMemInterconnects (le : Pin → Pin → Bool) (smart : Bool) (outs : List ℕ)
    (noMasters : ℕ) : Except Abort (List ℕ × List Tree) :=
  if outs = [] then .error .emptyExpression
  else if outs.sum < noMasters then .error .tooManyMasters
  else do
    let mdist ← distribute outs noMasters (replicate (min outs.length noMasters) 0) 0
    return (mdist, mdist.map (outTree le smart))

/-- The loop that takes the slaves of the trees in turn. -/
def interleave {α : Type} : ℕ → List (List α) → ℕ → Except Abort (List α)
  | 0, _, _ => .ok []
  | k + 1, outs, j => do
    let j ← turn (fun j => !(outs.getD j []).isEmpty) (fun j => (j + 1) % outs.length) outs.length j
    let slaves ← interleave k (outs.set j (outs.getD j []).dropLast) ((j + 1) % outs.length)
    return (outs.getD j []).getLast?.toList ++ slaves

/-- `arch_connect_mem`, with the slaves of each tree. -/
def archConnectMem {α μ : Type} (outs : List (List α)) (masters : List μ) :
    Except Abort (List (μ × α)) := do
  let slaves ← interleave (outs.map length).sum outs 0
  if masters.length ≠ slaves.length then .error .countMismatch
  else return masters.zip slaves

/-! ### Moving an index -/

theorem turn_spec {found : ℕ → Bool} {next : ℕ → ℕ} {n i : ℕ}
    (hn : ∀ j < n, next j = nextPort n j) (hi : i < n) (hf : found i = true) {k j : ℕ} (hj : j < n)
    (hk : (if j ≤ i then i - j else n - j + i) < k) :
    ∃ m < n, turn found next k j = .ok m ∧ found m = true := by
  induction k generalizing j with
  | zero => omega
  | succ k ih =>
    rw [turn]
    cases hc : found j with
    | true => exact ⟨j, hj, rfl, hc⟩
    | false =>
      have hne : j ≠ i := fun h => by simp [h, hf] at hc
      rw [hn j hj, nextPort]
      refine ih ?_ ?_ <;> split_ifs at hk ⊢ <;> omega

/-! ### Distributing masters -/

/-- Either every port has a master, or the ports before `j` have one each, and the others none. -/
def Filled (mdist : List ℕ) (j : ℕ) : Prop :=
  (∀ x ∈ mdist, 0 < x) ∨ ∃ l, mdist = replicate j 1 ++ replicate (l + 1) 0

theorem filled_set {mdist : List ℕ} {j : ℕ} (h : Filled mdist j) :
    Filled (mdist.set j (mdist.getD j 0 + 1)) (nextPort mdist.length j) ∧
      ((∀ x ∈ mdist.set j (mdist.getD j 0 + 1), 0 < x) ∨
        nextPort mdist.length j = j + 1 ∧ j + 1 < mdist.length ∧
          (mdist.set j (mdist.getD j 0 + 1)).getD (j + 1) 0 = 0 ∧
          (mdist.set j (mdist.getD j 0 + 1)).sum < mdist.length) := by
  obtain hp | ⟨l, rfl⟩ := h
  · have hs : ∀ x ∈ mdist.set j (mdist.getD j 0 + 1), 0 < x := fun x hx =>
      (mem_or_eq_of_mem_set hx).elim (hp x) fun h => h ▸ Nat.succ_pos _
    exact ⟨.inl hs, .inl hs⟩
  have hs : (replicate j 1 ++ replicate (l + 1) 0).set j
      ((replicate j 1 ++ replicate (l + 1) 0).getD j 0 + 1) =
        replicate (j + 1) 1 ++ replicate l 0 := by
    rw [replicate_succ' (n := j) (a := 1), append_assoc]
    simp [replicate_succ, set_append_right]
  rw [hs]
  cases l with
  | zero =>
    have hp : ∀ x ∈ replicate (j + 1) 1 ++ replicate 0 0, 0 < x := fun x hx => by
      simp at hx
      omega
    exact ⟨.inl hp, .inl hp⟩
  | succ l =>
    have hn : nextPort (replicate j 1 ++ replicate (l + 1 + 1) 0).length j = j + 1 := by
      simp [nextPort]
    rw [hn]
    refine ⟨.inr ⟨l, rfl⟩, .inr ⟨rfl, by simp, ?_, by simp⟩⟩
    rw [getD_append_right _ _ _ _ (by simp)]
    simp

theorem exists_room {mdist outs : List ℕ} (hl : mdist.length ≤ outs.length)
    (hs : mdist.sum < (outs.take mdist.length).sum) :
    ∃ i < mdist.length, mdist.getD i 0 ≠ outs.getD i 0 := by
  by_contra hno
  push Not at hno
  refine absurd (congrArg sum (ext_getElem ?_ fun i hi hj => ?_)) hs.ne
  · simp [hl]
  · have heq := hno i hi
    rw [getD_eq_getElem _ _ hi, getD_eq_getElem _ _ (by omega)] at heq
    rw [heq, getElem_take]

/-- **The loop fills the ports**: none over its capacity, and each with a master if there are
enough. -/
theorem distribute_spec {outs : List ℕ} (hp : ∀ c ∈ outs, 0 < c) {k : ℕ} {mdist : List ℕ} {j : ℕ}
    (hj : j < mdist.length) (hl : mdist.length ≤ outs.length)
    (hle : ∀ i, mdist.getD i 0 ≤ outs.getD i 0) (hr : mdist.getD j 0 < outs.getD j 0)
    (hk : mdist.sum + k ≤ (outs.take mdist.length).sum) (hf : Filled mdist j) :
    ∃ m, distribute outs k mdist j = .ok m ∧ m.length = mdist.length ∧
      (∀ i, m.getD i 0 ≤ outs.getD i 0) ∧ m.sum = mdist.sum + k ∧
      (mdist.length ≤ m.sum → ∀ x ∈ m, 0 < x) := by
  induction k generalizing mdist j with
  | zero =>
    refine ⟨mdist, rfl, rfl, hle, rfl, fun hs => hf.resolve_right ?_⟩
    rintro ⟨l, rfl⟩
    simp at hs
  | succ k ih =>
    obtain ⟨hf', hc⟩ := filled_set hf
    rw [distribute]
    set mdist' := mdist.set j (mdist.getD j 0 + 1) with hm
    have hlen : mdist'.length = mdist.length := length_set
    have hsum : mdist'.sum = mdist.sum + 1 := by
      have h := sum_take_add_sum_drop mdist j
      rw [drop_eq_getElem_cons hj, sum_cons] at h
      rw [hm, sum_set, if_pos hj, getD_eq_getElem _ _ hj]
      omega
    have hle' : ∀ i, mdist'.getD i 0 ≤ outs.getD i 0 := by
      intro i
      by_cases hi : i = j
      · subst hi
        rw [hm, getD_eq_getElem _ _ (by simpa using hj), getElem_set_self]
        exact hr
      · rw [hm, getD_eq_getElem?_getD, getElem?_set_ne (Ne.symm hi), ← getD_eq_getElem?_getD]
        exact hle i
    by_cases hk0 : k = 0
    · subst hk0
      refine ⟨mdist', if_pos rfl, hlen, hle', hsum, fun hs => hc.resolve_right fun h => ?_⟩
      omega
    obtain ⟨i, hi, hne⟩ := exists_room (hlen ▸ hl) (by rw [hlen]; omega)
    have hnext : nextPort mdist'.length j < mdist'.length := by
      rw [nextPort]
      split_ifs <;> omega
    obtain ⟨m, hml, ht, hfm⟩ := @turn_spec (fun j => mdist'.getD j 0 != outs.getD j 0) _ _ _
      (fun _ _ => rfl) hi (by simpa using hne) mdist'.length _ hnext (by split_ifs <;> omega)
    have hne' : mdist'.getD m 0 ≠ outs.getD m 0 := by simpa using hfm
    have hfill : Filled mdist' m := by
      obtain hall | ⟨hnp, hlt, h0, -⟩ := hc
      · exact .inl hall
      -- in the first round the next port is free
      have hpos := hp _ (getElem_mem (l := outs) (n := j + 1) (by omega))
      have hfree : (mdist'.getD (j + 1) 0 != outs.getD (j + 1) 0) = true := by
        rw [h0, getD_eq_getElem _ _ (by omega)]
        simpa using (ne_of_gt hpos).symm
      obtain ⟨L, hL⟩ : ∃ L, mdist'.length = L + 1 := ⟨_, (Nat.succ_pred (by omega)).symm⟩
      rw [hlen, hnp, ← hlen, hL, turn, if_pos hfree] at ht
      obtain rfl := Except.ok.inj ht
      exact hnp ▸ hf'
    obtain ⟨m', hd, hl', hlm, hsm, hpm⟩ := ih (by omega) (hlen ▸ hl) hle'
      ((hle' m).lt_of_ne hne') (by rw [hlen]; omega) hfill
    refine ⟨m', ?_, hl'.trans hlen, hlm, by omega, by rwa [hlen] at hpm⟩
    rw [if_neg hk0, ht]
    exact hd

/-! ### Connecting masters -/

theorem perm_flatten_set {α : Type} {outs : List (List α)} {j : ℕ} (hj : j < outs.length)
    (hne : outs.getD j [] ≠ []) :
    (outs.getD j []).getLast?.toList ++ (outs.set j (outs.getD j []).dropLast).flatten ~
      outs.flatten := by
  rw [getD_eq_getElem _ _ hj] at hne ⊢
  have h : outs =
      outs.take j ++ (outs[j].dropLast ++ [outs[j].getLast hne]) :: outs.drop (j + 1) := by
    rw [dropLast_append_getLast, ← drop_eq_getElem_cons hj, take_append_drop]
  refine .trans ?_ (.of_eq (congrArg flatten h.symm))
  rw [getLast?_eq_some_getLast hne, set_eq_take_append_cons_drop, if_pos hj, Option.toList_some]
  simp only [flatten_append, flatten_cons, append_assoc, singleton_append]
  rw [← append_assoc, ← append_assoc]
  exact perm_middle.symm

theorem interleave_spec {α : Type} {outs : List (List α)} {k j : ℕ} (hk : outs.flatten.length = k)
    (hj : j < outs.length ∨ outs = []) : ∃ l, interleave k outs j = .ok l ∧ l ~ outs.flatten := by
  induction k generalizing outs j with
  | zero => exact ⟨[], rfl, by rw [length_eq_zero_iff.mp hk]⟩
  | succ k ih =>
    obtain ⟨l, hl, hne⟩ : ∃ l ∈ outs, l ≠ [] := by
      by_contra hno
      push Not at hno
      rw [flatten_eq_nil_iff.mpr hno] at hk
      exact absurd hk (by simp)
    obtain ⟨i, hi, rfl⟩ := mem_iff_getElem.mp hl
    have hj : j < outs.length := hj.resolve_right fun h => by simp [h] at hi
    have hnext : ∀ j < outs.length, (j + 1) % outs.length = nextPort outs.length j := by
      intro j hj
      rw [nextPort]
      split_ifs with hn
      · rw [show j + 1 = outs.length by omega, Nat.mod_self]
      · exact Nat.mod_eq_of_lt (by omega)
    obtain ⟨m, hm, ht, hf⟩ := @turn_spec (fun j => !(outs.getD j []).isEmpty) _ _ _ hnext hi
      (by simp [getElem?_eq_getElem hi, hne]) outs.length _ hj (by split_ifs <;> omega)
    have hperm := perm_flatten_set hm (by simpa using hf)
    have hone : (outs.getD m []).getLast?.toList.length = 1 := by
      rw [getLast?_eq_some_getLast (by simpa using hf)]
      rfl
    have hlen := hperm.length_eq
    rw [length_append, hone, hk] at hlen
    have hlt : (m + 1) % outs.length < (outs.set m (outs.getD m []).dropLast).length := by
      rw [length_set]
      exact Nat.mod_lt _ (by omega)
    obtain ⟨l, he, hp⟩ := ih (by omega) (.inl hlt)
    refine ⟨_, ?_, (hp.append_left _).trans hperm⟩
    rw [interleave, ht]
    simp only [bind, Except.bind]
    rw [he]
    rfl

/-- **The masters of a design are distributed and connected.** Every created port gets at least one
master, and no more than its capacity, and all masters are distributed. Then every master is
connected to one slave port, and every slave port of the trees to one master. -/
theorem masters_distributed (le : Pin → Pin → Bool) (smart : Bool) {outs : List ℕ} (hne : outs ≠ [])
    (hp : ∀ c ∈ outs, 0 < c) {n : ℕ} (hn : n ≤ outs.sum) :
    ∃ mdist trees, archCreateMemInterconnects le smart outs n = .ok (mdist, trees) ∧
      mdist.length = min outs.length n ∧
      (∀ i < mdist.length, 1 ≤ mdist.getD i 0 ∧ mdist.getD i 0 ≤ outs.getD i 0) ∧ mdist.sum = n ∧
      ∀ (α μ : Type) (masters : List μ) (cells : List (List α)), masters.length = n →
        cells.map length ~ trees.map (fun t => t.slaves.length) →
        ∃ nets, archConnectMem cells masters = .ok nets ∧ nets.map Prod.fst = masters ∧
          nets.map Prod.snd ~ cells.flatten := by
  obtain ⟨m, hd, hl, hle, hs, hpos⟩ :
      ∃ m, distribute outs n (replicate (min outs.length n) 0) 0 = .ok m ∧
        m.length = min outs.length n ∧ (∀ i, m.getD i 0 ≤ outs.getD i 0) ∧ m.sum = n ∧
        ∀ x ∈ m, 0 < x := by
    obtain rfl | hn0 := Nat.eq_zero_or_pos n
    · exact ⟨[], by simp [distribute], by simp, by simp, rfl, by simp⟩
    have hlen : 0 < outs.length := length_pos_of_ne_nil hne
    have hroom : n ≤ (outs.take (min outs.length n)).sum := by
      obtain hle | hlt := le_total outs.length n
      · rwa [min_eq_left hle, take_length]
      · refine le_trans ?_ (length_le_sum_of_one_le _ fun c hc => hp c (mem_of_mem_take hc))
        simp [hlt]
    have hz : (replicate (min outs.length n) 0).sum = 0 := by simp
    obtain ⟨m, hd, hl, hle, hs, hpos⟩ := @distribute_spec outs hp n
      (replicate (min outs.length n) 0) 0 (by simp; omega) (by simp) (by simp)
      (by simpa [getElem?_eq_getElem hlen] using hp _ (getElem_mem hlen)) (by simpa using hroom)
      (.inr ⟨min outs.length n - 1,
        by simp [Nat.sub_add_cancel (by omega : 1 ≤ min outs.length n)]⟩)
    rw [length_replicate] at hl hpos
    rw [hz, zero_add] at hs
    exact ⟨m, hd, hl, hle, hs, hpos (by omega)⟩
  refine ⟨m, m.map (outTree le smart), ?_, hl, fun i hi => ⟨?_, hle i⟩, hs,
    fun α μ masters cells hm hc => ?_⟩
  · rw [archCreateMemInterconnects, if_neg hne, if_neg (by omega), hd]
    rfl
  · rw [getD_eq_getElem _ _ hi]
    exact hpos _ (getElem_mem hi)
  · obtain ⟨l, hi, hperm⟩ := @interleave_spec α cells _ 0 length_flatten (by cases cells <;> simp)
    have hslaves : ∀ x ∈ m, (outTree le smart x).slaves.length = x := by
      intro x hx
      have h kind := (isTree_createTree le kind true (hpos x hx)).outsideSlaves
      cases smart <;> simp [outTree, createSmartconnectTree, createInterconnectTree, h]
    rw [map_map, Function.comp_def, map_congr_left hslaves, map_id'] at hc
    have heq : masters.length = l.length := by
      rw [hm, hperm.length_eq, length_flatten, hc.sum_eq, hs]
    refine ⟨masters.zip l, ?_, map_fst_zip heq.le, (map_snd_zip heq.ge).symm ▸ hperm⟩
    rw [archConnectMem, hi]
    simp [bind, Except.bind, heq, pure, Except.pure]

theorem masters_distributed_two_ports :
    ∃ mdist trees,
      archCreateMemInterconnects (fun _ _ => true) false [1, 3] 3 = .ok (mdist, trees) ∧
      mdist.length = min [1, 3].length 3 ∧
      (∀ i < mdist.length, 1 ≤ mdist.getD i 0 ∧ mdist.getD i 0 ≤ [1, 3].getD i 0) ∧
      mdist.sum = 3 ∧
      ∀ (α μ : Type) (masters : List μ) (cells : List (List α)), masters.length = 3 →
        cells.map length ~ trees.map (fun t => t.slaves.length) →
        ∃ nets, archConnectMem cells masters = .ok nets ∧ nets.map Prod.fst = masters ∧
          nets.map Prod.snd ~ cells.flatten :=
  masters_distributed (fun _ _ => true) false (cons_ne_nil 1 [3]) (by decide) (by decide)

/-- **Without ports** the script is aborted, since there is nothing to add up. -/
theorem no_ports_aborted :
    archCreateMemInterconnects (fun _ _ => true) false [] 0 = .error .emptyExpression :=
  rfl

end Tapasco.MemoryMasters
