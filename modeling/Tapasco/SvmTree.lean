import Tapasco.SvmIntervals
import Mathlib.Data.List.Sort

/-!
# Removing a Range from an Interval Tree

`SvmIntervals` embeds `remove_vmem_interval` for the ranges that the driver removes, which are part
of one interval. Here it is embedded for any range. A node is what it is in the kernel, an interval
from `start` to `last`, and the loop asks the tree for the next node while it takes nodes out and
puts others in. The tree is the list of its nodes in order.

The loop keeps what a node has below `start`, and moves `start` to the end of the node. For the
first node that is what lies below the range. A node behind a gap starts above `start`; it is not
removed, but put back with a last address below its first one.
-/

open FreeList List

namespace Tapasco.SvmTree

/-! ### The tree and the removal -/

/-- A node, with its last address. -/
structure IntervalTreeNode where
  start : ℕ
  last : ℕ
  deriving DecidableEq

/-- The test of `interval_tree_iter_first` and `interval_tree_iter_next`. -/
def overlaps (start last : ℕ) (node : IntervalTreeNode) : Bool :=
  decide (node.start ≤ last ∧ start ≤ node.last)

/-- `interval_tree_insert`: the nodes are in the order of their first addresses. -/
def intervalTreeInsert (node : IntervalTreeNode) (tree : List IntervalTreeNode) :
    List IntervalTreeNode :=
  tree.orderedInsert (fun m n => m.start < n.start) node

def intervalTreeIterFirst (tree : List IntervalTreeNode) (start last : ℕ) :
    Option IntervalTreeNode :=
  tree.find? (overlaps start last)

/-- `interval_tree_iter_next`: the search goes on behind a node. -/
def intervalTreeIterNext (tree : List IntervalTreeNode) (node : IntervalTreeNode)
    (start last : ℕ) : Option IntervalTreeNode :=
  (tree.dropWhile fun n => n ≠ node).tail.find? (overlaps start last)

/-- `start - 1`, in 64 bits. -/
def before (start : ℕ) : ℕ :=
  (start + (2 ^ 64 - 1)) % 2 ^ 64

/-- `min(node->last + 1, end)`, in 64 bits. -/
def nextStart (node : IntervalTreeNode) (last : ℕ) : ℕ :=
  min ((node.last + 1) % 2 ^ 64) last

/-- What the loop of `remove_vmem_interval` does with a node, with whether there is memory for the
node that takes the upper part. -/
def removeFromNode (split : Bool) (start last : ℕ) (node : IntervalTreeNode)
    (tree : List IntervalTreeNode) : List IntervalTreeNode :=
  if node.start ≠ start then
    intervalTreeInsert ⟨node.start, before start⟩
      (if node.last > last ∧ split then
        intervalTreeInsert ⟨last + 1, node.last⟩ (tree.erase node)
      else tree.erase node)
  else if node.last > last then intervalTreeInsert ⟨last + 1, node.last⟩ (tree.erase node)
  else tree.erase node

/-- The loop of `remove_vmem_interval`. The next node is looked for before the tree changes. -/
def removeLoop (split : Bool) (last : ℕ) :
    ℕ → IntervalTreeNode → ℕ → List IntervalTreeNode → List IntervalTreeNode
  | 0, _, _, tree => tree
  | fuel + 1, node, start, tree =>
    match intervalTreeIterNext tree node start last with
    | none => removeFromNode split start last node tree
    | some next =>
      removeLoop split last fuel next (nextStart node last)
        (removeFromNode split start last node tree)

/-- `remove_vmem_interval`. The loop has at most one round for each node of the tree. -/
def removeVmemInterval (split : Bool) (tree : List IntervalTreeNode) (vaddr : ℕ) (npages : ℤ) :
    List IntervalTreeNode :=
  match intervalTreeIterFirst tree vaddr (Svm.lastAddress vaddr npages) with
  | none => tree
  | some node =>
    removeLoop split (Svm.lastAddress vaddr npages) tree.length node vaddr tree

/-! ### Trees of disjoint intervals -/

def IntervalTreeNode.Contains (node : IntervalTreeNode) (x : ℕ) : Prop :=
  node.start ≤ x ∧ x ≤ node.last

/-- The addresses of all nodes. -/
def Covers (tree : List IntervalTreeNode) (x : ℕ) : Prop :=
  ∃ node ∈ tree, node.Contains x

/-- Disjoint intervals of addresses with 64 bits, in order. -/
structure Ordered (tree : List IntervalTreeNode) : Prop where
  wf : ∀ n ∈ tree, n.start ≤ n.last
  bounded : ∀ n ∈ tree, n.last < 2 ^ 64
  sorted : tree.Pairwise fun m n => m.last < n.start

theorem ordered_cons {n : IntervalTreeNode} {tree : List IntervalTreeNode} :
    Ordered (n :: tree) ↔
      n.start ≤ n.last ∧ n.last < 2 ^ 64 ∧ (∀ m ∈ tree, n.last < m.start) ∧ Ordered tree := by
  constructor
  · rintro ⟨hw, hb, hs⟩
    rw [forall_mem_cons] at hw hb
    rw [pairwise_cons] at hs
    exact ⟨hw.1, hb.1, hs.1, hw.2, hb.2, hs.2⟩
  · rintro ⟨hw, hb, hlt, ht⟩
    exact ⟨forall_mem_cons.mpr ⟨hw, ht.wf⟩, forall_mem_cons.mpr ⟨hb, ht.bounded⟩,
      pairwise_cons.mpr ⟨hlt, ht.sorted⟩⟩

section

variable {tree nodes pre rest : List IntervalTreeNode} {node n m : IntervalTreeNode}
  {split : Bool} {start last searched x : ℕ}

theorem Ordered.sublist (h : Ordered tree) (hl : nodes.Sublist tree) : Ordered nodes :=
  ⟨fun n hn => h.wf n (hl.subset hn), fun n hn => h.bounded n (hl.subset hn), h.sorted.sublist hl⟩

theorem overlaps_iff : overlaps start last node ↔ node.start ≤ last ∧ start ≤ node.last :=
  decide_eq_true_iff

@[simp] theorem covers_nil (x : ℕ) : ¬ Covers [] x := by
  simp [Covers]

@[simp] theorem covers_cons : Covers (node :: tree) x ↔ node.Contains x ∨ Covers tree x := by
  simp [Covers]

@[simp] theorem covers_append : Covers (nodes ++ tree) x ↔ Covers nodes x ∨ Covers tree x := by
  simp [Covers, or_and_right, exists_or]

theorem covers_perm (h : tree.Perm nodes) : Covers tree x ↔ Covers nodes x :=
  exists_congr fun _ => and_congr_left fun _ => h.mem_iff

theorem before_eq (hp : 0 < start) (hle : start ≤ 2 ^ 64) : before start = start - 1 := by
  rw [before]
  omega

theorem nextStart_eq (hlt : node.last < last) (hl : last < 2 ^ 64) :
    nextStart node last = node.last + 1 := by
  rw [nextStart, Nat.mod_eq_of_lt (by omega), min_eq_left hlt]

/-! ### The loop as a pass over the nodes -/

/-- The nodes that replace one. -/
def pieces (split : Bool) (start last : ℕ) (node : IntervalTreeNode) : List IntervalTreeNode :=
  if node.start ≠ start then
    ⟨node.start, before start⟩ :: if node.last > last ∧ split then [⟨last + 1, node.last⟩] else []
  else if node.last > last then [⟨last + 1, node.last⟩]
  else []

/-- The nodes in order, with those that are found replaced. A node is looked for with the `start`
of the node before it. -/
def pass (split : Bool) (last : ℕ) :
    List IntervalTreeNode → ℕ → ℕ → List IntervalTreeNode
  | [], _, _ => []
  | node :: nodes, searched, start =>
    if overlaps searched last node then
      pieces split start last node ++ pass split last nodes start (nextStart node last)
    else node :: pass split last nodes searched start

theorem intervalTreeInsert_perm (node : IntervalTreeNode) (tree : List IntervalTreeNode) :
    (intervalTreeInsert node tree).Perm (node :: tree) :=
  perm_orderedInsert _ node tree

theorem removeFromNode_perm (split : Bool) (start last : ℕ) (node : IntervalTreeNode)
    (tree : List IntervalTreeNode) :
    (removeFromNode split start last node tree).Perm
      (pieces split start last node ++ tree.erase node) := by
  rw [removeFromNode, pieces]
  split
  · refine (intervalTreeInsert_perm _ _).trans (List.Perm.cons _ ?_)
    split
    · exact intervalTreeInsert_perm _ _
    · exact List.Perm.refl _
  · split
    · exact intervalTreeInsert_perm _ _
    · exact List.Perm.refl _

theorem intervalTreeInsert_append (hp : ∀ m ∈ pre, m.start ≤ node.start)
    (hr : ∀ m ∈ rest, node.start < m.start) :
    intervalTreeInsert node (pre ++ rest) = pre ++ node :: rest := by
  induction pre with
  | nil =>
    cases rest with
    | nil => rfl
    | cons m rest =>
      rw [nil_append, intervalTreeInsert, List.orderedInsert, if_pos (hr m mem_cons_self)]
      rfl
  | cons m pre ih =>
    rw [forall_mem_cons] at hp
    rw [cons_append, intervalTreeInsert, List.orderedInsert, if_neg (not_lt.mpr hp.1)]
    exact congrArg (m :: ·) (ih hp.2)

theorem erase_node (hp : ∀ m ∈ pre, m.start < node.start) :
    (pre ++ node :: rest).erase node = pre ++ rest := by
  rw [erase_append_right _ fun hm => (hp node hm).ne rfl, erase_cons_head]

theorem pieces_of_le (hle : node.last ≤ last) :
    pieces split start last node =
      if node.start ≠ start then [⟨node.start, before start⟩] else [] := by
  have hn : ¬ node.last > last := not_lt.mpr hle
  have hn' : ¬ (node.last > last ∧ split = true) := fun ha => hn ha.1
  rw [pieces, if_neg hn, if_neg hn']

theorem removeFromNode_append (hp : ∀ m ∈ pre, m.start < node.start)
    (hr : ∀ m ∈ rest, node.start < m.start) (hle : node.last ≤ last) :
    removeFromNode split start last node (pre ++ node :: rest) =
      pre ++ (pieces split start last node ++ rest) := by
  have hn : ¬ node.last > last := not_lt.mpr hle
  rw [removeFromNode, pieces_of_le hle, erase_node hp]
  by_cases heq : node.start = start
  · rw [if_neg (not_not_intro heq), if_neg (not_not_intro heq), if_neg hn]
    rfl
  · rw [if_pos heq, if_pos heq, if_neg fun ha => hn ha.1]
    exact intervalTreeInsert_append (fun m hm => (hp m hm).le) hr

theorem intervalTreeIterNext_append (hp : ∀ m ∈ pre, m.start < node.start) :
    intervalTreeIterNext (pre ++ node :: rest) node start last =
      rest.find? (overlaps start last) := by
  have hne : ∀ m ∈ pre, decide (m ≠ node) = true := by
    intro m hm
    refine decide_eq_true fun heq => ?_
    exact (hp m hm).ne (congrArg IntervalTreeNode.start heq)
  rw [intervalTreeIterNext, dropWhile_append_of_pos hne, dropWhile_cons_of_neg (by simp)]
  rfl

theorem pass_of_not_overlaps (hn : ∀ n ∈ nodes, ¬ overlaps searched last n) (start : ℕ) :
    pass split last nodes searched start = nodes := by
  induction nodes with
  | nil => rfl
  | cons n nodes ih =>
    rw [forall_mem_cons] at hn
    rw [pass, if_neg hn.1, ih hn.2]

theorem pass_append (hn : ∀ n ∈ nodes, ¬ overlaps searched last n) (start : ℕ) :
    pass split last (nodes ++ rest) searched start =
      nodes ++ pass split last rest searched start := by
  induction nodes with
  | nil => rfl
  | cons n nodes ih =>
    rw [forall_mem_cons] at hn
    rw [cons_append, pass, if_neg hn.1, ih hn.2, cons_append]

/-- **The loop** from a node on, in a tree where only nodes before it have changed. -/
theorem removeLoop_perm (fuel : ℕ) (hno : Ordered (node :: rest))
    (hp : ∀ m ∈ pre, m.start < node.start) (hfu : rest.length < fuel) :
    (removeLoop split last fuel node start (pre ++ node :: rest)).Perm
      (pre ++ (pieces split start last node ++
        pass split last rest start (nextStart node last))) := by
  induction fuel generalizing node rest pre start with
  | zero => exact absurd hfu (Nat.not_lt_zero _)
  | succ fuel ih =>
    obtain ⟨hw, -, hlt, hr⟩ := ordered_cons.mp hno
    have hst : ∀ m ∈ rest, node.start < m.start := fun m hm => hw.trans_lt (hlt m hm)
    rw [removeLoop, intervalTreeIterNext_append hp]
    cases hf : rest.find? (overlaps start last) with
    | none =>
      rw [pass_of_not_overlaps (find?_eq_none.mp hf)]
      refine (removeFromNode_perm _ _ _ _ _).trans ?_
      rw [erase_node hp, ← append_assoc, ← append_assoc]
      exact perm_append_comm.append_right rest
    | some next =>
      obtain ⟨ho, mid, post, rfl, hmi⟩ := find?_eq_some_iff_append.mp hf
      have hmi' : ∀ n ∈ mid, ¬ overlaps start last n := fun n hn => by simpa using hmi n hn
      have hnex := hlt next (by simp)
      -- a node behind which another one is found ends in the range
      have hle : node.last ≤ last := (hnex.le).trans (overlaps_iff.mp ho).1
      rw [removeFromNode_append hp hst hle, pass_append hmi', pass, if_pos ho]
      have hs := pairwise_append.mp hr.sorted
      have hp' : ∀ m ∈ pre ++ (pieces split start last node ++ mid), m.start < next.start := by
        intro m hm
        rcases mem_append.mp hm with hm | hm
        · exact (hp m hm).trans (hw.trans_lt hnex)
        rcases mem_append.mp hm with hm | hm
        · rw [pieces_of_le hle] at hm
          split at hm
          · rw [mem_singleton.mp hm]
            exact hw.trans_lt hnex
          · exact absurd hm not_mem_nil
        · have hm' := hs.2.2 m hm next mem_cons_self
          exact (hr.wf m (mem_append_left _ hm)).trans_lt hm'
      have hf' : post.length < fuel := by
        rw [length_append, length_cons] at hfu
        omega
      have hl := @ih _ _ _ (nextStart node last)
        (hr.sublist (sublist_append_right mid _)) hp' hf'
      simpa only [append_assoc] using hl

/-- **The removal as a pass** over the nodes. -/
theorem removeVmemInterval_perm (h : Ordered tree) (split : Bool) (va : ℕ) (k : ℤ) :
    (removeVmemInterval split tree va k).Perm (pass split (Svm.lastAddress va k) tree va va) := by
  rw [removeVmemInterval, intervalTreeIterFirst]
  generalize Svm.lastAddress va k = last
  cases hf : tree.find? (overlaps va last) with
  | none =>
    rw [pass_of_not_overlaps (find?_eq_none.mp hf)]
  | some node =>
    obtain ⟨ho, pre, rest, rfl, hp⟩ := find?_eq_some_iff_append.mp hf
    have hp' : ∀ n ∈ pre, ¬ overlaps va last n := fun n hn => by simpa using hp n hn
    rw [pass_append hp', pass, if_pos ho]
    have hs := pairwise_append.mp h.sorted
    refine removeLoop_perm _ (h.sublist (sublist_append_right pre _)) (fun m hm => ?_) ?_
    · have hlt := hs.2.2 m hm node mem_cons_self
      exact (h.wf m (mem_append_left _ hm)).trans_lt hlt
    · simp
      omega

end

/-! ### What a removal should do -/

/-- The addresses from `a` to `b` are **removed**: the others are covered as before, by well-formed
and disjoint intervals. -/
structure Removes (tree : List IntervalTreeNode) (a b : ℕ) (tree' : List IntervalTreeNode) :
    Prop where
  covers : ∀ x, Covers tree' x ↔ Covers tree x ∧ ¬ (a ≤ x ∧ x < b)
  wf : ∀ n ∈ tree', n.start ≤ n.last
  disjoint : tree'.Pairwise fun m n => m.last < n.start ∨ n.last < m.start

/-- From `a` on, no address below `b` is covered behind a gap. -/
def Gapless (tree : List IntervalTreeNode) (a b : ℕ) : Prop :=
  ∀ x, Covers tree x → x < b → ∀ y, a ≤ y → y ≤ x → Covers tree y

section

variable {tree tree' nodes rest : List IntervalTreeNode} {node p : IntervalTreeNode}
  {split : Bool} {a b s searched start : ℕ}

theorem removes_perm (h : tree'.Perm nodes) : Removes tree a b tree' ↔ Removes tree a b nodes := by
  have hs : ∀ {m n : IntervalTreeNode}, m.last < n.start ∨ n.last < m.start →
      n.last < m.start ∨ m.last < n.start := Or.symm
  constructor
  · rintro ⟨hc, hw, hd⟩
    exact ⟨fun x => (covers_perm h).symm.trans (hc x), fun n hn => hw n (h.mem_iff.mpr hn),
      (h.pairwise_iff hs).mp hd⟩
  · rintro ⟨hc, hw, hd⟩
    exact ⟨fun x => (covers_perm h).trans (hc x), fun n hn => hw n (h.mem_iff.mp hn),
      (h.pairwise_iff hs).mpr hd⟩

theorem lt_of_covers {k x : ℕ} (hlt : ∀ n ∈ nodes, k < n.start) (hx : Covers nodes x) : k < x := by
  obtain ⟨n, hn, hc⟩ := hx
  exact (hlt n hn).trans_le hc.1

theorem removes_self (h : Ordered nodes) (ho : ∀ x, Covers nodes x → ¬ (a ≤ x ∧ x < b)) :
    Removes nodes a b nodes :=
  ⟨fun x => ⟨fun hx => ⟨hx, ho x hx⟩, And.left⟩, h.wf, h.sorted.imp .inl⟩

theorem removes_cons (hp : p.start ≤ p.last) (hr : ∀ n ∈ nodes, p.last < n.start)
    (hpi : ∀ x, node.Contains x ∧ ¬ (a ≤ x ∧ x < b) ↔ p.Contains x) :
    Removes (node :: nodes) a b (p :: tree') ↔ Removes nodes a b tree' := by
  constructor
  · rintro ⟨hcov, hw, hd⟩
    rw [forall_mem_cons] at hw
    rw [pairwise_cons] at hd
    refine ⟨fun x => ?_, hw.2, hd.2⟩
    have hx := hcov x
    rw [covers_cons, covers_cons, or_and_right, hpi] at hx
    by_cases hpx : p.Contains x
    · -- an address of the piece is in no other node, before or after
      refine iff_of_false ?_ ?_
      · rintro ⟨n, hn, hco⟩
        simp only [IntervalTreeNode.Contains] at hpx hco
        have := hd.1 n hn
        omega
      · rintro ⟨hc, -⟩
        have := lt_of_covers hr hc
        simp only [IntervalTreeNode.Contains] at hpx
        omega
    · simpa only [hpx, false_or] using hx
  · rintro ⟨hcov, hw, hd⟩
    refine ⟨fun x => ?_, forall_mem_cons.mpr ⟨hp, hw⟩, pairwise_cons.mpr ⟨fun n hn => ?_, hd⟩⟩
    · rw [covers_cons, covers_cons, or_and_right, hpi, hcov]
    · have hc := (hcov n.start).mp ⟨n, hn, le_rfl, hw n hn⟩
      exact .inl (lt_of_covers hr hc.1)

theorem removes_cons_inside (hs : a ≤ node.start) (hl : node.last < b) :
    Removes (node :: nodes) a b tree' ↔ Removes nodes a b tree' := by
  have hi : ∀ x, Covers (node :: nodes) x ∧ ¬ (a ≤ x ∧ x < b) ↔
      Covers nodes x ∧ ¬ (a ≤ x ∧ x < b) := by
    intro x
    rw [covers_cons, or_and_right, or_iff_right]
    rintro ⟨hco, ho⟩
    rw [IntervalTreeNode.Contains] at hco
    omega
  constructor
  · rintro ⟨hc, hw, hd⟩
    exact ⟨fun x => (hc x).trans (hi x), hw, hd⟩
  · rintro ⟨hc, hw, hd⟩
    exact ⟨fun x => (hc x).trans (hi x).symm, hw, hd⟩

theorem gapless_cons (hs : node.start ≤ a) (hl : a ≤ node.last) :
    Gapless (node :: nodes) a b ↔ Gapless nodes (node.last + 1) b := by
  constructor
  · intro h x hx hxb y hy hyx
    have hc := h x (covers_cons.mpr (.inr hx)) hxb y (by omega) hyx
    refine (covers_cons.mp hc).resolve_left fun hco => ?_
    rw [IntervalTreeNode.Contains] at hco
    omega
  · intro h x hx hxb y hy hyx
    by_cases hyn : y ≤ node.last
    · exact covers_cons.mpr (.inl ⟨hs.trans hy, hyn⟩)
    refine covers_cons.mpr (.inr (h x ?_ hxb y (by omega) hyx))
    refine (covers_cons.mp hx).resolve_left fun hco => ?_
    rw [IntervalTreeNode.Contains] at hco
    omega

theorem gapless_cons_below (hl : node.last < a) :
    Gapless (node :: nodes) a b ↔ Gapless nodes a b := by
  have hn : ∀ x, a ≤ x → ¬ node.Contains x := by
    rintro x hx ⟨-, hco⟩
    omega
  constructor
  · intro h x hx hxb y hy hyx
    have hc := h x (covers_cons.mpr (.inr hx)) hxb y hy hyx
    exact (covers_cons.mp hc).resolve_left (hn y hy)
  · intro h x hx hxb y hy hyx
    have hc := (covers_cons.mp hx).resolve_left (hn x (hy.trans hyx))
    exact covers_cons.mpr (.inr (h x hc hxb y hy hyx))

theorem gapless_of_le (hle : ∀ n ∈ nodes, b ≤ n.start) : Gapless nodes a b := by
  rintro x ⟨n, hn, hc⟩ hx
  have := hle n hn
  rw [IntervalTreeNode.Contains] at hc
  omega

theorem not_overlaps_of_le (hb : 0 < b) (hle : ∀ n ∈ nodes, b ≤ n.start) (searched : ℕ) :
    ∀ n ∈ nodes, ¬ overlaps searched (b - 1) n := by
  intro n hn ho
  have := hle n hn
  rw [overlaps_iff] at ho
  omega

theorem removes_of_le (h : Ordered nodes) (hle : ∀ n ∈ nodes, b ≤ n.start) :
    Removes nodes a b nodes := by
  refine removes_self h ?_
  rintro x ⟨n, hn, hc⟩ hx
  have := hle n hn
  rw [IntervalTreeNode.Contains] at hc
  omega

theorem not_removes_of_lt (hlt : start < node.start) (ha : a ≤ node.start) (hb : node.start < b) :
    ¬ Removes tree a b (pieces split start (b - 1) node ++ tree') := by
  rintro ⟨hc, hw, -⟩
  have hm : (⟨node.start, before start⟩ : IntervalTreeNode) ∈
      pieces split start (b - 1) node ++ tree' := by
    rw [pieces, if_pos hlt.ne']
    exact mem_cons_self
  have hle := hw _ hm
  exact ((hc node.start).mp ⟨_, hm, le_rfl, hle⟩).2 ⟨ha, hb⟩

/-- **The pass behind the first address** removes the range exactly if there is no gap below a
covered address. -/
theorem removes_pass_iff (h : Ordered nodes) (hb : 0 < b) (hb' : b ≤ 2 ^ 64) (ha : a ≤ start)
    (hse : searched ≤ start) (hs : ∀ n ∈ nodes, start ≤ n.start) :
    Removes nodes a b (pass split (b - 1) nodes searched start) ↔ Gapless nodes start b := by
  induction nodes generalizing searched start with
  | nil => exact iff_of_true (removes_of_le h (by simp)) (gapless_of_le (by simp))
  | cons node nodes ih =>
    obtain ⟨hw, hbo, hlt, hno⟩ := ordered_cons.mp h
    have hle := hs node mem_cons_self
    by_cases hbe : b ≤ node.start
    · have hal : ∀ n ∈ node :: nodes, b ≤ n.start := forall_mem_cons.mpr
        ⟨hbe, fun n hn => (hbe.trans hw).trans (hlt n hn).le⟩
      rw [pass_of_not_overlaps (not_overlaps_of_le hb hal searched)]
      exact iff_of_true (removes_of_le h hal) (gapless_of_le hal)
    rw [pass, if_pos (overlaps_iff.mpr ⟨by omega, by omega⟩)]
    rcases hle.eq_or_lt with rfl | hg
    · have hp : pieces split node.start (b - 1) node =
          if node.last > b - 1 then [⟨b, node.last⟩] else [] := by
        rw [pieces, if_neg (not_not_intro rfl), Nat.sub_add_cancel hb]
      rw [gapless_cons le_rfl hw, hp]
      by_cases he : node.last < b - 1
      · -- the node is removed, and the next one is expected right behind it
        rw [if_neg (lt_asymm he), nil_append, nextStart_eq he (by omega),
          removes_cons_inside ha (by omega)]
        exact ih hno (by omega) (by omega) fun n hn => hlt n hn
      -- the node is the last one with addresses of the range
      have hal : ∀ n ∈ nodes, b ≤ n.start := fun n hn => by
        have := hlt n hn
        omega
      rw [pass_of_not_overlaps (not_overlaps_of_le hb hal _)]
      refine iff_of_true ?_ (gapless_of_le hal)
      split
      · have hpi : ∀ x, node.Contains x ∧ ¬ (a ≤ x ∧ x < b) ↔
            (⟨b, node.last⟩ : IntervalTreeNode).Contains x := fun x => by
          simp only [IntervalTreeNode.Contains]
          omega
        refine (removes_cons ?_ ?_ hpi).mpr (removes_of_le hno hal)
        · simp only
          omega
        · exact hlt
      · rw [nil_append, removes_cons_inside ha (by omega)]
        exact removes_of_le hno hal
    · -- there is a gap between `start` and the node
      refine iff_of_false (not_removes_of_lt hg (by omega) (by omega)) fun hga => ?_
      obtain ⟨n, hn, hc⟩ := hga node.start (covers_cons.mpr (.inl ⟨le_rfl, hw⟩))
        (by omega) start le_rfl hg.le
      rw [IntervalTreeNode.Contains] at hc
      rcases mem_cons.mp hn with rfl | hn
      · omega
      · have := hlt n hn
        omega

/-- An interval that reaches over both ends of the range is split if there is memory. -/
theorem removes_split_iff (h : Ordered (node :: nodes)) (hs : node.start < a) (hab : a ≤ b)
    (hl : b ≤ node.last) :
    Removes (node :: nodes) a b
      (⟨node.start, a - 1⟩ :: (if split then [⟨b, node.last⟩] else []) ++ nodes) ↔
      split = true := by
  obtain ⟨hw, hb, hlt, hno⟩ := ordered_cons.mp h
  cases split with
  | false =>
    refine iff_of_false ?_ (by simp)
    rintro ⟨hcov, -, -⟩
    have hc := (hcov node.last).mpr ⟨covers_cons.mpr (.inl ⟨hw, le_rfl⟩), by omega⟩
    rw [if_neg (by simp), singleton_append, covers_cons] at hc
    rcases hc with hco | hc
    · simp only [IntervalTreeNode.Contains] at hco
      omega
    · exact (lt_of_covers hlt hc).ne rfl
  | true =>
    refine iff_of_true ?_ rfl
    rw [if_pos rfl, cons_append, singleton_append]
    refine ⟨fun x => ?_, ?_, ?_⟩
    · rw [covers_cons, covers_cons, covers_cons]
      have ho : Covers nodes x → ¬ (a ≤ x ∧ x < b) := fun hc => by
        have := lt_of_covers hlt hc
        omega
      simp only [IntervalTreeNode.Contains]
      by_cases hc : Covers nodes x
      · simp [hc, ho hc]
      · simp only [hc, or_false]
        omega
    · refine forall_mem_cons.mpr ⟨by simp only; omega, ?_⟩
      exact forall_mem_cons.mpr ⟨hl, hno.wf⟩
    · refine pairwise_cons.mpr ⟨fun n hn => .inl ?_, pairwise_cons.mpr
        ⟨fun n hn => .inl (hlt n hn), hno.sorted.imp .inl⟩⟩
      simp only
      rcases mem_cons.mp hn with rfl | hn
      · simp only
        omega
      · have := hlt n hn
        omega

/-- **The whole pass** removes the range exactly if there is no gap below a covered address and an
interval over both ends can be split. -/
theorem removes_pass_tree_iff (h : Ordered nodes) (hb : 0 < b) (hb' : b ≤ 2 ^ 64) (hab : a ≤ b) :
    Removes nodes a b (pass split (b - 1) nodes a a) ↔
      Gapless nodes a b ∧ (split = true ∨ ∀ n ∈ nodes, ¬ (n.start < a ∧ b ≤ n.last)) := by
  induction nodes with
  | nil => exact iff_of_true (removes_of_le h (by simp)) ⟨gapless_of_le (by simp), by simp⟩
  | cons node nodes ih =>
    obtain ⟨hw, hbo, hlt, hno⟩ := ordered_cons.mp h
    by_cases hbe : node.last < a
    · -- the node is below the range
      have hov : ¬ overlaps a (b - 1) node := fun hov => by
        rw [overlaps_iff] at hov
        omega
      have hg : Gapless (node :: nodes) a b ↔ Gapless nodes a b := gapless_cons_below hbe
      rw [pass, if_neg hov, removes_cons hw hlt, ih hno, hg, forall_mem_cons]
      · simp only [show ¬ (node.start < a ∧ b ≤ node.last) by omega, not_false_eq_true, true_and]
      · intro x
        rw [IntervalTreeNode.Contains]
        omega
    by_cases hs : a ≤ node.start
    · -- the range starts in a gap, or with the node
      have ha : ∀ n ∈ node :: nodes, a ≤ n.start := forall_mem_cons.mpr
        ⟨hs, fun n hn => by
          have := hlt n hn
          omega⟩
      rw [removes_pass_iff h hb hb' le_rfl le_rfl ha, and_iff_left]
      refine .inr fun n hn han => ?_
      have := ha n hn
      omega
    -- the node has addresses below the range
    have ho : ∀ n ∈ nodes, ¬ (n.start < a ∧ b ≤ n.last) := fun n hn => by
      have := hlt n hn
      omega
    have hp : pieces split a (b - 1) node =
        ⟨node.start, a - 1⟩ :: if node.last > b - 1 ∧ split then [⟨b, node.last⟩] else [] := by
      rw [pieces, if_pos (by omega), before_eq (by omega) (by omega), Nat.sub_add_cancel hb]
    rw [pass, if_pos (overlaps_iff.mpr ⟨by omega, by omega⟩), hp, forall_mem_cons,
      and_iff_left ho, gapless_cons (by omega) (by omega)]
    by_cases he : node.last < b - 1
    · rw [if_neg (by omega), singleton_append, nextStart_eq he (by omega),
        removes_cons (by simp only; omega), removes_pass_iff hno hb hb' (by omega) (by omega),
        and_iff_left]
      · exact .inr (by omega)
      · exact hlt
      · intro n hn
        have := hlt n hn
        simp only
        omega
      · intro x
        simp only [IntervalTreeNode.Contains]
        omega
    · have ha : ∀ n ∈ nodes, b ≤ n.start := fun n hn => by
        have := hlt n hn
        omega
      rw [pass_of_not_overlaps (not_overlaps_of_le hb ha _), and_iff_right (gapless_of_le ha)]
      by_cases hu : b ≤ node.last
      · have hi : node.last > b - 1 ∧ split = true ↔ split = true :=
          and_iff_right (by omega)
        rw [if_congr hi rfl rfl, removes_split_iff h (by omega) hab hu, or_iff_left]
        exact fun hnot => hnot ⟨by omega, hu⟩
      rw [if_neg (by omega), singleton_append]
      refine iff_of_true ?_ (.inr (by omega))
      refine (removes_cons ?_ (fun n hn => ?_) fun x => ?_).mpr (removes_of_le hno ha)
      · simp only
        omega
      · have := hlt n hn
        simp only
        omega
      · simp only [IntervalTreeNode.Contains]
        omega

/-- **Removing a range**: for all disjoint intervals and every range, the range is removed exactly
if none of its addresses is covered behind one that is not, and there is memory for a new node where
an interval reaches over both ends of the range. -/
theorem removes_iff (split : Bool) (h : Ordered tree) (npages : ℕ)
    (hpos : 0 < a + npages * Svm.pageSize) (hle : a + npages * Svm.pageSize ≤ 2 ^ 64) :
    Removes tree a (a + npages * Svm.pageSize) (removeVmemInterval split tree a npages) ↔
      Gapless tree a (a + npages * Svm.pageSize) ∧
        (split = true ∨ ∀ n ∈ tree, ¬ (n.start < a ∧ a + npages * Svm.pageSize ≤ n.last)) := by
  rw [removes_perm (removeVmemInterval_perm h split a npages), Svm.lastAddress_eq hpos hle]
  exact removes_pass_tree_iff h hpos hle (Nat.le_add_right _ _)

end

/-- Two adjacent intervals: a range that starts in the first one and ends with the second one. -/
theorem removes_adjacent :
    Removes [⟨0x1000, 0x2fff⟩, ⟨0x3000, 0x3fff⟩] 0x2000 0x4000
      (removeVmemInterval false [⟨0x1000, 0x2fff⟩, ⟨0x3000, 0x3fff⟩] 0x2000 2) := by
  have hordered : Ordered [⟨0x1000, 0x2fff⟩, ⟨0x3000, 0x3fff⟩] := ⟨by decide, by decide, by decide⟩
  refine (removes_iff false hordered 2 (by decide) (by decide)).mpr ⟨?_, .inr (by decide)⟩
  intro x hx hlt y hy hyx
  simp only [covers_cons, IntervalTreeNode.Contains] at hx ⊢
  simp only [Svm.pageSize] at hlt
  omega

/-- Two intervals with a gap: after a removal over the gap, the second one starts at `0x3000` and
ends at `0x1fff`. -/
theorem interval_behind_gap_inverted :
    ¬ Removes [⟨0x1000, 0x1fff⟩, ⟨0x3000, 0x3fff⟩] 0x1000 0x4000
      (removeVmemInterval true [⟨0x1000, 0x1fff⟩, ⟨0x3000, 0x3fff⟩] 0x1000 3) := by
  intro h
  exact absurd (h.wf ⟨0x3000, 0x1fff⟩ (by decide +kernel)) (by decide)

/-! ### The removals of the driver -/

/-- The node of a segment that is not empty. -/
def ofSegment (s : Segment) : IntervalTreeNode :=
  ⟨s.base, s.stop - 1⟩

@[simp] theorem ofSegment_start (s : Segment) : (ofSegment s).start = s.base := rfl

@[simp] theorem ofSegment_last (s : Segment) : (ofSegment s).last = s.stop - 1 := rfl

section

variable {tree pre post : List Segment} {p : Segment} {split : Bool} {a b : ℕ}

theorem intervalTreeInsert_map (m : Segment) (tree : List Segment) :
    intervalTreeInsert (ofSegment m) (tree.map ofSegment) =
      (insertSorted m tree).map ofSegment := by
  induction tree with
  | nil => rfl
  | cons s tree ih =>
    rw [map_cons, intervalTreeInsert, List.orderedInsert, insertSorted]
    have hi : (ofSegment m).start < (ofSegment s).start ↔ m.base < s.base := Iff.rfl
    by_cases hlt : m.base < s.base
    · rw [if_pos (hi.mpr hlt), if_pos hlt]
      rfl
    · rw [if_neg (mt hi.mp hlt), if_neg hlt, map_cons, ← ih]
      rfl

theorem removeFromNode_map (hp : ∀ s ∈ pre, s.base < p.base) (hb : p.base ≤ a)
    (hab : a < b) (hst : b ≤ p.stop) (hle : a ≤ 2 ^ 64) :
    removeFromNode split a (b - 1) (ofSegment p) ((pre ++ p :: post).map ofSegment) =
      (Svm.removeFromNode split a (b - 1) p (pre ++ p :: post)).map ofSegment := by
  have he : (pre ++ p :: post).erase p = pre ++ post := by
    rw [erase_append_right _ fun hme => (hp p hme).ne rfl, erase_cons_head]
  have he' : ((pre ++ p :: post).map ofSegment).erase (ofSegment p) =
      (pre ++ post).map ofSegment := by
    rw [map_append, map_cons, erase_node, ← map_append]
    intro m hm
    obtain ⟨s, hs, rfl⟩ := mem_map.mp hm
    exact hp s hs
  have hu : (⟨b - 1 + 1, p.stop - 1⟩ : IntervalTreeNode) =
      ofSegment ⟨b - 1 + 1, p.stop - (b - 1 + 1)⟩ := by
    simp only [ofSegment, Segment.stop_mk, IntervalTreeNode.mk.injEq, true_and]
    omega
  have hlo : p.base ≠ a →
      (⟨p.base, before a⟩ : IntervalTreeNode) = ofSegment ⟨p.base, a - p.base⟩ := by
    intro hne
    rw [before_eq (by omega) hle]
    simp only [ofSegment, Segment.stop_mk, IntervalTreeNode.mk.injEq, true_and]
    omega
  simp only [removeFromNode, Svm.removeFromNode, he, he', ofSegment_start, ofSegment_last]
  by_cases hl : p.base = a
  · rw [if_neg (not_not_intro hl), if_neg (not_not_intro hl), hu, intervalTreeInsert_map,
      apply_ite (List.map ofSegment)]
  · rw [if_pos hl, if_pos hl, hlo hl, hu, intervalTreeInsert_map,
      ← apply_ite (List.map ofSegment), intervalTreeInsert_map]

/-- **The removals of the driver**: where the whole range is covered, the functions on nodes and on
segments have the same result. -/
theorem removeVmemInterval_map_ofSegment (h : Canonical tree) {k : ℕ} (hpos : 0 < k)
    (hle : a + k * Svm.pageSize ≤ 2 ^ 64)
    (hc : ∀ x, a ≤ x → x < a + k * Svm.pageSize → FreeList.Covers tree x) :
    removeVmemInterval split (tree.map ofSegment) a k =
      (Svm.removeVmemInterval split tree a k).map ofSegment := by
  have hab : a < a + k * Svm.pageSize := Nat.lt_add_of_pos_right (Nat.mul_pos hpos (by decide))
  rw [removeVmemInterval, Svm.removeVmemInterval, Svm.lastAddress_eq (Nat.zero_lt_of_lt hab) hle]
  generalize a + k * Svm.pageSize = b at *
  obtain ⟨pre, p, post, rfl, hb, hst, hp, hpo⟩ := Svm.exists_node_of_range h hab hc
  have ho : Svm.overlaps a (b - 1) p := Svm.overlaps_iff.mpr ⟨by omega, by omega⟩
  have hlt : ∀ s ∈ pre, s.base < p.base := by
    intro s hs
    have ha := (pairwise_append.mp h.apart).2.2 s hs p mem_cons_self
    exact (Nat.le_add_right _ _).trans_lt ha
  have hf : intervalTreeIterFirst ((pre ++ p :: post).map ofSegment) a (b - 1) =
      some (ofSegment p) := by
    refine find?_eq_some_iff_append.mpr
      ⟨ho, pre.map ofSegment, post.map ofSegment, map_append, fun n hn => ?_⟩
    obtain ⟨s, hs, rfl⟩ := mem_map.mp hn
    have hno : ¬ overlaps a (b - 1) (ofSegment s) = true := hp s hs
    simpa using hno
  have hnex : intervalTreeIterNext ((pre ++ p :: post).map ofSegment) (ofSegment p) a (b - 1) =
      none := by
    rw [map_append, map_cons, intervalTreeIterNext_append, find?_eq_none]
    · intro n hn
      obtain ⟨s, hs, rfl⟩ := mem_map.mp hn
      exact hpo s hs
    · intro m hm
      obtain ⟨s, hs, rfl⟩ := mem_map.mp hm
      exact hlt s hs
  have hl : ((pre ++ p :: post).map ofSegment).length = (pre.length + post.length) + 1 := by
    simp
    omega
  rw [Svm.removeLoop_of_overlaps ho hp hpo, hf]
  simp only
  rw [hl, removeLoop, hnex]
  exact removeFromNode_map hlt hb hab hst (by omega)

end

theorem removeVmemInterval_map_ofSegment_middle :
    removeVmemInterval true ([⟨0, 12288⟩].map ofSegment) 4096 1 =
      (Svm.removeVmemInterval true [⟨0, 12288⟩] 4096 1).map ofSegment :=
  removeVmemInterval_map_ofSegment (canonical_singleton (by decide)) (by decide) (by decide)
    fun x _ hx => ⟨_, mem_singleton_self _, Nat.zero_le x, hx.trans_le (by decide)⟩

end Tapasco.SvmTree
