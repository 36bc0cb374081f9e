import Tapasco.SvmTransfer

/-!
# The Interval Tree of a Device

For each device the driver keeps the virtual addresses whose pages are on it in an interval
tree. This module embeds `insert_vmem_interval`, `remove_vmem_interval`,
`search_vmem_intervals`, `is_page_present` and the part of the MMU notifier that works on the
tree. The tree is a list of its nodes in the order of their first addresses; a node is the
segment from its first address to its last. Whether the kernel has memory for a new node, or for
the entries of a search, is a parameter.

The loop of a removal trims the first node it meets at `vaddr`, and any later node at the end of
the node before. Where the range to remove is part of one node, which is how the driver calls it,
that is right. A node that starts above `start` would get a last address below its first one, which
a segment cannot have; the module `SvmTree` has the removal of any range.
-/

open FreeList List
open Segment (Contains stop_mk)

namespace Tapasco.Svm

/-- The value of an unsigned number that is assigned to an `int`. -/
def toInt (x : ℕ) : ℤ :=
  Int.bmod x (2 ^ 32)

/-- The number of pages between two addresses, as the source computes it. -/
def pagesBetween (start stop : ℕ) : ℤ :=
  toInt ((stop + 2 ^ 64 - start) % 2 ^ 64 / pageSize)

/-- The last address of a range of pages, `vaddr + npages * PAGE_SIZE - 1` in 64 bits. -/
def lastAddress (vaddr : ℕ) (npages : ℤ) : ℕ :=
  ((vaddr + npages * pageSize - 1) % 2 ^ 64).toNat

/-- The test of `interval_tree_iter_first` and `interval_tree_iter_next`. -/
def overlaps (start last : ℕ) (node : Segment) : Bool :=
  decide (node.base ≤ last ∧ start ≤ node.stop - 1)

def intervalTreeIterFirst (tree : List Segment) (start last : ℕ) : Option Segment :=
  tree.find? (overlaps start last)

/-- `interval_tree_remove` of a node, if there is one. -/
def removeNode (tree : List Segment) : Option Segment → List Segment
  | none => tree
  | some node => tree.erase node

/-- The interval before the one to insert. -/
def predecessor (tree : List Segment) (vaddr : ℕ) : Option Segment :=
  if vaddr > 0 then intervalTreeIterFirst tree (vaddr - pageSize) (vaddr - 1) else none

/-- `insert_vmem_interval`, with whether there is memory for the new node. -/
def insertVmemInterval (node : Bool) (tree : List Segment) (vaddr npages : ℕ) : List Segment :=
  if node then
    let pred := predecessor tree vaddr
    let succ := intervalTreeIterFirst tree (vaddr + npages * pageSize) (vaddr + npages * pageSize)
    let start := pred.elim vaddr Segment.base
    let stop := succ.elim (vaddr + npages * pageSize) Segment.stop
    insertSorted ⟨start, stop - start⟩ (removeNode (removeNode tree pred) succ)
  else tree

/-- The body of the loop of `remove_vmem_interval`, with whether there is memory for the node
that takes the upper part. -/
def removeFromNode (split : Bool) (start last : ℕ) (node : Segment) (tree : List Segment) :
    List Segment :=
  if node.base ≠ start then
    insertSorted ⟨node.base, start - node.base⟩
      (if node.stop - 1 > last ∧ split then
        insertSorted ⟨last + 1, node.stop - (last + 1)⟩ (tree.erase node)
      else tree.erase node)
  else if node.stop - 1 > last then
    insertSorted ⟨last + 1, node.stop - (last + 1)⟩ (tree.erase node)
  else tree.erase node

/-- The loop of `remove_vmem_interval`, over the nodes in order. A node is looked for with the
`start` of the node before it. -/
def removeLoop (split : Bool) (last : ℕ) :
    List Segment → ℕ → ℕ → List Segment → List Segment
  | [], _, _, tree => tree
  | node :: nodes, searched, start, tree =>
    if overlaps searched last node then
      removeLoop split last nodes start (min node.stop last)
        (removeFromNode split start last node tree)
    else removeLoop split last nodes searched start tree

def removeVmemInterval (split : Bool) (tree : List Segment) (vaddr : ℕ) (npages : ℤ) :
    List Segment :=
  removeLoop split (lastAddress vaddr npages) tree vaddr vaddr tree

/-- The loop of `search_vmem_intervals`, over the nodes in order. -/
def searchLoop (last : ℕ) : List Segment → ℕ → List Segment
  | [], _ => []
  | node :: nodes, start =>
    if overlaps start last node then node :: searchLoop last nodes (min node.stop last)
    else searchLoop last nodes start

/-- The intervals of a range that are in the tree. -/
def intervalsIn (tree : List Segment) (vaddr : ℕ) (npages : ℤ) : List Segment :=
  searchLoop (lastAddress vaddr npages) tree vaddr

/-- `search_vmem_intervals`: the entries of the list, and whether the search succeeds. There may
be memory for some entries only. -/
def searchVmemIntervals (entries : Option ℕ) (tree : List Segment) (vaddr : ℕ) (npages : ℤ) :
    List Segment × Bool :=
  match entries with
  | none => (intervalsIn tree vaddr npages, true)
  | some n =>
    ((intervalsIn tree vaddr npages).take n, (intervalsIn tree vaddr npages).length ≤ n)

def isPagePresent (tree : List Segment) (vaddr : ℕ) : Bool :=
  (intervalTreeIterFirst tree vaddr (vaddr + pageSize - 1)).isSome

/-- The allocations for the tree of a device that may fail in a call: the node for an inserted
interval, the node for the upper part of a split one, and the entries of a search. -/
structure Mem where
  node : Bool
  split : Bool
  entries : Option ℕ

def Mem.ample : Mem :=
  ⟨true, true, none⟩

/-- The call of `invalidate_tlb_range` for an interval, with its number of pages. -/
def invalidation (start stop : ℕ) (entry : Segment) : ℕ × ℤ :=
  (max entry.base start, pagesBetween (max entry.base start) (min entry.stop stop))

/-- The calls of `invalidate_tlb_range` in `svm_tlb_invalidate_range_start`. -/
def invalidations (mem : Mem) (tree : List Segment) (start stop : ℕ) : List (ℕ × ℤ) :=
  (searchVmemIntervals mem.entries tree start (pagesBetween start stop)).1.map
    (invalidation start stop)

/-- `svm_tlb_invalidate_range_start`, for a range that is not skipped: what is invalidated is taken
out of the tree. -/
def svmTlbInvalidateRangeStart (mem : Mem) (tree : List Segment) (start stop : ℕ) : List Segment :=
  (invalidations mem tree start stop).foldl
    (fun tree call => removeVmemInterval mem.split tree call.1 call.2) tree

/-! ### Trees -/

/-- The intervals are disjoint and do not touch, and consist of whole pages. -/
structure Tree (tree : List Segment) : Prop where
  canonical : Canonical tree
  aligned : ∀ s ∈ tree, pageSize ∣ s.base ∧ pageSize ∣ s.stop

theorem tree_nil : Tree [] :=
  ⟨canonical_nil, by simp⟩

theorem toInt_of_lt {x : ℕ} (h : x < 2 ^ 31) : toInt x = x :=
  Int.bmod_eq_of_le (by omega) (by omega)

theorem toInt_bounds (x : ℕ) : -2 ^ 31 ≤ toInt x ∧ toInt x < 2 ^ 31 := by
  have hl := Int.le_bmod (x := (x : ℤ)) (m := 2 ^ 32) (by omega)
  have hh := Int.bmod_lt (x := (x : ℤ)) (m := 2 ^ 32) (by omega)
  exact ⟨hl, hh⟩

theorem pagesBetween_eq {a b : ℕ} (hab : a ≤ b) (hi : b - a < 2 ^ 31 * pageSize) :
    pagesBetween a b = ((b - a) / pageSize : ℕ) := by
  simp only [pageSize] at hi
  have hm : (b + 2 ^ 64 - a) % 2 ^ 64 = b - a := by omega
  rw [pagesBetween, hm]
  exact toInt_of_lt (by simp only [pageSize]; omega)

theorem lastAddress_eq {va npages : ℕ} (hp : 0 < va + npages * pageSize)
    (hle : va + npages * pageSize ≤ 2 ^ 64) :
    lastAddress va npages = va + npages * pageSize - 1 := by
  simp only [lastAddress, pageSize] at hp hle ⊢
  push_cast
  omega

theorem overlaps_iff {start last : ℕ} {node : Segment} :
    overlaps start last node ↔ node.base ≤ last ∧ start ≤ node.stop - 1 :=
  decide_eq_true_iff

section

variable {tree : List Segment} {a b x : ℕ}

theorem Tree.sublist (h : Tree tree) {l : List Segment} (hl : l.Sublist tree) : Tree l :=
  ⟨⟨fun s hs => h.canonical.pos s (hl.subset hs), h.canonical.apart.sublist hl⟩,
    fun s hs => h.aligned s (hl.subset hs)⟩

theorem Tree.insertSorted (h : Tree tree) {m : Segment} (hm : 0 < m.size)
    (hb : pageSize ∣ m.base) (hst : pageSize ∣ m.stop)
    (ha : ∀ s ∈ tree, s.stop < m.base ∨ m.stop < s.base) : Tree (insertSorted m tree) := by
  refine ⟨canonical_insertSorted h.canonical hm ha, fun s hs => ?_⟩
  rcases (mem_insertSorted m s tree).mp hs with rfl | hs
  · exact ⟨hb, hst⟩
  · exact h.aligned s hs

theorem eq_of_dvd_of_lt (ha : pageSize ∣ a) (hb : pageSize ∣ b) (hle : a ≤ b)
    (hlt : b < a + pageSize) : a = b := by
  simp only [pageSize] at ha hb hlt
  omega

theorem before_or_after {s : Segment} (h : Canonical tree) (hs : s ∈ tree) (hab : a < b)
    (hf : ∀ x, a ≤ x → x < b → ¬ Covers tree x) : s.stop ≤ a ∨ b ≤ s.base := by
  have hb := h.base_lt_stop hs
  by_contra ho
  exact hf (max s.base a) (by omega) (by omega) ⟨s, hs, by omega, by omega⟩

/-! ### Insertion -/

theorem find?_of_iff {found : Segment → Bool} {P : Segment → Prop}
    (hi : ∀ s ∈ tree, found s ↔ P s) : (∃ q ∈ tree, P q ∧ tree.find? found = some q) ∨
      (∀ s ∈ tree, ¬ P s) ∧ tree.find? found = none := by
  cases hf : tree.find? found with
  | none => exact .inr ⟨fun s hs hp => find?_eq_none.mp hf s hs ((hi s hs).mpr hp), rfl⟩
  | some q =>
    have hq := mem_of_find?_eq_some hf
    exact .inl ⟨q, hq, (hi q hq).mp (find?_some hf), rfl⟩

theorem predecessor_spec (h : Tree tree) (ha : pageSize ∣ a) (hfr : ¬ Covers tree a) :
    (∃ p ∈ tree, p.stop = a ∧ predecessor tree a = some p) ∨
      (∀ s ∈ tree, s.stop ≠ a) ∧ predecessor tree a = none := by
  have hst : ∀ s ∈ tree, 0 < s.stop := fun s hs =>
    Nat.add_pos_right _ (h.canonical.pos s hs)
  rw [predecessor]
  by_cases hpo : a > 0
  · have hpa : pageSize ≤ a := Nat.le_of_dvd hpo ha
    have hsi : 0 < pageSize := by decide
    have hi : ∀ s ∈ tree, overlaps (a - pageSize) (a - 1) s ↔ s.stop = a := by
      intro s hs
      have hb := h.canonical.base_lt_stop hs
      have hl := hst s hs
      rw [overlaps_iff]
      constructor
      · rintro ⟨hle, hge⟩
        have hsa : s.stop ≤ a := not_lt.mp fun hlt => hfr ⟨s, hs, by omega, hlt⟩
        exact eq_of_dvd_of_lt (h.aligned s hs).2 ha hsa (by omega)
      · rintro rfl
        omega
    rw [if_pos hpo]
    exact find?_of_iff hi
  · rw [if_neg hpo]
    refine .inr ⟨fun s hs heq => ?_, rfl⟩
    have := hst s hs
    omega

theorem successor_spec (h : Tree tree) (hab : a < b) (hfr : ∀ x, a ≤ x → x < b → ¬ Covers tree x) :
    (∃ q ∈ tree, q.base = b ∧ intervalTreeIterFirst tree b b = some q) ∨
      (∀ s ∈ tree, s.base ≠ b) ∧ intervalTreeIterFirst tree b b = none := by
  have hi : ∀ s ∈ tree, overlaps b b s ↔ s.base = b := by
    intro s hs
    have hb := h.canonical.base_lt_stop hs
    rw [overlaps_iff]
    constructor
    · rintro ⟨hle, hge⟩
      rcases before_or_after h.canonical hs hab hfr with ho | ho <;> omega
    · rintro rfl
      omega
  exact find?_of_iff hi

theorem mem_removeNode (h : Canonical tree) {o : Option Segment} {s : Segment} :
    s ∈ removeNode tree o ↔ s ∈ tree ∧ o ≠ some s := by
  cases o with
  | none => simp [removeNode]
  | some p =>
    rw [removeNode, h.mem_erase, and_comm, ne_eq, ne_eq, Option.some.injEq, eq_comm]

/-- An interval is added, if it is not empty. -/
theorem Tree.insertGap (h : Tree tree) (ha : pageSize ∣ a) (hb : pageSize ∣ b)
    (hap : ∀ s ∈ tree, s.stop < a ∨ b < s.base) :
    Tree ((gap a b).foldr FreeList.insertSorted tree) := by
  rcases lt_or_ge a b with hlt | hle
  · have he : (Segment.mk a (b - a)).stop = b := Nat.add_sub_cancel' hlt.le
    rw [gap_of_lt hlt]
    refine h.insertSorted (Nat.sub_pos_of_lt hlt) ha ?_ ?_ <;> rwa [he]
  · rw [gap_of_le hle]
    exact h

theorem Tree.removeNode (h : Tree tree) (o : Option Segment) : Tree (removeNode tree o) := by
  cases o with
  | none => exact h
  | some p => exact h.sublist erase_sublist

theorem covers_removeNode (h : Canonical tree) {o : Option Segment} (ho : ∀ p ∈ o, p ∈ tree) :
    Covers tree x ↔ (∃ p ∈ o, p.Contains x) ∨ Covers (removeNode tree o) x := by
  cases o with
  | none => simp [Svm.removeNode]
  | some p =>
    rw [h.covers_erase (ho p rfl)]
    simp [Svm.removeNode]

theorem start_spec (h : Tree tree) (ha : pageSize ∣ a) (hf : ¬ Covers tree a) :
    ∃ start, (predecessor tree a).elim a Segment.base = start ∧ start ≤ a ∧
      pageSize ∣ start ∧ (∀ p ∈ predecessor tree a, p ∈ tree ∧ p.stop = a) ∧
      (∀ s ∈ tree, predecessor tree a ≠ some s → s.stop ≤ a → s.stop < start) ∧
      ∀ x, (∃ p ∈ predecessor tree a, p.Contains x) ↔ start ≤ x ∧ x < a := by
  refine ⟨_, rfl, ?_⟩
  rcases predecessor_spec h ha hf with ⟨p, hp, hst, heq⟩ | ⟨hn, heq⟩
  · have hb := h.canonical.base_lt_stop hp
    simp only [heq, Option.elim_some, Option.mem_some_iff, forall_eq', exists_eq_left']
    refine ⟨by omega, (h.aligned p hp).1, ⟨hp, hst⟩, fun s hs hne hle => ?_, fun x => ?_⟩
    · have hne' : s ≠ p := fun heq => hne (congrArg some heq.symm)
      have hsb := h.canonical.base_lt_stop hs
      rcases h.canonical.apart_of_ne hs hp hne' with hap | hap <;> omega
    · rw [Contains, hst]
  · simp only [heq, Option.elim_none, Option.not_mem_none, false_and, exists_false]
    refine ⟨le_rfl, ha, fun p hp => absurd hp (by simp), fun s hs _ hle => ?_, fun x => ?_⟩
    · exact lt_of_le_of_ne hle (hn s hs)
    · exact ⟨False.elim, fun hx => by omega⟩

theorem stop_spec (h : Tree tree) (hb : pageSize ∣ b) (hab : a < b)
    (hf : ∀ x, a ≤ x → x < b → ¬ Covers tree x) :
    ∃ stop, (intervalTreeIterFirst tree b b).elim b Segment.stop = stop ∧ b ≤ stop ∧
      pageSize ∣ stop ∧ (∀ q ∈ intervalTreeIterFirst tree b b, q ∈ tree ∧ q.base = b) ∧
      (∀ s ∈ tree, intervalTreeIterFirst tree b b ≠ some s → b ≤ s.base → stop < s.base) ∧
      ∀ x, (∃ q ∈ intervalTreeIterFirst tree b b, q.Contains x) ↔ b ≤ x ∧ x < stop := by
  refine ⟨_, rfl, ?_⟩
  rcases successor_spec h hab hf with ⟨q, hq, hba, heq⟩ | ⟨hn, heq⟩
  · have hc := h.canonical.base_lt_stop hq
    simp only [heq, Option.elim_some, Option.mem_some_iff, forall_eq', exists_eq_left']
    refine ⟨by omega, (h.aligned q hq).2, ⟨hq, hba⟩, fun s hs hne hle => ?_, fun x => ?_⟩
    · have hne' : s ≠ q := fun heq => hne (congrArg some heq.symm)
      have hsb := h.canonical.base_lt_stop hs
      rcases h.canonical.apart_of_ne hs hq hne' with ha | ha <;> omega
    · rw [Contains, hba]
  · simp only [heq, Option.elim_none, Option.not_mem_none, false_and, exists_false]
    refine ⟨le_rfl, hb, fun p hp => absurd hp (by simp), fun s hs _ hle => ?_, fun x => ?_⟩
    · exact lt_of_le_of_ne hle (Ne.symm (hn s hs))
    · exact ⟨False.elim, fun hx => by omega⟩

variable {npages : ℕ}

theorem insertVmemInterval_spec (h : Tree tree) (ha : pageSize ∣ a) (hpo : 0 < npages)
    (hf : ∀ x, a ≤ x → x < a + npages * pageSize → ¬ Covers tree x) :
    Tree (insertVmemInterval true tree a npages) ∧
      ∀ x, Covers (insertVmemInterval true tree a npages) x ↔
        Covers tree x ∨ a ≤ x ∧ x < a + npages * pageSize := by
  have hab : a < a + npages * pageSize := Nat.lt_add_of_pos_right (Nat.mul_pos hpo (by decide))
  have hb : pageSize ∣ a + npages * pageSize := Nat.dvd_add ha (dvd_mul_left _ _)
  obtain ⟨start, hsta, hle, hd, hpr, hbe, hpco⟩ := start_spec h ha (hf a le_rfl hab)
  obtain ⟨stop, hst, hge, hd', hsu, habo, hqc⟩ := stop_spec h hb hab hf
  simp only [insertVmemInterval, if_true, hsta, hst]
  generalize a + npages * pageSize = b at *
  have hr := (h.removeNode (predecessor tree a)).removeNode (intervalTreeIterFirst tree b b)
  have hmem : ∀ s, s ∈ Svm.removeNode (Svm.removeNode tree (predecessor tree a))
      (intervalTreeIterFirst tree b b) ↔
      (s ∈ tree ∧ predecessor tree a ≠ some s) ∧ intervalTreeIterFirst tree b b ≠ some s :=
    fun s => by rw [mem_removeNode (h.removeNode _).canonical, mem_removeNode h.canonical]
  have hg : ∀ l, insertSorted ⟨start, stop - start⟩ l = (gap start stop).foldr insertSorted l := by
    intro l
    rw [gap_of_lt (by omega)]
    rfl
  rw [hg]
  refine ⟨hr.insertGap hd hd' fun s hs => ?_, fun x => ?_⟩
  · obtain ⟨⟨hs, hn⟩, hnq⟩ := (hmem s).mp hs
    rcases before_or_after h.canonical hs hab hf with ho | ho
    · exact .inl (hbe s hs hn ho)
    · exact .inr (habo s hs hnq ho)
  · -- the two neighbours and the new interval, against the interval of all three
    have hq : ∀ q ∈ intervalTreeIterFirst tree b b,
        q ∈ Svm.removeNode tree (predecessor tree a) := by
      intro q hq
      refine (mem_removeNode h.canonical).mpr ⟨(hsu q hq).1, fun heq => ?_⟩
      have hst := (hpr q heq).2
      have hba := (hsu q hq).2
      have hc := h.canonical.base_lt_stop (hsu q hq).1
      omega
    rw [covers_foldr_insertSorted, covers_gap,
      covers_removeNode h.canonical fun p hp => (hpr p hp).1,
      covers_removeNode (h.removeNode _).canonical hq, hpco, hqc]
    by_cases hc : Covers (Svm.removeNode (Svm.removeNode tree (predecessor tree a))
        (intervalTreeIterFirst tree b b)) x
    · simp only [hc, or_true, true_or]
    · simp only [hc, or_false]
      omega

/-! ### Removal -/

theorem removeLoop_of_not_overlaps {split : Bool} {last se : ℕ} {ns : List Segment}
    (hn : ∀ s ∈ ns, ¬ overlaps se last s) (start : ℕ) (tree : List Segment) :
    removeLoop split last ns se start tree = tree := by
  induction ns with
  | nil => rfl
  | cons s ns ih =>
    rw [removeLoop, if_neg (hn s mem_cons_self)]
    exact ih fun t ht => hn t (mem_cons_of_mem _ ht)

theorem removeLoop_of_overlaps {split : Bool} {last : ℕ} {pre post : List Segment} {p : Segment}
    (hp : overlaps a last p) (hpr : ∀ s ∈ pre, ¬ overlaps a last s)
    (hpo : ∀ s ∈ post, ¬ overlaps a last s) (tree : List Segment) :
    removeLoop split last (pre ++ p :: post) a a tree = removeFromNode split a last p tree := by
  induction pre with
  | nil =>
    rw [nil_append, removeLoop, if_pos hp]
    exact removeLoop_of_not_overlaps hpo _ _
  | cons s pre ih =>
    rw [cons_append, removeLoop, if_neg (hpr s mem_cons_self)]
    exact ih fun t ht => hpr t (mem_cons_of_mem _ ht)

/-- What the node has below and above the range goes back into the tree. -/
theorem removeFromNode_eq {p : Segment} (hab : a < b) (hba : p.base ≤ a) :
    removeFromNode true a (b - 1) p tree =
      (gap p.base a).foldr insertSorted ((gap b p.stop).foldr insertSorted (tree.erase p)) := by
  have hla : b - 1 + 1 = b := by omega
  have hup : p.stop - 1 > b - 1 ↔ b < p.stop := by omega
  rw [removeFromNode, hla, gap, gap]
  simp only [hup, ← hba.lt_iff_ne, and_true]
  split <;> split <;> rfl

theorem removeFromNode_spec (h : Tree tree) {p : Segment} (hp : p ∈ tree) (ha : pageSize ∣ a)
    (hb : pageSize ∣ b) (hab : a < b) (hba : p.base ≤ a) (hst : b ≤ p.stop) :
    Tree (removeFromNode true a (b - 1) p tree) ∧
      ∀ x, Covers (removeFromNode true a (b - 1) p tree) x ↔ Covers tree x ∧ ¬ (a ≤ x ∧ x < b) := by
  have hap : ∀ s ∈ tree.erase p, s.stop < p.base ∨ p.stop < s.base := fun s hs =>
    have hs' := h.canonical.mem_erase.mp hs
    h.canonical.apart_of_ne hs'.2 hp hs'.1
  obtain ⟨hdv, hd'⟩ := h.aligned p hp
  have hu : Tree ((gap b p.stop).foldr insertSorted (tree.erase p)) :=
    (h.sublist erase_sublist).insertGap hb hd' fun s hs => (hap s hs).imp_left fun hlt => by omega
  rw [removeFromNode_eq hab hba]
  refine ⟨hu.insertGap hdv ha fun s hs => ?_, fun x => ?_⟩
  · rcases mem_foldr_insertSorted.mp hs with hs | hs
    · rw [(mem_gap hs).1]
      exact .inr hab
    · exact (hap s hs).imp_right fun hlt => by omega
  · rw [covers_foldr_insertSorted, covers_foldr_insertSorted, covers_gap, covers_gap,
      h.canonical.covers_erase hp, Contains]
    by_cases hr : Covers (tree.erase p) x
    · -- no other node has an address of this one
      obtain ⟨s, hs, hle, hlt⟩ := hr
      have hc : Covers (tree.erase p) x := ⟨s, hs, hle, hlt⟩
      simp only [hc, or_true, true_and, true_iff]
      rcases hap s hs with ho | ho <;> omega
    · simp only [hr, or_false]
      omega

/-- Addresses that are all in the tree lie in one interval, the only one that a search for them
finds. -/
theorem exists_node_of_range (h : Canonical tree) (hab : a < b)
    (hc : ∀ x, a ≤ x → x < b → Covers tree x) :
    ∃ pre p post, tree = pre ++ p :: post ∧ p.base ≤ a ∧ b ≤ p.stop ∧
      (∀ s ∈ pre, ¬ overlaps a (b - 1) s) ∧ ∀ s ∈ post, ¬ overlaps a (b - 1) s := by
  obtain ⟨p, hp, hb, hst⟩ := h.exists_of_range hab hc
  obtain ⟨pre, post, hsp⟩ := append_of_mem hp
  have ho : ∀ s ∈ tree, s ≠ p → ¬ overlaps a (b - 1) s := by
    intro s hs hne hov
    have hsb := h.base_lt_stop hs
    rw [overlaps_iff] at hov
    rcases h.apart_of_ne hs hp hne with ha | ha <;> omega
  have hn := h.nodup
  rw [hsp, nodup_middle, nodup_cons, mem_append, not_or] at hn
  refine ⟨pre, p, post, hsp, hb, hst, fun s hs => ?_, fun s hs => ?_⟩
  · refine ho s (by rw [hsp]; exact mem_append_left _ hs) fun heq => ?_
    exact hn.1.1 (heq ▸ hs)
  · refine ho s ?_ fun heq => hn.1.2 (heq ▸ hs)
    rw [hsp]
    exact mem_append_right _ (mem_cons_of_mem _ hs)

/-- **Removal** of addresses that are all in the tree. They lie in one interval. -/
theorem removeVmemInterval_spec (h : Tree tree) (ha : pageSize ∣ a) (hp : 0 < npages)
    (hle : a + npages * pageSize ≤ 2 ^ 64)
    (hc : ∀ x, a ≤ x → x < a + npages * pageSize → Covers tree x) :
    Tree (removeVmemInterval true tree a npages) ∧
      ∀ x, Covers (removeVmemInterval true tree a npages) x ↔
        Covers tree x ∧ ¬ (a ≤ x ∧ x < a + npages * pageSize) := by
  have hab : a < a + npages * pageSize := Nat.lt_add_of_pos_right (Nat.mul_pos hp (by decide))
  have hb : pageSize ∣ a + npages * pageSize := Nat.dvd_add ha (dvd_mul_left _ _)
  rw [removeVmemInterval, lastAddress_eq (Nat.zero_lt_of_lt hab) hle]
  generalize a + npages * pageSize = b at *
  obtain ⟨pre, p, post, rfl, hba, hs, hpr, hpo⟩ := exists_node_of_range h.canonical hab hc
  have ho : overlaps a (b - 1) p := overlaps_iff.mpr ⟨by omega, by omega⟩
  rw [removeLoop_of_overlaps ho hpr hpo]
  exact removeFromNode_spec h (by simp) ha hb hab hba hs

/-! ### Searching -/

theorem searchLoop_eq (h : Canonical tree) (last start : ℕ) :
    searchLoop last tree start = tree.filter (overlaps start last) := by
  induction tree generalizing start with
  | nil => rfl
  | cons s tree ih =>
    obtain ⟨hs, hst, htr⟩ := canonical_cons.mp h
    rw [searchLoop, filter_cons]
    by_cases ho : overlaps start last s
    · rw [if_pos ho, if_pos ho, ih htr]
      refine congrArg (s :: ·) (filter_congr fun t ht => ?_)
      have hlt := hst t ht
      have hp := htr.base_lt_stop ht
      rw [overlaps_iff] at ho
      rw [Bool.eq_iff_iff, overlaps_iff, overlaps_iff]
      omega
    · rw [if_neg ho, if_neg ho, ih htr]

theorem intervalsIn_spec (h : Tree tree) (hp : 0 < a + npages * pageSize)
    (hle : a + npages * pageSize ≤ 2 ^ 64) :
    Tree (intervalsIn tree a npages) ∧
      ∀ s, s ∈ intervalsIn tree a npages ↔
        s ∈ tree ∧ s.base < a + npages * pageSize ∧ a < s.stop := by
  rw [intervalsIn, searchLoop_eq h.canonical, lastAddress_eq hp hle]
  refine ⟨h.sublist filter_sublist, fun s => ?_⟩
  rw [mem_filter, overlaps_iff]
  refine and_congr_right fun hs => ?_
  have hb := h.canonical.base_lt_stop hs
  omega

theorem covers_intervalsIn (h : Tree tree) (hle : a + npages * pageSize ≤ 2 ^ 64)
    (hx : a ≤ x ∧ x < a + npages * pageSize) :
    Covers (intervalsIn tree a npages) x ↔ Covers tree x := by
  have hm := (intervalsIn_spec h (Nat.zero_lt_of_lt hx.2) hle).2
  constructor
  · rintro ⟨s, hs, hsx⟩
    exact ⟨s, ((hm s).mp hs).1, hsx⟩
  · rintro ⟨s, hs, hsx⟩
    exact ⟨s, (hm s).mpr ⟨hs, lt_of_le_of_lt hsx.1 hx.2, lt_of_le_of_lt hx.1 hsx.2⟩, hsx⟩

theorem isPagePresent_iff (h : Tree tree) (ha : pageSize ∣ a) :
    isPagePresent tree a ↔ Covers tree a := by
  rw [isPagePresent, intervalTreeIterFirst, find?_isSome]
  refine exists_congr fun s => and_congr_right fun hs => ?_
  obtain ⟨hd, hd'⟩ := h.aligned s hs
  have hb := h.canonical.base_lt_stop hs
  rw [overlaps_iff]
  simp only [Contains, pageSize] at hb ha hd hd' ⊢
  omega

/-! ### The notifier -/

theorem foldl_removeVmemInterval {start stop : ℕ} (hs : pageSize ∣ start)
    (hst : pageSize ∣ stop) (hr : start < stop) (hi : stop - start < 2 ^ 31 * pageSize)
    (hle : stop ≤ 2 ^ 64) {es : List Segment} (he : Tree es)
    (ho : ∀ e ∈ es, e.base < stop ∧ start < e.stop) (h : Tree tree)
    (hc : ∀ x, start ≤ x → x < stop → Covers es x → Covers tree x) :
    ∃ tree', (es.map (invalidation start stop)).foldl
        (fun tree call => removeVmemInterval true tree call.1 call.2) tree = tree' ∧
      Tree tree' ∧
      ∀ x, Covers tree' x ↔ Covers tree x ∧ ¬ (start ≤ x ∧ x < stop ∧ Covers es x) := by
  induction es generalizing tree with
  | nil => exact ⟨tree, rfl, h, fun x => by simp⟩
  | cons e es ih =>
    obtain ⟨hd, hd'⟩ := he.aligned e mem_cons_self
    have heb := he.canonical.base_lt_stop mem_cons_self
    obtain ⟨hlt, hlt'⟩ := ho e mem_cons_self
    obtain ⟨npages, hn⟩ : ∃ n, n = (min e.stop stop - max e.base start) / pageSize :=
      ⟨_, rfl⟩
    -- the entry and the range have whole pages in common
    have hp : max e.base start + npages * pageSize = min e.stop stop ∧ 0 < npages := by
      simp only [pageSize] at *
      omega
    have hca : invalidation start stop e = (max e.base start, (npages : ℤ)) := by
      rw [invalidation, pagesBetween_eq (by omega) (by omega), hn]
    have hm : pageSize ∣ max e.base start := by
      rcases max_choice e.base start with heq | heq <;> rw [heq] <;> assumption
    obtain ⟨htr, hco⟩ := removeVmemInterval_spec h hm hp.2 (by omega)
      fun x hx hx' => hc x (by omega) (by omega)
        (Covers.of_mem mem_cons_self ⟨by omega, by omega⟩)
    rw [hp.1] at hco
    have hta : ∀ x, Covers es x → e.stop < x := fun x hx =>
      he.canonical.stop_lt_of_covers hx
    obtain ⟨tree', heq, ht', hc'⟩ := ih
      (he.sublist (sublist_cons_self _ _))
      (fun t ht => ho t (mem_cons_of_mem _ ht)) htr fun x hx hx' hxe => by
        refine (hco x).mpr ⟨hc x hx hx' ((covers_cons _ _ _).mpr (.inr hxe)), ?_⟩
        have := hta x hxe
        omega
    refine ⟨tree', by rw [map_cons, foldl_cons, hca]; exact heq, ht', fun x => ?_⟩
    rw [hc', hco, covers_cons, Contains, and_assoc]
    refine and_congr_right fun _ => ?_
    by_cases hx : Covers es x
    · have := hta x hx
      simp only [hx, or_true, and_true]
      omega
    · simp only [hx, or_false, and_false, not_false_eq_true, and_true, max_le_iff, lt_min_iff]
      omega

/-- The notifier takes the addresses of a range out, whatever intervals they lie in. -/
theorem svmTlbInvalidateRangeStart_spec (h : Tree tree) (ha : pageSize ∣ a) (hp : 0 < npages)
    (hi : npages < 2 ^ 31) (hle : a + npages * pageSize ≤ 2 ^ 64) :
    Tree (svmTlbInvalidateRangeStart .ample tree a (a + npages * pageSize)) ∧
      ∀ x, Covers (svmTlbInvalidateRangeStart .ample tree a (a + npages * pageSize)) x ↔
        Covers tree x ∧ ¬ (a ≤ x ∧ x < a + npages * pageSize) := by
  have hab : a < a + npages * pageSize := Nat.lt_add_of_pos_right (Nat.mul_pos hp (by decide))
  have hlt : a + npages * pageSize - a < 2 ^ 31 * pageSize := by
    simp only [pageSize]
    omega
  have hpa : pagesBetween a (a + npages * pageSize) = npages := by
    rw [pagesBetween_eq hab.le hlt, Nat.add_sub_cancel_left, Nat.mul_div_cancel _ (by decide)]
  obtain ⟨hen, hm⟩ := intervalsIn_spec h (Nat.zero_lt_of_lt hab) hle
  obtain ⟨tree', heq, ht', hc⟩ := foldl_removeVmemInterval ha
    (Nat.dvd_add ha (dvd_mul_left _ _)) hab hlt hle hen (fun e he => ((hm e).mp he).2) h
    fun x hx hx' => (covers_intervalsIn h hle ⟨hx, hx'⟩).mp
  have hr : svmTlbInvalidateRangeStart .ample tree a (a + npages * pageSize) = tree' := by
    rw [svmTlbInvalidateRangeStart, invalidations, hpa]
    exact heq
  rw [hr]
  refine ⟨ht', fun x => ?_⟩
  rw [hc x, ← and_assoc]
  refine and_congr_right fun hx => not_congr (and_iff_left_of_imp fun hin => ?_)
  exact (covers_intervalsIn h hle hin).mpr hx

/-- The addresses of the range are taken out of the tree, and nothing else; what was resident there
was invalidated. -/
def Notified (tree : List Segment) (start stop : ℕ) : Prop :=
  (∀ x, Covers (svmTlbInvalidateRangeStart .ample tree start stop) x ↔
      Covers tree x ∧ ¬ (start ≤ x ∧ x < stop)) ∧
    ∀ x, start ≤ x → x < stop → Covers tree x →
      ∃ call ∈ invalidations .ample tree start stop,
        call.1 ≤ x ∧ (x : ℤ) < call.1 + call.2 * pageSize

theorem notified_of_lt (h : Tree tree) (ha : pageSize ∣ a) (hb : pageSize ∣ b) (hab : a < b)
    (hi : (b - a) / pageSize < 2 ^ 31) (hle : b ≤ 2 ^ 64) : Notified tree a b := by
  obtain ⟨k, rfl⟩ : ∃ k, b = a + k * pageSize := by
    obtain ⟨k, hk⟩ := Nat.dvd_sub hb ha
    exact ⟨k, by rw [mul_comm, ← hk]; omega⟩
  rw [Nat.add_sub_cancel_left, Nat.mul_div_cancel _ (by decide)] at hi
  have hp : 0 < k := Nat.pos_of_ne_zero fun h0 => by simp [h0] at hab
  refine ⟨(svmTlbInvalidateRangeStart_spec h ha hp hi hle).2, fun x hx hx' hc => ?_⟩
  obtain ⟨s, hs, hsx⟩ := (covers_intervalsIn h hle ⟨hx, hx'⟩).mpr hc
  have hpa : pagesBetween a (a + k * pageSize) = k := by
    rw [pagesBetween_eq hab.le (by simp only [pageSize]; omega), Nat.add_sub_cancel_left,
      Nat.mul_div_cancel _ (by decide)]
  refine ⟨_, mem_map_of_mem (by rwa [hpa]), ?_⟩
  obtain ⟨hd, hd'⟩ := ((intervalsIn_spec h (Nat.zero_lt_of_lt hab) hle).1).aligned s hs
  rw [Contains] at hsx
  rw [invalidation, pagesBetween_eq (by omega) (by simp only [pageSize] at *; omega)]
  simp only [pageSize] at *
  omega

theorem tree_page (ha : pageSize ∣ a) : Tree [⟨a, pageSize⟩] := by
  refine ⟨⟨by simp [pageSize], pairwise_singleton _ _⟩, fun s hs => ?_⟩
  rw [mem_singleton.mp hs]
  exact ⟨ha, Nat.dvd_add ha (dvd_refl _)⟩

/-- **The notifier does its work for every tree exactly if** the range has fewer than `2 ^ 31`
pages. For any longer range, the last page of it is not found, or a page far above it is taken out.
-/
theorem notified_iff (ha : pageSize ∣ a) (hb : pageSize ∣ b) (hab : a < b) (huser : b ≤ 2 ^ 63) :
    (∀ tree, Tree tree → (∀ s ∈ tree, s.stop < 2 ^ 64) → Notified tree a b) ↔
      (b - a) / pageSize < 2 ^ 31 := by
  refine ⟨fun h => by_contra fun hge => ?_, fun hlt tree htree _ =>
    notified_of_lt htree ha hb hab hlt (huser.trans (by decide))⟩
  obtain ⟨n, hn⟩ : ∃ n, pagesBetween a b = n := ⟨_, rfl⟩
  obtain ⟨hlow, hhigh⟩ : -2 ^ 31 ≤ n ∧ n < 2 ^ 31 := hn ▸ toInt_bounds _
  by_cases hlast : lastAddress a n < b - pageSize
  · -- the last page of the range is not found
    have hdvd : pageSize ∣ b - pageSize := Nat.dvd_sub hb (dvd_refl _)
    have hpage : pageSize ≤ b - a := Nat.le_of_dvd (by omega) (Nat.dvd_sub hb ha)
    have hnone : invalidations .ample [⟨b - pageSize, pageSize⟩] a b = [] := by
      have hnot : ¬ overlaps a (lastAddress a n) ⟨b - pageSize, pageSize⟩ := fun hover =>
        absurd (overlaps_iff.mp hover).1 (not_le.mpr hlast)
      rw [invalidations, hn]
      simp only [searchVmemIntervals, Mem.ample, intervalsIn, searchLoop, if_neg hnot, map_nil]
    have hcov : Covers [⟨b - pageSize, pageSize⟩] (b - pageSize) :=
      ⟨_, mem_singleton_self _, le_rfl, Nat.lt_add_of_pos_right (show 0 < pageSize by decide)⟩
    have hkeeps := (h _ (tree_page hdvd) (by simp [Segment.stop]; omega)).1 (b - pageSize)
    rw [svmTlbInvalidateRangeStart, hnone, foldl_nil] at hkeeps
    simp only [pageSize] at *
    exact (hkeeps.mp hcov).2 ⟨by omega, by omega⟩
  -- the search wraps around, and so does the number of pages to an interval behind the range
  obtain ⟨y, hy⟩ : ∃ y, y = b + (2 ^ 31 + 1) * pageSize := ⟨_, rfl⟩
  have hcov : Covers [⟨y, pageSize⟩] y :=
    ⟨_, mem_singleton_self _, le_rfl, Nat.lt_add_of_pos_right (show 0 < pageSize by decide)⟩
  have hover : overlaps a (lastAddress a n) ⟨y, pageSize⟩ := by
    rw [overlaps_iff]
    simp only [lastAddress, Segment.stop, pageSize] at *
    omega
  have hpages : pagesBetween y b = 2 ^ 31 - 1 := by
    have hmod : (b + 2 ^ 64 - y) % 2 ^ 64 / pageSize = 2 ^ 52 - 2 ^ 31 - 1 := by
      simp only [pageSize] at *
      omega
    rw [pagesBetween, hmod]
    decide
  have hcall : invalidations .ample [⟨y, pageSize⟩] a b = [(y, 2 ^ 31 - 1)] := by
    have hmax : max y a = y := by omega
    have hmin : min (y + pageSize) b = b := by omega
    rw [invalidations, hn]
    simp only [searchVmemIntervals, Mem.ample, intervalsIn, searchLoop, if_pos hover, map_cons,
      map_nil, invalidation, Segment.stop, hmax, hmin, hpages]
  have hgone : svmTlbInvalidateRangeStart .ample [⟨y, pageSize⟩] a b = [] := by
    have hend : lastAddress y (2 ^ 31 - 1) = y + (2 ^ 31 - 1) * pageSize - 1 :=
      lastAddress_eq (by omega) (by simp only [pageSize] at *; omega)
    have hover' : overlaps y (y + (2 ^ 31 - 1) * pageSize - 1) ⟨y, pageSize⟩ := by
      rw [overlaps_iff]
      simp only [Segment.stop, pageSize]
      omega
    rw [svmTlbInvalidateRangeStart, hcall, foldl_cons, foldl_nil, removeVmemInterval, hend,
      removeLoop, if_pos hover', removeLoop, removeFromNode, if_neg (by simp),
      if_neg (by simp only [Segment.stop, pageSize]; omega), erase_cons_head]
  have hkept := (h _
    (tree_page (a := y) (by rw [hy]; exact Nat.dvd_add hb (dvd_mul_left _ _)))
    (by simp [Segment.stop, pageSize] at *; omega)).1 y
  rw [hgone] at hkept
  obtain ⟨s, hs, -⟩ := hkept.mpr ⟨hcov, by omega⟩
  exact absurd hs not_mem_nil

/-- A range of 8 TB: the page at its start stays in the tree. -/
theorem long_range_not_notified :
    Covers (svmTlbInvalidateRangeStart .ample [⟨2 ^ 44, 0x1000⟩] (2 ^ 44) (2 ^ 44 + 2 ^ 43))
      (2 ^ 44) := by
  have hnone : invalidations .ample [⟨2 ^ 44, 0x1000⟩] (2 ^ 44) (2 ^ 44 + 2 ^ 43) = [] := by
    decide +kernel
  rw [svmTlbInvalidateRangeStart, hnone]
  exact ⟨_, mem_singleton_self _, le_rfl, by decide⟩

/-- A range of two pages. -/
theorem notified_iff_two : Notified [⟨0x1000, 0x1000⟩] 0x1000 0x3000 :=
  (notified_iff (a := 0x1000) (b := 0x3000) (by decide) (by decide) (by decide) (by decide)).mpr
    (by decide) _ (tree_page (by decide)) (by decide)

end

end Tapasco.Svm
