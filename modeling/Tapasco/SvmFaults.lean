import Tapasco.SvmMigration
import Mathlib.Data.List.Destutter

/-!
# Batches of Device Page Faults

The MMU of a device queues the addresses for which it has no translation. `handle_iommu_page_fault`
reads them into an array of fixed size, sorts it, removes duplicates, adds translations for pages
that are on the device by now, and migrates the other pages, run by run. All this is done in one
array: an entry that is dealt with is set to zero, and zeros are removed by moving what is behind
them. The page table walk for a page that is on the device may fail; it is the attempt that counts.
-/

open FreeList List

namespace Tapasco.Svm

variable {l : List ℕ}

/-! ### The array -/

theorem removeDuplicates_append (pre : List ℕ) (a : ℕ) (rest : List ℕ)
    (hlt : ∀ x ∈ a :: rest, x < 2 ^ 48) :
    removeDuplicates (pre ++ a :: rest) (pre.length + 1) = pre ++ destutter' (· ≠ ·) a rest := by
  have hm : ∀ x ∈ a :: rest, x &&& vaddrMask = x := fun x hx =>
    (and_vaddrMask x).trans (Nat.mod_eq_of_lt (hlt x hx))
  induction rest generalizing pre a with
  | nil =>
    rw [removeDuplicates, if_neg (by simp)]
    rfl
  | cons b rest ih =>
    have hb : (pre ++ a :: b :: rest).getD (pre.length + 1) 0 = b := by simp
    have ha : (pre ++ a :: b :: rest).getD (pre.length + 1 - 1) 0 = a := by simp
    have ht := (forall_mem_cons.mp hlt).2
    rw [removeDuplicates, if_pos (by simp), hb, ha, hm b (by simp), hm a (by simp)]
    by_cases hab : b = a
    · subst hab
      have he : (pre ++ b :: b :: rest).eraseIdx (pre.length + 1) = pre ++ b :: rest := by
        simp [eraseIdx_append_of_length_le]
      rw [if_pos rfl, he, ih pre b ht fun x hx => hm x (mem_cons_of_mem _ hx),
        destutter'_cons_neg _ (by simp)]
    · have hn := ih (pre ++ [a]) b ht fun x hx => hm x (mem_cons_of_mem _ hx)
      rw [if_neg hab, destutter'_cons_pos _ (Ne.symm hab)]
      simpa using hn

/-! ### The addresses -/

theorem lt_of_mem_readVaddrs {rvals : List ℕ} {x : ℕ} (h : x ∈ readVaddrs rvals) : x < 2 ^ 48 := by
  obtain ⟨rval, -, rfl⟩ := mem_map.mp h
  exact Nat.and_le_right.trans_lt (by decide)

theorem mem_destutter'_iff {a x : ℕ} : x ∈ destutter' (· ≠ ·) a l ↔ x ∈ a :: l := by
  induction l generalizing a with
  | nil => rfl
  | cons b l ih =>
    rw [destutter'_cons]
    split
    · simp [ih]
    · simp_all

theorem pairwise_destutter' {a : ℕ} (h : (a :: l).Pairwise (· ≤ ·)) :
    (destutter' (· ≠ ·) a l).Pairwise (· < ·) := by
  induction l generalizing a with
  | nil => exact pairwise_singleton _ _
  | cons b l ih =>
    obtain ⟨ha, hl⟩ := pairwise_cons.mp h
    rw [destutter'_cons]
    split
    · rename_i hne
      refine .cons (fun x hx => ?_) (ih hl)
      have hb : b ≤ x := by
        rcases mem_cons.mp (mem_destutter'_iff.mp hx) with rfl | hx
        · exact le_rfl
        · exact (pairwise_cons.mp hl).1 x hx
      exact (lt_of_le_of_ne (ha b mem_cons_self) hne).trans_le hb
    · exact ih (h.sublist ((sublist_cons_self b l).cons_cons a))

theorem faultedVaddrs_spec (rvals : List ℕ) :
    (faultedVaddrs rvals).Pairwise (· < ·) ∧
      ∀ x, x ∈ faultedVaddrs rvals ↔ x ∈ readVaddrs rvals := by
  have hm : ∀ x, x ∈ (readVaddrs rvals).mergeSort (· ≤ ·) ↔ x ∈ readVaddrs rvals := fun x =>
    mem_mergeSort
  have hs : ((readVaddrs rvals).mergeSort (· ≤ ·)).Pairwise (· ≤ ·) := by
    have ht : ∀ a b c : ℕ, decide (a ≤ b) = true → decide (b ≤ c) = true →
        decide (a ≤ c) = true := by simp; omega
    simpa using pairwise_mergeSort ht (by simp; omega) (readVaddrs rvals)
  rw [faultedVaddrs]
  cases hso : (readVaddrs rvals).mergeSort (· ≤ ·) with
  | nil =>
    simp only [hso, not_mem_nil, false_iff] at hm
    rw [removeDuplicates, if_neg (by simp)]
    exact ⟨.nil, by simpa using hm⟩
  | cons a l =>
    rw [hso] at hs
    simp only [hso] at hm
    have heq : removeDuplicates (a :: l) 1 = destutter' (· ≠ ·) a l :=
      removeDuplicates_append [] a l fun x hx => lt_of_mem_readVaddrs ((hm x).mp hx)
    rw [heq]
    exact ⟨pairwise_destutter' hs, fun x => mem_destutter'_iff.trans (hm x)⟩

theorem missingVaddrs_spec (tree : List Segment) {rvals : List ℕ}
    (h0 : ∀ x ∈ readVaddrs rvals, x ≠ 0) :
    missingVaddrs tree rvals = (faultedVaddrs rvals).filter (!isPagePresent tree ·) := by
  have hne : ∀ x ∈ faultedVaddrs rvals, x ≠ 0 := fun x hx =>
    h0 x (((faultedVaddrs_spec rvals).2 x).mp hx)
  rw [missingVaddrs, packArray_eq]
  generalize faultedVaddrs rvals = l at hne
  induction l with
  | nil => rfl
  | cons x l ih =>
    obtain ⟨hx, hl⟩ := forall_mem_cons.mp hne
    rw [map_cons, filter_cons, filter_cons, ih hl]
    cases isPagePresent tree x <;> simp [hx]

/-! ### The runs -/

theorem contiguousFrom_le (last : ℕ) (l : List ℕ) : contiguousFrom last l ≤ l.length := by
  fun_induction contiguousFrom last l with
  | case1 => exact le_rfl
  | case2 last vaddr vaddrs _ ih => exact Nat.succ_le_succ ih
  | case3 => exact Nat.zero_le _

/-- The runs of contiguous addresses, with the number of their pages. -/
def faultRuns : List ℕ → List (ℕ × ℕ)
  | [] => []
  | vaddr :: vaddrs =>
    (vaddr &&& vaddrMask, contiguousFrom vaddr vaddrs + 1) ::
      faultRuns (vaddrs.drop (contiguousFrom vaddr vaddrs))
termination_by vaddrs => vaddrs.length
decreasing_by
  rw [length_drop, length_cons]
  omega

/-- **The loop over the array** migrates run after run. -/
theorem migrateFaults_eq {n : ℕ} (v : Kernel) (dev : Fin n) (env : ℕ → ToDevice n) (h0 : 0 ∉ l)
    (k : ℕ) (s : State n) :
    migrateFaults v dev env l k s =
      let r := migrateCalls (fun k vaddr npages => svmMigrateToDevice v dev vaddr npages (env k))
        (faultRuns l) k s
      if r.2 then r.1 else { r.1 with errorState := Function.update r.1.errorState dev true } := by
  fun_induction faultRuns l generalizing k s with
  | case1 => rw [migrateFaults, migrateCalls, if_pos rfl]
  | case2 vaddr vaddrs ih =>
    have ht : 0 ∉ vaddrs.drop (contiguousFrom vaddr vaddrs) := fun h =>
      h0 (mem_cons_of_mem _ (mem_of_mem_drop h))
    have hr : packArray (replicate (contiguousFrom vaddr vaddrs + 1) 0 ++
        (vaddr :: vaddrs).drop (contiguousFrom vaddr vaddrs + 1)) 0 =
        vaddrs.drop (contiguousFrom vaddr vaddrs) := by
      rw [packArray_eq, filter_append, filter_replicate_of_neg (by simp), nil_append,
        drop_succ_cons, filter_eq_self]
      exact fun x hx => by simpa using ne_of_mem_of_not_mem hx ht
    rw [migrateFaults, migrateCalls]
    split
    next => rw [hr, ih ht]
    next hok => rw [if_neg hok]

/-- Addresses of pages in order. -/
structure Batch (l : List ℕ) : Prop where
  sorted : l.Pairwise (· < ·)
  pages : ∀ x ∈ l, pageSize ∣ x ∧ 0 < x ∧ x < 2 ^ 48

theorem Batch.tail {a : ℕ} (h : Batch (a :: l)) : Batch l :=
  ⟨(pairwise_cons.mp h.sorted).2, fun x hx => h.pages x (mem_cons_of_mem _ hx)⟩

theorem Batch.drop (h : Batch l) (n : ℕ) : Batch (l.drop n) :=
  ⟨h.sorted.sublist (drop_sublist n l), fun x hx => h.pages x (mem_of_mem_drop hx)⟩

theorem contiguousFrom_spec {a : ℕ} (h : Batch (a :: l)) :
    l.take (contiguousFrom a l) =
        (List.range (contiguousFrom a l)).map (fun k => a + (k + 1) * pageSize) ∧
      ∀ x ∈ l.drop (contiguousFrom a l), a + (contiguousFrom a l + 1) * pageSize < x := by
  induction l generalizing a with
  | nil => simp [contiguousFrom]
  | cons b l ih =>
    obtain ⟨hd, -, ha⟩ := h.pages a mem_cons_self
    obtain ⟨hd', -, hb⟩ := h.pages b (by simp)
    have hlt : a < b := (pairwise_cons.mp h.sorted).1 b mem_cons_self
    rw [contiguousFrom]
    split
    · rename_i hc
      obtain rfl := (isContiguous_iff hb ha).mp hc
      obtain ⟨ht, hdr⟩ := ih h.tail
      have hs (k : ℕ) : a + pageSize + k * pageSize = a + (k + 1) * pageSize := by
        rw [Nat.succ_mul, add_assoc, add_comm pageSize]
      refine ⟨?_, fun x hx => ?_⟩
      · rw [take_succ_cons, ht, range_succ_eq_map, map_cons, map_map]
        simp [hs, Function.comp_def]
      · have hx' := hdr x hx
        rwa [hs] at hx'
    · rename_i hc
      refine ⟨rfl, fun x hx => ?_⟩
      have hne : b ≠ a + pageSize := fun heq => hc ((isContiguous_iff hb ha).mpr heq)
      have hbx : b ≤ x := by
        rcases mem_cons.mp hx with rfl | hx
        · exact le_rfl
        · exact ((pairwise_cons.mp h.tail.sorted).1 x hx).le
      simp only [pageSize] at *
      omega

def runPages (calls : List (ℕ × ℕ)) : List ℕ :=
  calls.flatMap fun r => (List.range r.2).map fun k => r.1 + k * pageSize

/-- **The runs of a batch** have its pages in order, and are apart from each other. -/
theorem faultRuns_spec (h : Batch l) :
    runPages (faultRuns l) = l ∧ (∀ r ∈ faultRuns l, 0 < r.2) ∧
      (faultRuns l).Pairwise fun r r' => r.1 + r.2 * pageSize < r'.1 := by
  fun_induction faultRuns l with
  | case1 => exact ⟨rfl, fun _ hr => absurd hr not_mem_nil, .nil⟩
  | case2 a l ih =>
    obtain ⟨ht, hd⟩ := contiguousFrom_spec h
    obtain ⟨hp, hpo, hpa⟩ := ih (h.tail.drop _)
    have hm : a &&& vaddrMask = a :=
      (and_vaddrMask a).trans (Nat.mod_eq_of_lt (h.pages a mem_cons_self).2.2)
    rw [hm]
    refine ⟨?_, forall_mem_cons.mpr ⟨Nat.succ_pos _, hpo⟩, .cons (fun r hr => ?_) hpa⟩
    · rw [runPages, flatMap_cons, ← runPages, hp, range_succ_eq_map, map_cons, map_map,
        cons_append, zero_mul, add_zero]
      conv_rhs => rw [← take_append_drop (contiguousFrom a l) l, ht]
      rfl
    · refine hd r.1 ?_
      rw [← hp, runPages, mem_flatMap]
      exact ⟨r, hr, mem_map.mpr ⟨0, List.mem_range.mpr (hpo r hr), by simp⟩⟩

/-- **The addresses that are read** are those that the MMU delivers, up to the size of the array. -/
theorem readVaddrs_delivered {faults rest : List ℕ} (hf : ∀ x ∈ faults, x < 2 ^ 48)
    (hlen : faults.length ≤ maxNumFaults)
    (hrest : faults.length < maxNumFaults → ∀ rval ∈ rest.head?, rval.testBit 63 = false) :
    readVaddrs (faults.map (2 ^ 63 + ·) ++ rest) = faults := by
  have hbit : ∀ x ∈ faults, (2 ^ 63 + x).testBit 63 = true := fun x hx => by
    rw [Nat.testBit_two_pow_add_eq, Nat.testBit_lt_two_pow ((hf x hx).trans (by decide))]
    rfl
  have hstop : (rest.takeWhile fun rval => rval.testBit 63).take
      (maxNumFaults - faults.length) = [] := by
    rcases hlen.lt_or_eq with hlt | heq
    · cases rest with
      | nil => rw [takeWhile_nil, take_nil]
      | cons rval rest => simp [hrest hlt rval rfl]
    · rw [heq, Nat.sub_self, take_zero]
  rw [readVaddrs, takeWhile_append_of_pos (by simpa using hbit), take_append, length_map, hstop,
    append_nil, take_of_length_le (by rwa [length_map]), map_map]
  refine (map_congr_left fun x hx => ?_).trans (map_id faults)
  have hx := hf x hx
  rw [Function.comp, and_vaddrMask, id]
  omega

/-- A translation is looked up once for each faulted page that is present on the device. The other
pages are migrated, as long as no migration fails, in runs that have exactly these pages, and there
is a free page between any two runs. -/
def FaultsHandled {n : ℕ} (dev : Fin n) (s : State n) (faults rvals : List ℕ) : Prop :=
  ∃ translated runs,
    (translated.Nodup ∧ ∀ x, x ∈ translated ↔ x ∈ faults ∧ Covers (s.trees dev) x) ∧
    (∀ x, x ∈ runPages runs ↔ x ∈ faults ∧ ¬ Covers (s.trees dev) x) ∧
    (∀ r ∈ runs, 0 < r.2) ∧ runs.Pairwise (fun r r' => r.1 + r.2 * pageSize < r'.1) ∧
    ∀ v env, handleIommuPageFault v dev rvals env s =
      (translated,
        let r := migrateCalls
          (fun k vaddr npages => svmMigrateToDevice v dev vaddr npages (env k)) runs 0 s
        if r.2 then r.1 else { r.1 with errorState := Function.update r.1.errorState dev true })

/-- **A batch of page faults** is handled, for all pages that the MMU delivers, in every state. -/
theorem fault_batch {n : ℕ} {dev : Fin n} {s : State n} (htree : Tree (s.trees dev))
    {faults rest : List ℕ} (hpages : ∀ x ∈ faults, pageSize ∣ x ∧ 0 < x ∧ x < 2 ^ 48)
    (hlen : faults.length ≤ maxNumFaults)
    (hrest : faults.length < maxNumFaults → ∀ rval ∈ rest.head?, rval.testBit 63 = false) :
    FaultsHandled dev s faults (faults.map (2 ^ 63 + ·) ++ rest) := by
  have hread := readVaddrs_delivered (fun x hx => (hpages x hx).2.2) hlen hrest
  generalize faults.map (2 ^ 63 + ·) ++ rest = rvals at hread ⊢
  subst hread
  obtain ⟨hsorted, hmem⟩ := faultedVaddrs_spec rvals
  have hpresent : ∀ x ∈ readVaddrs rvals, isPagePresent (s.trees dev) x ↔ Covers (s.trees dev) x :=
    fun x hx => isPagePresent_iff htree (hpages x hx).1
  have hmissing := missingVaddrs_spec (s.trees dev) fun x hx => (hpages x hx).2.1.ne'
  have hbatch : Batch (missingVaddrs (s.trees dev) rvals) := by
    rw [hmissing]
    exact ⟨hsorted.sublist filter_sublist, fun x hx =>
      hpages x ((hmem x).mp (mem_filter.mp hx).1)⟩
  have h0 : 0 ∉ missingVaddrs (s.trees dev) rvals := fun hx =>
    absurd (hbatch.pages 0 hx).2.1 (lt_irrefl 0)
  obtain ⟨hruns, hpos, hpair⟩ := faultRuns_spec hbatch
  refine ⟨translatedVaddrs (s.trees dev) rvals, _, ⟨hsorted.nodup.filter _, fun x => ?_⟩,
    fun x => ?_, hpos, hpair, fun v env => ?_⟩
  · rw [translatedVaddrs, mem_filter, hmem]
    exact and_congr_right (hpresent x)
  · rw [hruns, hmissing, mem_filter, hmem]
    refine and_congr_right fun hx => ?_
    rw [← hpresent x hx]
    simp
  · rw [handleIommuPageFault, migrateFaults_eq v dev env h0]

theorem fault_batch_three :
    FaultsHandled 0 { State.new 1 .from61 with trees := fun _ => [⟨0x2000, 0x1000⟩] }
      [0x2000, 0x1000, 0x2000] ([0x2000, 0x1000, 0x2000].map (2 ^ 63 + ·) ++ [0]) :=
  fault_batch (tree_page (by decide)) (by decide) (by decide) (by decide)

end Tapasco.Svm
