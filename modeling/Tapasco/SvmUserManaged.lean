import Tapasco.SvmFaults

/-!
# Coverage of User-Managed Migrations

A user can ask for the migration of a region of memory, to a device or back to RAM. The region is
extended to whole pages, and the pages are migrated in blocks of at most 512 MB. This module has
the calls that are made for a region and the value that is returned, after the checks for an error
state.

Numbers of pages are kept in an `int`, and the variable that is returned by a migration to a device
is set in the loop over the blocks only.
-/

open FreeList List

namespace Tapasco.Svm

/-- The loop over blocks of pages, with the results of the calls from the `k`-th one on: the calls,
and the variable with the result. -/
def migrateBlocks (result : ℕ → ℤ) (start npages : ℕ) (res : ℤ) (k : ℕ) : List (ℕ × ℕ) × ℤ :=
  if npages = 0 then ([], res)
  else
    let nmigrate := min npages umpmMaxPages
    if result k ≠ 0 then ([(start, nmigrate)], result k)
    else
      let r := migrateBlocks result (start + nmigrate * pageSize) (npages - nmigrate) 0 (k + 1)
      ((start, nmigrate) :: r.1, r.2)
termination_by npages
decreasing_by
  simp only [umpmMaxPages]
  omega

/-- `pcie_svm_user_managed_migration_to_device`: the calls of `svm_migrate_to_device` and the value
that is returned. The variable has some value `res` at the start. -/
def toDeviceCalls (vaddr size : ℕ) (result : ℕ → ℤ) (res : ℤ) : List (ℕ × ℕ) × ℤ :=
  migrateBlocks result (vaStart vaddr) (pagesBetween (vaStart vaddr) (vaEnd vaddr size)).toNat res 0

/-- The calls of `svm_migrate_dev_to_ram` for an interval of a device, and the last result. -/
def intervalCalls (vaddr size : ℕ) (result : ℕ → ℤ) (entry : Segment) : List (ℕ × ℕ) × ℤ :=
  migrateBlocks result (max (vaStart vaddr) entry.base)
    (pagesBetween (max (vaStart vaddr) entry.base) (min entry.stop (vaEnd vaddr size))).toNat 0 0

/-- `pcie_svm_user_managed_migration_to_ram`: the calls for a device, with their results. -/
def toRamCalls (vaddr size : ℕ) (tree : List Segment) (result : Segment → ℕ → ℤ) : List (ℕ × ℕ) :=
  (searchVmemIntervals none tree (vaStart vaddr)
    (pagesBetween (vaStart vaddr) (vaEnd vaddr size))).1.flatMap fun entry =>
      (intervalCalls vaddr size (result entry) entry).1

/-- The address `x` is that of a page with a byte of the region. -/
def InRegion (vaddr size x : ℕ) : Prop :=
  ∃ y, vaddr ≤ y ∧ y < vaddr + size ∧ vaStart y = x

/-- **What a user expects of a region.** If no call fails, the calls for a device have the pages of
the region in order, and those for RAM have what is on each device of them. A call that fails is the
last one, and zero is returned if there is none. -/
structure RegionCovered (vaddr size : ℕ) : Prop where
  toDevice : ∀ result res,
    let calls := (toDeviceCalls vaddr size (fun _ => 0) res).1
    (∀ x, x ∈ runPages calls ↔ InRegion vaddr size x) ∧
      (∃ first n, runPages calls = (List.range n).map fun k => first + k * pageSize) ∧
      (∀ c ∈ calls, 0 < c.2 ∧ c.2 ≤ umpmMaxPages) ∧
      (toDeviceCalls vaddr size result res).1 <+: calls ∧
      ((toDeviceCalls vaddr size result res).2 = 0 ↔
        (toDeviceCalls vaddr size result res).1 = calls ∧ ∀ k < calls.length, result k = 0)
  toRam : ∀ tree, Tree tree → (∀ s ∈ tree, s.stop ≤ 2 ^ 63) →
    ∀ x, x ∈ runPages (toRamCalls vaddr size tree fun _ _ => 0) ↔
      InRegion vaddr size x ∧ Covers tree x

/-! ### Blocks -/

theorem mem_runPages_flatMap {l : List Segment} {f : Segment → List (ℕ × ℕ)} {x : ℕ} :
    x ∈ runPages (l.flatMap f) ↔ ∃ e ∈ l, x ∈ runPages (f e) := by
  rw [runPages, flatMap_assoc]
  exact mem_flatMap

section

variable {start npages k : ℕ} {res : ℤ}

theorem runPages_migrateBlocks :
    runPages (migrateBlocks (fun _ => 0) start npages res k).1 =
      (List.range npages).map fun k => start + k * pageSize := by
  induction npages using Nat.strong_induction_on generalizing start res k with
  | _ npages ih =>
    rw [migrateBlocks]
    split
    · subst npages
      rfl
    · obtain ⟨m, hm⟩ : ∃ m, m = min npages umpmMaxPages := ⟨_, rfl⟩
      have hp : 0 < m := by
        simp only [umpmMaxPages] at hm
        omega
      have hs : List.range npages = List.range m ++ (List.range (npages - m)).map (m + ·) := by
        rw [← List.range_add]
        congr 1
        omega
      simp only [← hm, ne_eq, not_true, if_false]
      rw [runPages, flatMap_cons, ← runPages, ih _ (by omega), hs, map_append, map_map]
      refine congrArg _ (map_congr_left fun j _ => ?_)
      rw [Function.comp_apply, add_mul, add_assoc]

theorem migrateBlocks_spec (result : ℕ → ℤ) (hr : npages = 0 → res = 0) :
    let calls := (migrateBlocks (fun _ => 0) start npages res k).1
    let r := migrateBlocks result start npages res k
    (∀ c ∈ calls, 0 < c.2 ∧ c.2 ≤ umpmMaxPages) ∧ r.1 <+: calls ∧
      (r.2 = 0 ↔ r.1 = calls ∧ ∀ i < calls.length, result (k + i) = 0) := by
  induction npages using Nat.strong_induction_on generalizing start res k with
  | _ npages ih =>
    intro calls r
    simp only [calls, r]
    rw [migrateBlocks, migrateBlocks]
    by_cases hz : npages = 0
    · simp [hz, hr hz]
    obtain ⟨m, hm⟩ : ∃ m, m = min npages umpmMaxPages := ⟨_, rfl⟩
    have hp : 0 < m ∧ m ≤ umpmMaxPages := by
      simp only [umpmMaxPages] at hm ⊢
      omega
    obtain ⟨hs, hpr, hre⟩ := @ih (npages - m) (by omega) (start + m * pageSize) (k + 1) 0
      fun _ => rfl
    simp only [if_neg hz, ← hm, ne_eq, not_true, if_false]
    refine ⟨forall_mem_cons.mpr ⟨hp, hs⟩, ?_⟩
    by_cases hk : result k = 0
    · simp only [hk, not_true, if_false]
      refine ⟨(prefix_cons_inj _).mpr hpr, hre.trans (and_congr (by simp) ?_)⟩
      rw [length_cons, Nat.forall_lt_succ_left, add_zero]
      simp only [add_assoc, add_comm 1]
      exact (and_iff_right hk).symm
    · simp only [if_pos hk]
      refine ⟨(prefix_cons_inj _).mpr nil_prefix, iff_of_false hk fun h => hk ?_⟩
      exact h.2 0 (Nat.succ_pos _)

end

/-! ### The migrations that these are the calls of -/

section

variable {n : ℕ} {v : Kernel} {dev : Fin n} {vaddr size : ℕ}

theorem migrateBlocks_succeeding {start npages k : ℕ} (hz : ¬ npages = 0) (res : ℤ) :
    (migrateBlocks (fun _ => 0) start npages res k).1 =
      (start, min npages umpmMaxPages) ::
        (migrateBlocks (fun _ => 0) (start + min npages umpmMaxPages * pageSize)
          (npages - min npages umpmMaxPages) 0 (k + 1)).1 := by
  rw [migrateBlocks, if_neg hz]
  simp only [ne_eq, not_true, if_false]

theorem blockLoop_eq (migrate : ℕ → ℕ → ℕ → State n → State n × Bool) (start npages k : ℕ)
    (res : ℤ) (s : State n) :
    blockLoop migrate start npages k s =
      migrateCalls migrate (migrateBlocks (fun _ => 0) start npages res k).1 k s := by
  fun_induction blockLoop migrate start npages k s generalizing res with
  | case1 => rw [migrateBlocks, if_pos rfl, migrateCalls]
  | case2 start npages k s hz m r hok ih =>
    rw [ih 0, migrateBlocks_succeeding hz, migrateCalls]
    exact (if_pos hok).symm
  | case3 start npages k s hz m r hok =>
    rw [migrateBlocks_succeeding hz, migrateCalls]
    exact (if_neg hok).symm

theorem toRamIntervals_eq (calls : ℕ → List (Attempt n)) (entries : List Segment) (s : State n) :
    toRamIntervals v dev calls (vaStart vaddr) (vaEnd vaddr size) entries s =
      entries.foldl (fun s entry =>
        (migrateCalls (fun _ vaddr npages => svmMigrateDevToRam v dev vaddr npages (calls vaddr))
          (intervalCalls vaddr size (fun _ => 0) entry).1 0 s).1) s := by
  rw [toRamIntervals]
  congr 1
  funext s entry
  rw [blockLoop_eq _ _ _ 0 0, intervalCalls]

/-- **A migration to a device** makes the calls for the region, as long as they succeed. -/
theorem userManagedMigrationToDevice_eq {s : State n} (h : s.errorState dev = false)
    (env : ℕ → ToDevice n) (res : ℤ) :
    userManagedMigrationToDevice v dev vaddr size env s =
      (migrateCalls (fun k vaddr npages => svmMigrateToDevice v dev vaddr npages (env k))
        (toDeviceCalls vaddr size (fun _ => 0) res).1 0 s).1 := by
  rw [userManagedMigrationToDevice, if_neg (Bool.eq_false_iff.mp h), toDeviceCalls,
    blockLoop_eq _ _ _ 0 res]

/-- **A migration to RAM** makes the calls for the intervals found on each device, where a call that
fails is the last one of its interval. -/
theorem userManagedMigrationToRam_eq {s : State n} (h : s.errorState dev = false) {env : ToRam n}
    (henv : ∀ d, env.entries d = none) :
    userManagedMigrationToRam v dev vaddr size env s =
      (finRange n).foldl (fun s d =>
        (searchVmemIntervals none (s.trees d) (vaStart vaddr)
          (pagesBetween (vaStart vaddr) (vaEnd vaddr size))).1.foldl (fun s entry =>
            (migrateCalls
              (fun _ vaddr npages => svmMigrateDevToRam v d vaddr npages (env.calls d vaddr))
              (intervalCalls vaddr size (fun _ => 0) entry).1 0 s).1) s) s := by
  rw [userManagedMigrationToRam, if_neg (Bool.eq_false_iff.mp h)]
  generalize finRange n = devs
  clear h
  induction devs generalizing s with
  | nil => rfl
  | cons d devs ih =>
    rw [toRamDevices, henv d, foldl_cons]
    simp only [searchVmemIntervals, if_true, nil_append] at ih ⊢
    rw [ih, toRamIntervals_eq]

end

/-! ### Regions -/

section

variable {vaddr size : ℕ}

/-- The number of pages of a region that is not empty. -/
def regionPages (vaddr size : ℕ) : ℕ :=
  (vaddr + size - 1) / pageSize + 1 - vaddr / pageSize

theorem inRegion_iff (hs : 0 < size) {x : ℕ} :
    InRegion vaddr size x ↔ ∃ k < regionPages vaddr size, vaStart vaddr + k * pageSize = x := by
  simp only [InRegion, regionPages, vaStart, pageSize]
  constructor
  · rintro ⟨y, hle, hlt, rfl⟩
    exact ⟨y / 4096 - vaddr / 4096, by omega, by omega⟩
  · rintro ⟨k, hk, rfl⟩
    exact ⟨max vaddr (vaddr / 4096 * 4096 + k * 4096), by omega, by omega, by omega⟩

theorem pagesBetween_region (h : vaddr + size < 2 ^ 64) (hs : 0 < size) :
    pagesBetween (vaStart vaddr) (vaEnd vaddr size) = toInt (regionPages vaddr size % 2 ^ 52) := by
  rw [pagesBetween]
  congr 1
  simp only [vaEnd, vaStart, regionPages, pageSize, Nat.mod_eq_of_lt h]
  split <;> omega

theorem mem_piece (h : vaddr + size < 2 ^ 64) (hsi : 0 < size)
    (hi : regionPages vaddr size < 2 ^ 31) {e : Segment} (hba : pageSize ∣ e.base)
    (hst : pageSize ∣ e.stop) (hle : e.stop ≤ 2 ^ 63)
    (hlt : e.base < vaStart vaddr + regionPages vaddr size * pageSize)
    (hgt : vaStart vaddr < e.stop) (x : ℕ) :
    x ∈ runPages (migrateBlocks (fun _ => 0) (max (vaStart vaddr) e.base)
        (pagesBetween (max (vaStart vaddr) e.base) (min e.stop (vaEnd vaddr size))).toNat 0 0).1 ↔
      (∃ k < regionPages vaddr size, vaStart vaddr + k * pageSize = x) ∧ e.Contains x := by
  have he : vaEnd vaddr size = vaStart vaddr + regionPages vaddr size * pageSize := by
    simp only [vaEnd, Nat.mod_eq_of_lt h, vaStart, regionPages, pageSize] at *
    split <;> omega
  obtain ⟨a, ha⟩ : ∃ a, a = max (vaStart vaddr) e.base := ⟨_, rfl⟩
  obtain ⟨b, hb⟩ : ∃ b, b = min e.stop (vaEnd vaddr size) := ⟨_, rfl⟩
  have hs : pageSize ∣ vaStart vaddr := dvd_mul_left _ _
  have hen : e.base ≤ e.stop := Nat.le_add_right _ _
  rw [← ha, ← hb, pagesBetween_eq (by simp only [pageSize] at *; omega)
    (by simp only [pageSize] at *; omega), Int.toNat_natCast, runPages_migrateBlocks, mem_map]
  simp only [List.mem_range, Segment.Contains, pageSize] at *
  constructor
  · rintro ⟨j, hj, rfl⟩
    exact ⟨⟨j + (a - vaStart vaddr) / 4096, by omega, by omega⟩, by omega, by omega⟩
  · rintro ⟨⟨k, hk, rfl⟩, hle', hlt'⟩
    exact ⟨(vaStart vaddr + k * 4096 - a) / 4096, by omega, by omega⟩

/-- **Regions are covered** if they are not empty and have less than 2 ^ 31 pages, and only then. -/
theorem region_covered_iff (h : vaddr + size < 2 ^ 64) :
    RegionCovered vaddr size ↔ 0 < size ∧ regionPages vaddr size < 2 ^ 31 := by
  obtain ⟨n, hn⟩ : ∃ n, n = (pagesBetween (vaStart vaddr) (vaEnd vaddr size)).toNat := ⟨_, rfl⟩
  have hcalls (res : ℤ) : runPages (toDeviceCalls vaddr size (fun _ => 0) res).1 =
      (List.range n).map fun k => vaStart vaddr + k * pageSize := by
    rw [toDeviceCalls, ← hn, runPages_migrateBlocks]
  constructor
  · intro hcov
    obtain ⟨hmem, -, -, -, hret⟩ := hcov.toDevice (fun _ => 0) 1
    simp only [hcalls] at hmem
    have hsize : 0 < size := by
      refine Nat.pos_of_ne_zero fun h0 => ?_
      have hzero : n = 0 := by
        refine Nat.eq_zero_of_not_pos fun hpos => ?_
        obtain ⟨y, hle, hlt, -⟩ := (hmem (vaStart vaddr)).mp
          (mem_map.mpr ⟨0, List.mem_range.mpr hpos, by simp⟩)
        omega
      -- the variable is never set
      have hone : (toDeviceCalls vaddr size (fun _ => 0) 1).2 = 1 := by
        rw [toDeviceCalls, ← hn, hzero, migrateBlocks, if_pos rfl]
      exact one_ne_zero (hone.symm.trans (hret.mpr ⟨rfl, fun _ _ => rfl⟩))
    refine ⟨hsize, Nat.lt_of_not_le fun hle => ?_⟩
    have hlt : n < 2 ^ 31 := by
      have hbound := (toInt_bounds (regionPages vaddr size % 2 ^ 52)).2
      rw [pagesBetween_region h hsize] at hn
      omega
    obtain ⟨k, hk, heq⟩ := mem_map.mp ((hmem _).mpr ((inRegion_iff hsize).mpr
      ⟨regionPages vaddr size - 1, by omega, rfl⟩))
    rw [List.mem_range] at hk
    simp only [pageSize] at heq
    omega
  · rintro ⟨hsize, hint⟩
    have hpages : pagesBetween (vaStart vaddr) (vaEnd vaddr size) = regionPages vaddr size := by
      rw [pagesBetween_region h hsize, Nat.mod_eq_of_lt (by omega), toInt_of_lt hint]
    have hpos : 0 < regionPages vaddr size := by
      simp only [regionPages, pageSize]
      omega
    rw [hpages, Int.toNat_natCast] at hn
    refine ⟨fun result res => ?_, fun tree htree huser x => ?_⟩
    · obtain ⟨hblocks, hpre, hret⟩ := @migrateBlocks_spec (vaStart vaddr) n 0 res result
        fun h0 => absurd (hn.symm.trans h0) hpos.ne'
      simp only [hcalls]
      refine ⟨fun x => ?_, ⟨_, _, rfl⟩, ?_⟩
      · simp [inRegion_iff hsize, hn]
      · rw [toDeviceCalls, toDeviceCalls, hpages, Int.toNat_natCast, ← hn]
        exact ⟨hblocks, hpre, by simpa using hret⟩
    · have hend : vaStart vaddr + regionPages vaddr size * pageSize ≤ 2 ^ 64 := by
        simp only [vaStart, regionPages, pageSize]
        omega
      have hend' : 0 < vaStart vaddr + regionPages vaddr size * pageSize := by
        simp only [pageSize]
        omega
      obtain ⟨-, hentries⟩ := intervalsIn_spec htree hend' hend
      rw [toRamCalls, hpages, mem_runPages_flatMap, inRegion_iff hsize]
      constructor
      · rintro ⟨e, he, hx⟩
        obtain ⟨hmem, hlt, hgt⟩ := (hentries e).mp he
        obtain ⟨hbase, hstop⟩ := htree.aligned e hmem
        obtain ⟨hin, hcon⟩ := (mem_piece h hsize hint hbase hstop (huser e hmem) hlt hgt x).mp hx
        exact ⟨hin, e, hmem, hcon⟩
      · rintro ⟨⟨k, hk, rfl⟩, e, hmem, hcon⟩
        obtain ⟨hbase, hstop⟩ := htree.aligned e hmem
        have hlt : e.base < vaStart vaddr + regionPages vaddr size * pageSize := by
          simp only [Segment.Contains, pageSize] at *
          omega
        have hgt : vaStart vaddr < e.stop := lt_of_le_of_lt (Nat.le_add_right _ _) hcon.2
        refine ⟨e, (hentries e).mpr ⟨hmem, hlt, hgt⟩, ?_⟩
        exact (mem_piece h hsize hint hbase hstop (huser e hmem) hlt hgt _).mpr ⟨⟨k, hk, rfl⟩, hcon⟩

end

theorem region_covered_iff_three_pages : RegionCovered 100 8192 :=
  (region_covered_iff (by decide)).mpr (by decide)

/-- Nothing is called for an empty region, and the result was never set. Of a region of 16 TB and
one page, only one page is requested. -/
theorem regions_not_covered : ¬ RegionCovered 0 0 ∧ ¬ RegionCovered 0 (2 ^ 44 + 4096) := by
  refine ⟨fun h => ?_, fun h => ?_⟩
  · obtain ⟨-, -, -, -, hret⟩ := h.toDevice (fun _ => 0) 1
    have hone : (toDeviceCalls 0 0 (fun _ => 0) 1).2 = 1 := by
      have hzero : (pagesBetween (vaStart 0) (vaEnd 0 0)).toNat = 0 := by decide
      rw [toDeviceCalls, hzero, migrateBlocks, if_pos rfl]
    exact one_ne_zero (hone.symm.trans (hret.mpr ⟨rfl, fun _ _ => rfl⟩))
  · obtain ⟨hmem, -⟩ := h.toDevice (fun _ => 0) 0
    have hpages : (pagesBetween (vaStart 0) (vaEnd 0 (2 ^ 44 + 4096))).toNat = 1 := by decide
    simp only [toDeviceCalls, hpages, runPages_migrateBlocks] at hmem
    exact absurd ((hmem 4096).mpr ⟨4096, by decide, by decide, by decide⟩) (by decide)

end Tapasco.Svm
