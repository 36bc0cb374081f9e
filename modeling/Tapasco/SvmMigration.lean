import Tapasco.SvmIntervals
import Tapasco.SvmPages
import Mathlib.Algebra.Order.BigOperators.Group.Finset

/-!
# Migrations of Shared Virtual Memory

A process shares its virtual memory with several devices. A virtual page is in RAM or on one of the
devices; the page table of the process says where. This module embeds how pages move: the three
migrations of a range, the handler of a CPU page fault, the MMU notifier, `svm_migrate_to_device`,
the user-managed migrations and the handler of device page faults.

Each entry point runs to its end before the next one starts. The driver holds the `mmap` lock of
the process meanwhile; handlers of CPU page faults, for which the kernel holds it for reading only,
are taken one after the other as well. What the kernel and the engines decide is a parameter. A
migration is given the list of its attempts, since it starts over when the kernel does not collect
all pages; how often it does is not bounded, as `retry_cnt` is never set to an initial value.

The following is behaviour of the kernel. `migrate_vma_setup` calls the MMU notifiers of all
devices, and each but that of the owner takes the range out of its interval tree. It collects a page
only if it is in RAM, or only if it is on the owning device, according to the flags. When only a
part of the pages can be migrated the driver gives up, and the kernel puts all pages back, except
for pages without a source, which it has already inserted in the page table. The page table entry of
a page that was never accessed counts as RAM.

Addresses are numbers. The kernel refuses a range that is not in the user's part of the address
space, so that no address a migration computes exceeds 64 bits; in the user-managed migrations,
where the arguments are not checked, differences of addresses are taken modulo `2 ^ 64` and page
counts as `int`.
-/

open FreeList List

namespace Tapasco.Svm

open Function

/-- The end of the user's part of the address space. -/
def userSpace : ℕ := 2 ^ 63

def umpmMaxPages : ℕ := 131072

def maxNumFaults : ℕ := 48

/-- The page table, by page number, with the device and the page there, and for each device its
pages, its interval tree and whether it is in an error state. -/
structure State (n : ℕ) where
  table : ℕ → Option (Fin n × ℕ)
  devices : Fin n → DevicePages
  trees : Fin n → List Segment
  errorState : Fin n → Bool

/-- How an attempt to migrate a range ends. -/
inductive Ending where
  /-- There is no memory for the arrays. `svm_migrate_dev_to_ram` then returns a variable that has
  no value yet, which may be zero. -/
  | noArrays (zero : Bool)
  /-- There is no matching VMA, or `migrate_vma_setup` fails. -/
  | noSetup
  /-- The kernel does not collect all pages. -/
  | uncollected
  /-- Page `i` of the range cannot be mapped for DMA. -/
  | mapFails (i : ℕ)
  /-- There is no page in RAM, or the transfer fails. -/
  | dmaFails
  /-- Only a part of the pages is migrated. The pages `left` had no source and stay on the
  device. -/
  | partly (left : List ℕ)
  | migrated
  deriving DecidableEq

/-- The arrays, the VMA or the set-up are missing. -/
def Ending.unset : Ending → Bool
  | .noArrays _ => true
  | .noSetup => true
  | _ => false

/-- An attempt to migrate a range: how it ends, the allocations for the interval trees and for the
works that free pages, and the devices whose engine does not answer in time. -/
structure Attempt (n : ℕ) where
  ending : Ending
  mems : Fin n → Mem := fun _ => .ample
  works : ℕ → Bool := fun _ => true
  pagesWork : Bool := true
  timeouts : List (Fin n) := []

section

variable {n : ℕ}

namespace State

def new (n : ℕ) (v : Kernel) : State n :=
  ⟨fun _ => none, fun _ => .new v, fun _ => [], fun _ => false⟩

/-- The device a virtual page is on. -/
def resident (s : State n) (page : ℕ) : Option (Fin n) :=
  (s.table page).map Prod.fst

def setDevice (s : State n) (d : Fin n) (pages : DevicePages) : State n :=
  { s with devices := update s.devices d pages }

def setTree (s : State n) (d : Fin n) (tree : List Segment) : State n :=
  { s with trees := update s.trees d tree }

/-- Engines that time out put their device into an error state. -/
def timeOut (s : State n) (timeouts : List (Fin n)) : State n :=
  { s with errorState := fun d => s.errorState d || timeouts.contains d }

/-- The pages of the virtual pages in a list, as the page table has them. -/
def pagesOf (s : State n) (vpages : List ℕ) : List ℕ :=
  vpages.map fun p => (s.table p).elim 0 Prod.snd

/-- The virtual pages in a list are now at new places. -/
def mapTo (s : State n) (vpages : List ℕ) (place : ℕ → Option (Fin n × ℕ)) : State n :=
  { s with table := fun p => if p ∈ vpages then place p else s.table p }

end State

section

variable (s : State n) (d : Fin n)

@[simp] theorem resident_setDevice (pages : DevicePages) (p : ℕ) :
    (s.setDevice d pages).resident p = s.resident p := rfl

@[simp] theorem devices_setDevice (pages : DevicePages) :
    (s.setDevice d pages).devices = update s.devices d pages := rfl

@[simp] theorem resident_setTree (tree : List Segment) (p : ℕ) :
    (s.setTree d tree).resident p = s.resident p := rfl

@[simp] theorem trees_setTree (tree : List Segment) :
    (s.setTree d tree).trees = update s.trees d tree := rfl

@[simp] theorem devices_mapTo (ps : List ℕ) (place : ℕ → Option (Fin n × ℕ)) :
    (s.mapTo ps place).devices = s.devices := rfl

theorem table_mapTo_of_mem {ps : List ℕ} (place : ℕ → Option (Fin n × ℕ)) {p : ℕ} (hp : p ∈ ps) :
    (s.mapTo ps place).table p = place p :=
  if_pos hp

theorem table_mapTo_of_not_mem {ps : List ℕ} (place : ℕ → Option (Fin n × ℕ)) {p : ℕ}
    (hp : p ∉ ps) : (s.mapTo ps place).table p = s.table p :=
  if_neg hp

theorem table_mapTo_mapTo (ps : List ℕ) (place place' : ℕ → Option (Fin n × ℕ)) :
    ((s.mapTo ps place).mapTo ps place').table = (s.mapTo ps place').table := by
  funext p
  by_cases hp : p ∈ ps
  · rw [table_mapTo_of_mem _ _ hp, table_mapTo_of_mem _ _ hp]
  · rw [table_mapTo_of_not_mem _ _ hp, table_mapTo_of_not_mem _ _ hp, table_mapTo_of_not_mem _ _ hp]

theorem resident_mapTo (ps : List ℕ) (place : ℕ → Option (Fin n × ℕ)) (p : ℕ) :
    (s.mapTo ps place).resident p = if p ∈ ps then (place p).map Prod.fst else s.resident p := by
  simp only [State.mapTo, State.resident]
  split <;> rfl

end

/-- The numbers of the virtual pages of a range. -/
def vpages (vaddr npages : ℕ) : List ℕ :=
  List.range' (vaddr / pageSize) npages

theorem mem_vpages_iff {va k p : ℕ} : p ∈ vpages va k ↔ va / pageSize ≤ p ∧ p < va / pageSize + k :=
  mem_range'_1

theorem vpages_subset {va k m : ℕ} (h : k ≤ m) : vpages va k ⊆ vpages va m :=
  range'_subset_right_1.mpr h

theorem mem_vpages {va k : ℕ} (hd : pageSize ∣ va) {x : ℕ} :
    x / pageSize ∈ vpages va k ↔ va ≤ x ∧ x < va + k * pageSize := by
  rw [mem_vpages_iff]
  simp only [pageSize] at *
  omega

theorem forall_mem_vpages {va k : ℕ} (hdv : pageSize ∣ va) {P : ℕ → Prop}
    (h : ∀ x, va ≤ x → x < va + k * pageSize → P (x / pageSize)) : ∀ p ∈ vpages va k, P p := by
  intro p hp
  have hd : p * pageSize / pageSize = p := Nat.mul_div_cancel _ (by decide)
  rw [← hd, mem_vpages hdv] at hp
  rw [← hd]
  exact h _ hp.1 hp.2

theorem dvd_add_pages {va : ℕ} (hd : pageSize ∣ va) (k : ℕ) : pageSize ∣ va + k * pageSize :=
  Nat.dvd_add hd (Nat.dvd_mul_left _ _)

theorem add_pages_add (va i k : ℕ) :
    va + i * pageSize + k * pageSize = va + (i + k) * pageSize := by
  rw [Nat.add_assoc, ← Nat.add_mul]

theorem le_of_add_pages_le {va k np : ℕ} (h : va + k * pageSize ≤ va + np * pageSize) : k ≤ np :=
  Nat.le_of_mul_le_mul_right (Nat.le_of_add_le_add_left h) (by decide)

theorem dvd_min_of_dvd {a b : ℕ} (ha : pageSize ∣ a) (hb : pageSize ∣ b) : pageSize ∣ min a b := by
  rcases min_choice a b with heq | heq <;> rw [heq] <;> assumption

/-- The kernel may accept the range. -/
def Accepted (vaddr npages : ℕ) : Prop :=
  0 < npages ∧ npages < 2 ^ 31 ∧ vaddr + npages * pageSize ≤ userSpace

instance (vaddr npages : ℕ) : Decidable (Accepted vaddr npages) :=
  inferInstanceAs (Decidable (_ ∧ _))

/-- The call of the notifiers in `migrate_vma_setup`. That of the owner skips the range. -/
def notifyOthers (mems : Fin n → Mem) (owner : Fin n) (vaddr npages : ℕ) (s : State n) : State n :=
  { s with
    trees := fun d =>
      if d = owner then s.trees d
      else svmTlbInvalidateRangeStart (mems d) (s.trees d) vaddr (vaddr + npages * pageSize) }

/-! ### Migrations of a range -/

/-- The device takes pages for the range: the number of the first one. -/
def takePages (v : Kernel) (dev : Fin n) (npages : ℕ) (s : State n) : Option (ℕ × State n) :=
  (allocateDeviceMemory (npages * pageSize) (s.devices dev).blocks).map fun r =>
    (r.1 / pageSize, s.setDevice dev
      (getDevicePages v (r.1 / pageSize) npages { s.devices dev with blocks := r.2 }))

theorem takePages_eq_some {v : Kernel} {dev : Fin n} {k base : ℕ} {s s' : State n}
    (h : takePages v dev k s = some (base, s')) :
    ∃ addr rest,
      allocateDeviceMemory (k * pageSize) (s.devices dev).blocks = some (addr, rest) ∧
      base = addr / pageSize ∧
      s' = s.setDevice dev (getDevicePages v base k { s.devices dev with blocks := rest }) := by
  rw [takePages, Option.map_eq_some_iff] at h
  obtain ⟨⟨addr, rest⟩, ha, heq⟩ := h
  obtain ⟨rfl, rfl⟩ := Prod.mk.inj heq
  exact ⟨addr, rest, ha, rfl, rfl⟩

/-- The failure exits drop the pages that were taken. -/
def dropPages (v : Kernel) (dev : Fin n) (works : ℕ → Bool) (pages : List ℕ) (s : State n) :
    State n :=
  s.setDevice dev (putPages v works pages (s.devices dev))

/-- The source pages are queued to be freed, and the kernel drops them when the migration is
completed. -/
def leavePages (v : Kernel) (dev : Fin n) (a : Attempt n) (pages : List ℕ) (s : State n) :
    State n :=
  s.setDevice dev (putPages v a.works pages
    (queueDevPagesFreeWork a.pagesWork pages (clearData pages (s.devices dev))))

/-- The pages of a range without a source that an aborted migration leaves on the device. -/
def leaveHoles (dev : Fin n) (vaddr base : ℕ) (holes : List ℕ) (s : State n) : State n :=
  (s.mapTo holes fun p => some (dev, base + (p - vaddr / pageSize))).setDevice dev
    (getPages (holes.map fun p => base + (p - vaddr / pageSize)) (s.devices dev))

/-- `svm_migrate_ram_to_dev`, and whether it succeeds. Where a page cannot be mapped it is dropped
twice. -/
def svmMigrateRamToDev (v : Kernel) (dev : Fin n) (vaddr npages : ℕ) :
    List (Attempt n) → State n → State n × Bool
  | [], s => (s, false)
  | a :: attempts, s =>
    if a.ending.unset ∨ ¬ Accepted vaddr npages then (s, false)
    else
      let s := notifyOthers a.mems dev vaddr npages s
      if a.ending = .uncollected ∨ ¬ ∀ p ∈ vpages vaddr npages, s.table p = none then
        svmMigrateRamToDev v dev vaddr npages attempts s
      else
        match takePages v dev npages s with
        | none => (s, false)
        | some (base, s) =>
          let pages := List.range' base npages
          match a.ending with
          | .mapFails i =>
            (dropPages v dev a.works (pages[i]?.toList ++ pages) s, false)
          | .partly left =>
            svmMigrateRamToDev v dev vaddr npages attempts
              (dropPages v dev a.works pages
                (leaveHoles dev vaddr base ((vpages vaddr npages).filter (· ∈ left)) s))
          | .migrated =>
            ((s.mapTo (vpages vaddr npages) fun p =>
                some (dev, base + (p - vaddr / pageSize))).setTree dev
              (insertVmemInterval (a.mems dev).node (s.trees dev) vaddr npages), true)
          | _ => ((dropPages v dev a.works pages s).timeOut a.timeouts, false)

/-- `svm_migrate_dev_to_dev`. A part of the pages is not enough, and is not tried again. -/
def svmMigrateDevToDev (v : Kernel) (src dst : Fin n) (vaddr npages : ℕ) :
    List (Attempt n) → State n → State n × Bool
  | [], s => (s, false)
  | a :: attempts, s =>
    if a.ending.unset ∨ ¬ Accepted vaddr npages then (s, false)
    else
      let s := notifyOthers a.mems src vaddr npages s
      if a.ending = .uncollected ∨ ¬ ∀ p ∈ vpages vaddr npages, s.resident p = some src then
        svmMigrateDevToDev v src dst vaddr npages attempts s
      else
        match takePages v dst npages s with
        | none => (s, false)
        | some (base, s) =>
          if a.ending = .migrated then
            let srcPages := s.pagesOf (vpages vaddr npages)
            let s := (leavePages v src a srcPages s).mapTo (vpages vaddr npages) fun p =>
              some (dst, base + (p - vaddr / pageSize))
            let s := s.setTree src
              (removeVmemInterval (a.mems src).split (s.trees src) vaddr npages)
            (s.setTree dst (insertVmemInterval (a.mems dst).node (s.trees dst) vaddr npages), true)
          else
            ((dropPages v dst a.works (List.range' base npages) s).timeOut a.timeouts, false)

def svmMigrateDevToRam (v : Kernel) (dev : Fin n) (vaddr npages : ℕ) :
    List (Attempt n) → State n → State n × Bool
  | [], s => (s, false)
  | a :: attempts, s =>
    if a.ending.unset ∨ ¬ Accepted vaddr npages then
      (s, decide (a.ending = .noArrays true))
    else
      let s := notifyOthers a.mems dev vaddr npages s
      if a.ending = .uncollected ∨ ¬ ∀ p ∈ vpages vaddr npages, s.resident p = some dev then
        svmMigrateDevToRam v dev vaddr npages attempts s
      else if a.ending = .migrated then
        let srcPages := s.pagesOf (vpages vaddr npages)
        let s := (leavePages v dev a srcPages s).mapTo (vpages vaddr npages) fun _ => none
        (s.setTree dev (removeVmemInterval (a.mems dev).split (s.trees dev) vaddr npages), true)
      else (s.timeOut a.timeouts, false)

/-! ### Single pages -/

/-- The kernel takes a virtual page out of the page table, and drops its page. -/
def unmapPage (v : Kernel) (work : Bool) (page : ℕ) (s : State n) : State n :=
  match s.table page with
  | none => s
  | some (d, p) =>
    (s.mapTo [page] fun _ => none).setDevice d (putPage v work p (s.devices d))

/-- `svm_migrate_to_ram`, for a CPU page fault on a page of a device. The interval is removed
whether or not the page was migrated. -/
def svmMigrateToRam (v : Kernel) (page : ℕ) (a : Attempt n) (s : State n) : State n :=
  match s.table page with
  | none => s
  | some (d, _) =>
    if a.ending.unset ∨ ¬ Accepted (page * pageSize) 1 then s
    else
      let s := notifyOthers a.mems d (page * pageSize) 1 s
      let removed (s : State n) := s.setTree d
        (removeVmemInterval (a.mems d).split (s.trees d) (page * pageSize) 1)
      match a.ending with
      | .migrated => removed (unmapPage v (a.works 0) page s)
      | .partly _ => removed s
      | _ => s

/-- The kernel takes virtual pages out of the page table, except for those that stay. -/
def unmapPages (v : Kernel) (works : ℕ → Bool) (stay : List ℕ) : List ℕ → State n → State n
  | [], s => s
  | page :: pages, s =>
    unmapPages v (fun k => works (k + 1)) stay pages
      (if page ∈ stay then s else unmapPage v (works 0) page s)

/-- The kernel changes a range of the page table otherwise: it calls the notifiers, and then takes
out the pages that do not stay. The range is not empty, and belongs to the user. -/
def invalidateRange (v : Kernel) (mems : Fin n → Mem) (works : ℕ → Bool) (stay : List ℕ)
    (first npages : ℕ) (s : State n) : State n :=
  if 0 < npages ∧ first * pageSize + npages * pageSize ≤ userSpace then
    unmapPages v works stay (List.range' first npages)
      { s with
        trees := fun d =>
          svmTlbInvalidateRangeStart (mems d) (s.trees d) (first * pageSize)
            (first * pageSize + npages * pageSize) }
  else s

/-! ### Migrating to a device -/

/-- What the kernel decides in a call of `svm_migrate_to_device`: whether there is memory for the
lists and the entries of each search, and the attempts for the piece that begins with page `i`. -/
structure ToDevice (n : ℕ) where
  array : Bool := true
  entries : Fin n → Option ℕ := fun _ => none
  calls : ℕ → List (Attempt n)

/-- The entry with the smallest start among the first entries of the lists. -/
def nextInterval (lists : Fin n → List Segment) : Option (Fin n × Segment) :=
  ((List.finRange n).filterMap fun d => (lists d).head?.map (Prod.mk d)).argmin fun e => e.2.base

theorem nextInterval_eq_some {ls : Fin n → List Segment} {d : Fin n} {entry : Segment}
    (h : nextInterval ls = some (d, entry)) :
    (∃ rest, ls d = entry :: rest) ∧ ∀ d' e rest, ls d' = e :: rest → entry.base ≤ e.base := by
  have hm := argmin_mem h
  rw [mem_filterMap] at hm
  obtain ⟨d₁, -, hd⟩ := hm
  constructor
  · cases hl : ls d₁ with
    | nil => simp [hl] at hd
    | cons e rest =>
      obtain ⟨rfl, rfl⟩ : d₁ = d ∧ e = entry := by simpa [hl] using hd
      exact ⟨rest, hl⟩
  · intro d' e rest hl
    refine le_of_mem_argmin (a := (d', e)) ?_ h
    exact mem_filterMap.mpr ⟨d', mem_finRange d', by simp [hl]⟩

theorem nextInterval_eq_none {ls : Fin n → List Segment} (h : nextInterval ls = none)
    (d : Fin n) : ls d = [] := by
  have hn := argmin_eq_none.mp h
  rw [filterMap_eq_nil_iff] at hn
  have hd := hn d (mem_finRange d)
  cases hl : ls d with
  | nil => rfl
  | cons e rest => simp [hl] at hd

theorem sum_length_tail_lt {ls : Fin n → List Segment} {d : Fin n} {entry : Segment}
    (h : nextInterval ls = some (d, entry)) :
    ∑ d', (update ls d (ls d).tail d').length < ∑ d', (ls d').length := by
  obtain ⟨⟨rest, hd⟩, -⟩ := nextInterval_eq_some h
  refine Finset.sum_lt_sum (fun d' _ => ?_) ⟨d, Finset.mem_univ d, ?_⟩
  · by_cases hd' : d' = d
    · subst hd'
      rw [update_self, hd]
      exact Nat.le_succ _
    · rw [update_of_ne hd']
  · rw [update_self, hd]
    exact Nat.lt_succ_self _

/-- The part of an iteration that migrates pages in RAM before the next interval: the pages it
passes, and the result. -/
def migrateRamPiece (v : Kernel) (dev : Fin n) (curr stop : ℕ) (entry : Segment)
    (attempts : List (Attempt n)) (s : State n) : ℕ × State n × Bool :=
  if entry.base > curr then
    let nmigrate := (min entry.base stop - curr) / pageSize
    (nmigrate, svmMigrateRamToDev v dev curr nmigrate attempts s)
  else (0, s, true)

/-- The part of an iteration that migrates an interval on a device. There is no memory for the
arrays of a negative number of pages. -/
def migrateDevPiece (v : Kernel) (d dev : Fin n) (curr last : ℕ) (attempts : List (Attempt n))
    (s : State n) : State n × Bool :=
  if d ≠ dev then
    if last < curr then (s, false)
    else svmMigrateDevToDev v d dev curr ((last - curr) / pageSize) attempts s
  else (s, true)

/-- A call of `svm_migrate_ram_to_dev` or `svm_migrate_dev_to_dev` for the target. -/
inductive Migration (n : ℕ) where
  | ramToDev (vaddr npages : ℕ)
  | devToDev (src : Fin n) (vaddr npages : ℕ)

/-- The call for pages in RAM before the next interval. -/
def ramCall (curr stop : ℕ) (entry : Segment) : List (Migration n) :=
  if entry.base > curr then [.ramToDev curr ((min entry.base stop - curr) / pageSize)] else []

/-- The call for an interval on a device. -/
def devCall (d dev : Fin n) (curr last : ℕ) : List (Migration n) :=
  if d ≠ dev then [.devToDev d curr ((last - curr) / pageSize)] else []

/-- The loop of `svm_migrate_to_device`, from page `i` on, with the lists of the intervals that are
still to be migrated, and the calls that it makes. Where an interval ends before the current page,
the number of its pages is negative, and the loop goes back. -/
def migrateLoop (v : Kernel) (dev : Fin n) (vaddr npages : ℕ) (calls : ℕ → List (Attempt n))
    (i : ℕ) (lists : Fin n → List Segment) (s : State n) : List (Migration n) × State n × Bool :=
  if i < npages then
    match h : nextInterval lists with
    | none =>
      ([.ramToDev (vaddr + i * pageSize) (npages - i)],
        svmMigrateRamToDev v dev (vaddr + i * pageSize) (npages - i) (calls i) s)
    | some (d, entry) =>
      let stop := vaddr + npages * pageSize
      let ram := ramCall (vaddr + i * pageSize) stop entry
      let (nram, s, ok) := migrateRamPiece v dev (vaddr + i * pageSize) stop entry (calls i) s
      let i := i + nram
      if ok then
        let curr := vaddr + i * pageSize
        let last := min entry.stop stop
        let piece := devCall d dev curr last
        let (s, ok) := migrateDevPiece v d dev curr last (calls i) s
        if ok then
          let r := migrateLoop v dev vaddr npages calls
            (i + (last - curr) / pageSize - (curr - last) / pageSize)
            (update lists d (lists d).tail) s
          (ram ++ (piece ++ r.1), r.2)
        else (ram ++ piece, s, false)
      else (ram, s, false)
  else ([], s, true)
termination_by ∑ d, (lists d).length
decreasing_by exact sum_length_tail_lt h

/-- `svm_migrate_to_device`. A search that fails leaves the entries it has found. -/
def svmMigrateToDevice (v : Kernel) (dev : Fin n) (vaddr npages : ℕ) (env : ToDevice n)
    (s : State n) : State n × Bool :=
  if env.array then
    (migrateLoop v dev vaddr npages env.calls 0
      (fun d => (searchVmemIntervals (env.entries d) (s.trees d) vaddr npages).1) s).2
  else (s, false)

/-- The calls of `svm_migrate_to_device`. -/
def svmMigrateToDeviceCalls (v : Kernel) (dev : Fin n) (vaddr npages : ℕ) (env : ToDevice n)
    (s : State n) : List (Migration n) :=
  if env.array then
    (migrateLoop v dev vaddr npages env.calls 0
      (fun d => (searchVmemIntervals (env.entries d) (s.trees d) vaddr npages).1) s).1
  else []

/-- Migrations of ranges of pages, one after the other until one fails. -/
def migrateCalls (migrate : ℕ → ℕ → ℕ → State n → State n × Bool) :
    List (ℕ × ℕ) → ℕ → State n → State n × Bool
  | [], _, s => (s, true)
  | (vaddr, npages) :: calls, k, s =>
    let r := migrate k vaddr npages s
    if r.2 then migrateCalls migrate calls (k + 1) r.1 else r

/-! ### The entry points -/

/-- The start of a range, aligned to a page boundary. -/
def vaStart (vaddr : ℕ) : ℕ :=
  vaddr / pageSize * pageSize

/-- The end of a range, aligned to a page boundary. -/
def vaEnd (vaddr size : ℕ) : ℕ :=
  let stop := (vaddr + size) % 2 ^ 64
  if stop % pageSize ≠ 0 then (stop / pageSize * pageSize + pageSize) % 2 ^ 64
  else stop / pageSize * pageSize

/-- The loop of the user-managed migrations over blocks of pages, until a migration fails. -/
def blockLoop (migrate : ℕ → ℕ → ℕ → State n → State n × Bool) (start npages k : ℕ) (s : State n) :
    State n × Bool :=
  if npages = 0 then (s, true)
  else
    let nmigrate := min npages umpmMaxPages
    let r := migrate k start nmigrate s
    if r.2 then
      blockLoop migrate (start + nmigrate * pageSize) (npages - nmigrate) (k + 1) r.1
    else r
termination_by npages
decreasing_by
  simp only [umpmMaxPages]
  omega

/-- `pcie_svm_user_managed_migration_to_device`. -/
def userManagedMigrationToDevice (v : Kernel) (dev : Fin n) (vaddr size : ℕ)
    (env : ℕ → ToDevice n) (s : State n) : State n :=
  if s.errorState dev then s
  else
    (blockLoop (fun k vaddr npages => svmMigrateToDevice v dev vaddr npages (env k))
      (vaStart vaddr) (pagesBetween (vaStart vaddr) (vaEnd vaddr size)).toNat 0 s).1

/-- What the kernel decides in a user-managed migration to RAM: the memory for the entries of each
search, and the attempts for the pages of a device from an address on. -/
structure ToRam (n : ℕ) where
  entries : Fin n → Option ℕ := fun _ => none
  calls : Fin n → ℕ → List (Attempt n)

/-- The loop over the intervals found on a device. -/
def toRamIntervals (v : Kernel) (dev : Fin n) (calls : ℕ → List (Attempt n)) (start stop : ℕ)
    (entries : List Segment) (s : State n) : State n :=
  entries.foldl
    (fun s entry =>
      (blockLoop (fun _ vaddr npages => svmMigrateDevToRam v dev vaddr npages (calls vaddr))
        (max start entry.base)
        (pagesBetween (max start entry.base) (min entry.stop stop)).toNat 0 s).1)
    s

/-- The loop over the devices. The entries of a search that fails stay in the list. -/
def toRamDevices (v : Kernel) (env : ToRam n) (start stop : ℕ) (npages : ℤ) :
    List (Fin n) → List Segment → State n → State n
  | [], _, s => s
  | d :: devs, pending, s =>
    let (found, ok) := searchVmemIntervals (env.entries d) (s.trees d) start npages
    if ok then
      toRamDevices v env start stop npages devs []
        (toRamIntervals v d (env.calls d) start stop (pending ++ found) s)
    else toRamDevices v env start stop npages devs (pending ++ found) s

/-- `pcie_svm_user_managed_migration_to_ram`. -/
def userManagedMigrationToRam (v : Kernel) (dev : Fin n) (vaddr size : ℕ) (env : ToRam n)
    (s : State n) : State n :=
  if s.errorState dev then s
  else
    toRamDevices v env (vaStart vaddr) (vaEnd vaddr size)
      (pagesBetween (vaStart vaddr) (vaEnd vaddr size)) (List.finRange n) [] s

/-! ### Page faults of a device -/

/-- What is read from the MMU for the fault of a page, with the flag for valid addresses. -/
def faultedVaddr (page : ℕ) : ℕ :=
  2 ^ 63 + page * pageSize % 2 ^ 48

/-- The addresses that are read: values with the flag for valid addresses, up to the first one
without it. -/
def readVaddrs (rvals : List ℕ) : List ℕ :=
  ((rvals.takeWhile fun rval => rval.testBit 63).take maxNumFaults).map (· &&& vaddrMask)

/-- `remove_duplicates`, from index `i` on. -/
def removeDuplicates (array : List ℕ) (i : ℕ) : List ℕ :=
  if i < array.length then
    if array.getD i 0 &&& vaddrMask = array.getD (i - 1) 0 &&& vaddrMask then
      removeDuplicates (array.eraseIdx i) i
    else removeDuplicates array (i + 1)
  else array
termination_by array.length - i
decreasing_by
  · rw [length_eraseIdx, if_pos ‹_›]
    omega
  · omega

/-- `pack_array`, from index `idx` on. -/
def packArray (array : List ℕ) (idx : ℕ) : List ℕ :=
  if idx < array.length then
    if array.getD idx 0 = 0 then
      let gap := ((array.drop idx).takeWhile (· = 0)).length
      packArray (array.take idx ++ array.drop (idx + gap)) (idx + 1)
    else packArray array (idx + 1)
  else array
termination_by array.length - idx
decreasing_by
  · rw [length_append, length_take, length_drop]
    omega
  · omega

theorem packArray_append (pre rest : List ℕ) :
    packArray (pre ++ rest) pre.length = pre ++ rest.filter (· ≠ 0) := by
  induction hn : rest.length using Nat.strong_induction_on generalizing pre rest with
  | _ n ih =>
    cases rest with
    | nil =>
      rw [packArray, if_neg (by simp)]
      simp
    | cons a rest =>
      have hg : (pre ++ a :: rest).getD pre.length 0 = a := by simp
      rw [packArray, if_pos (by simp), hg]
      by_cases ha : a = 0
      · -- the zeros from here on are dropped; what follows them is not zero
        obtain ⟨zeros, hz⟩ : ∃ l, l = (a :: rest).takeWhile (· = 0) := ⟨_, rfl⟩
        have hs : a :: rest = zeros ++ (a :: rest).dropWhile (· = 0) :=
          hz ▸ takeWhile_append_dropWhile.symm
        have hno : zeros.filter (· ≠ 0) = [] := filter_eq_nil_iff.mpr fun x hx => by
          simpa using of_decide_eq_true (all_eq_true.mp all_takeWhile x (hz ▸ hx))
        have hp : 0 < zeros.length := by simp [hz, ha]
        have hl := congrArg length hs
        rw [length_append, hn] at hl
        rw [if_pos ha]
        simp only [drop_left, ← hz, take_left]
        rw [← drop_drop, drop_left, hs, drop_left, filter_append, hno, nil_append]
        cases hr : (a :: rest).dropWhile (· = 0) with
        | nil =>
          rw [packArray, if_neg (by simp)]
          simp
        | cons b rest' =>
          have hb : b ≠ 0 := by
            have hne : (a :: rest).dropWhile (· = 0) ≠ [] := hr ▸ cons_ne_nil _ _
            simpa [hr] using head_dropWhile_not _ hne
          have hnex := ih rest'.length (by rw [hr, length_cons] at hl; omega) (pre ++ [b]) rest'
            rfl
          rw [filter_cons_of_pos (by simpa using hb)]
          simpa using hnex
      · have hnex := ih rest.length (by simp [← hn]) (pre ++ [a]) rest rfl
        rw [if_neg ha, filter_cons_of_pos (by simpa using ha)]
        simpa using hnex

theorem packArray_eq (array : List ℕ) : packArray array 0 = array.filter (· ≠ 0) :=
  packArray_append [] array

/-- The sorted array without duplicates. -/
def faultedVaddrs (rvals : List ℕ) : List ℕ :=
  removeDuplicates ((readVaddrs rvals).mergeSort (· ≤ ·)) 1

/-- The pages for which a translation is looked up. -/
def translatedVaddrs (tree : List Segment) (rvals : List ℕ) : List ℕ :=
  (faultedVaddrs rvals).filter (isPagePresent tree)

/-- The array after these are set to zero and removed. -/
def missingVaddrs (tree : List Segment) (rvals : List ℕ) : List ℕ :=
  packArray ((faultedVaddrs rvals).map fun vaddr => if isPagePresent tree vaddr then 0 else vaddr) 0

/-- How many of the addresses continue a run, given the one before them. -/
def contiguousFrom (last : ℕ) : List ℕ → ℕ
  | [] => 0
  | vaddr :: vaddrs => if isContiguous vaddr last then contiguousFrom vaddr vaddrs + 1 else 0

/-- The loop of the fault handler over runs of contiguous addresses. -/
def migrateFaults (v : Kernel) (dev : Fin n) (env : ℕ → ToDevice n) (vaddrs : List ℕ) (k : ℕ)
    (s : State n) : State n :=
  match vaddrs with
  | [] => s
  | vaddr :: vaddrs =>
    let ncontiguous := contiguousFrom vaddr vaddrs + 1
    let r := svmMigrateToDevice v dev (vaddr &&& vaddrMask) ncontiguous (env k) s
    if r.2 then
      migrateFaults v dev env
        (packArray (replicate ncontiguous 0 ++ (vaddr :: vaddrs).drop ncontiguous) 0) (k + 1) r.1
    else { r.1 with errorState := update r.1.errorState dev true }
termination_by vaddrs.length
decreasing_by
  rw [packArray_eq, filter_append, filter_replicate_of_neg (by simp), nil_append]
  refine (length_filter_le _ _).trans_lt ?_
  simp only [drop_succ_cons, length_drop, length_cons]
  omega

/-- `handle_iommu_page_fault`, for the faults that are handled together: the pages for which a
translation is looked up, and the migrations. -/
def handleIommuPageFault (v : Kernel) (dev : Fin n) (rvals : List ℕ) (env : ℕ → ToDevice n)
    (s : State n) : List ℕ × State n :=
  (translatedVaddrs (s.trees dev) rvals,
    migrateFaults v dev env (missingVaddrs (s.trees dev) rvals) 0 s)

/-! ### Steps -/

/-- A migration to a device, the user-managed migrations, a page fault of a device, a page fault of
the CPU, another change of the page table, and the run of a queued work. -/
inductive Event (n : ℕ) where
  | migrateToDevice (dev : Fin n) (page : ℕ) (npages : Fin (2 ^ 31)) (env : ToDevice n)
  | userToDevice (dev : Fin n) (vaddr size : ℕ) (env : ℕ → ToDevice n)
  | userToRam (dev : Fin n) (vaddr size : ℕ) (env : ToRam n)
  | deviceFault (dev : Fin n) (queue : List ℕ) (env : ℕ → ToDevice n)
  | cpuFault (page : ℕ) (a : Attempt n)
  | invalidate (first npages : ℕ) (mems : Fin n → Mem) (works : ℕ → Bool) (stay : List ℕ)
  | work (dev : Fin n) (k : ℕ)

def step (v : Kernel) (s : State n) : Event n → State n
  | .migrateToDevice dev page npages env =>
    (svmMigrateToDevice v dev (page * pageSize) npages env s).1
  | .userToDevice dev vaddr size env => userManagedMigrationToDevice v dev vaddr size env s
  | .userToRam dev vaddr size env => userManagedMigrationToRam v dev vaddr size env s
  | .deviceFault dev queue env => (handleIommuPageFault v dev (queue.map faultedVaddr) env s).2
  | .cpuFault page a => svmMigrateToRam v page a s
  | .invalidate first npages mems works stay => invalidateRange v mems works stay first npages s
  | .work dev k => s.setDevice dev (runWork k (s.devices dev))

end

end Tapasco.Svm
