import Tapasco.Lib.Lists
import Tapasco.SvmTransfer
import Mathlib.Data.List.SplitBy

/-!
# The Pages of a Device

The kernel keeps a `struct page` for each page of the device memory and counts the references to
it. The driver takes references with `get_device_page` and drops them with `put_page`; when the
last one is gone the kernel calls back, and `free_device_page` queues a work that returns the page
to the free list. Pages that a migration has moved away are queued together instead, and their
field `zone_device_data` is cleared so that the call back leaves them alone. This module embeds
these operations for each of the kernel versions the driver distinguishes. Whether there is memory
for a work is a parameter.
-/

open FreeList List

open Function

namespace Tapasco.Svm

/-- The kernel versions the driver distinguishes, by the first one of each kind. -/
inductive Kernel where
  | before517
  | from517
  | from61

/-- The reference count at which the kernel calls `page_free`. -/
def Kernel.freedAt : Kernel → ℤ
  | .before517 => 1
  | .from517 => 0
  | .from61 => 0

/-- The reference count the kernel gives a free page. -/
def Kernel.idle : Kernel → ℤ
  | .before517 => 1
  | .from517 => 1
  | .from61 => 0

/-- The memory of a device and its pages: the free blocks, the reference counts, whether
`zone_device_data` is set, and the queued works with the pages they free. -/
structure DevicePages where
  blocks : List Segment
  refs : ℕ → ℤ
  data : ℕ → Bool
  works : List (List ℕ)

namespace DevicePages

/-- The device after `pcie_init_svm`. -/
def new (v : Kernel) : DevicePages :=
  ⟨[⟨0, physMemSize⟩], fun _ => v.idle, fun _ => false, []⟩

def queued (d : DevicePages) (page : ℕ) : ℕ :=
  d.works.flatten.count page

end DevicePages

/-- The reference count after `get_device_page`. -/
def getDevicePage (v : Kernel) (refs : ℤ) : ℤ :=
  match v with
  | .before517 => refs + 1
  | .from517 => refs
  | .from61 => 1

/-- The loop that takes the pages of a new block and sets their `zone_device_data`. -/
def getDevicePages (v : Kernel) (base npages : ℕ) (d : DevicePages) : DevicePages :=
  { d with
    refs := fun p => if base ≤ p ∧ p < base + npages then getDevicePage v (d.refs p) else d.refs p
    data := fun p => if base ≤ p ∧ p < base + npages then true else d.data p }

/-- `free_device_page`. The work has the page alone. -/
def freeDevicePage (work : Bool) (page : ℕ) (d : DevicePages) : DevicePages :=
  if d.data page ∧ work then { d with works := d.works ++ [[page]] } else d

/-- `get_page`, for each page of an array. -/
def getPages (pages : List ℕ) (d : DevicePages) : DevicePages :=
  { d with refs := fun p => d.refs p + pages.count p }

/-- `put_page`. The kernel resets the count of a page it has given back. -/
def putPage (v : Kernel) (work : Bool) (page : ℕ) (d : DevicePages) : DevicePages :=
  if d.refs page - 1 = v.freedAt then
    freeDevicePage work page { d with refs := Function.update d.refs page v.idle }
  else { d with refs := Function.update d.refs page (d.refs page - 1) }

/-- The loops that drop the references to an array of pages. For each of them there may be memory
for a work or not. -/
def putPages (v : Kernel) (works : ℕ → Bool) : List ℕ → DevicePages → DevicePages
  | [], d => d
  | page :: pages, d =>
    putPages v (fun k => works (k + 1)) pages (putPage v (works 0) page d)

/-- The loop that clears `zone_device_data`. -/
def clearData (pages : List ℕ) (d : DevicePages) : DevicePages :=
  { d with data := fun p => if p ∈ pages then false else d.data p }

def queueDevPagesFreeWork (work : Bool) (pages : List ℕ) (d : DevicePages) : DevicePages :=
  if work then { d with works := d.works ++ [pages] } else d

/-- The runs of contiguous pages in an array. -/
def pageRuns (pages : List ℕ) : List (List ℕ) :=
  pages.splitBy fun last page => isContiguousPage page last

/-- `handle_device_pages_free`, and for one page `handle_device_memory_free`. -/
def handleDevicePagesFree (pages : List ℕ) (blocks : List Segment) : List Segment :=
  (pageRuns pages).foldl
    (fun blocks run => freeDeviceMemory (devAddr (run.headD 0)) (run.length * pageSize) blocks)
    blocks

/-- The workqueue runs one of the queued works. -/
def runWork (k : ℕ) (d : DevicePages) : DevicePages :=
  match d.works[k]? with
  | none => d
  | some pages =>
    { d with
      blocks := handleDevicePagesFree pages d.blocks
      works := d.works.eraseIdx k }

/-! ### Balanced devices -/

/-- How often the addresses of a page are in use, for the number of its holders. -/
def inUse (d : DevicePages) (held : ℕ → ℕ) (page : ℕ) : ℕ :=
  d.queued page + if 0 < held page then 1 else 0

/-- A device whose pages have the given numbers of holders. -/
structure Balanced (v : Kernel) (d : DevicePages) (held : ℕ → ℕ) : Prop where
  tiled : Tiled ⟨d.blocks, fun x => inUse d held (x / pageSize)⟩
  refs : ∀ p, d.refs p = if held p = 0 then v.idle else v.freedAt + held p
  data : ∀ p, 0 < held p → d.data p = true

section

variable {v : Kernel} {d : DevicePages} {held : ℕ → ℕ}

theorem balanced_new (v : Kernel) : Balanced v (.new v) fun _ => 0 :=
  ⟨tiled_new, fun _ => rfl, fun _ h => absurd h (lt_irrefl 0)⟩

theorem Balanced.congr (h : Balanced v d held) {d' : DevicePages} {he' : ℕ → ℕ}
    (hb : d'.blocks = d.blocks) (hu : ∀ p, inUse d' he' p = inUse d held p)
    (hr : ∀ p, d'.refs p = if he' p = 0 then v.idle else v.freedAt + he' p)
    (hd : ∀ p, 0 < he' p → d'.data p = true) : Balanced v d' he' := by
  refine ⟨?_, hr, hd⟩
  have ht := h.tiled
  rw [hb]
  simp only [hu]
  exact ht

theorem Balanced.dvd_base (h : Balanced v d held) {b : Segment} (hb : b ∈ d.blocks) :
    pageSize ∣ b.base := by
  by_contra hn
  have hca := h.tiled.canonical
  have hp : (b.base - 1) / pageSize = b.base / pageSize ∧ 0 < b.base := by
    simp only [pageSize] at hn ⊢
    omega
  -- the address before the block is in the same page, so it is free as well
  have ho := h.tiled.once b.base
  have ho' := h.tiled.once (b.base - 1)
  have hc : 0 < coverCount d.blocks b.base := coverCount_pos_iff.mpr ⟨b, hb, hca.contains_base hb⟩
  simp only [hp.1] at ho ho'
  have hc' : 0 < coverCount d.blocks (b.base - 1) := by
    split at ho <;> split at ho' <;> omega
  obtain ⟨t, ht, hle, hlt⟩ := coverCount_pos_iff.mp hc'
  have hba := hca.base_lt_stop hb
  have hne : t ≠ b := by
    rintro rfl
    omega
  rcases hca.apart_of_ne ht hb hne with ha | ha <;> omega

/-! ### References -/

/-- Where the work can be queued, a page is queued when its last holder drops it. -/
theorem Balanced.put (h : Balanced v d held) {p : ℕ} (hp : 0 < held p) :
    Balanced v (putPage v true p d) (update held p (held p - 1)) := by
  have hr := h.refs p
  rw [if_neg (ne_of_gt hp)] at hr
  by_cases hl : held p = 1
  · have hpu : putPage v true p d =
        { d with refs := update d.refs p v.idle, works := d.works ++ [[p]] } := by
      rw [putPage, if_pos (by rw [hr, hl]; omega), freeDevicePage]
      exact if_pos ⟨h.data p hp, rfl⟩
    rw [hpu, hl]
    refine h.congr rfl (fun q => ?_) (fun q => ?_) fun q hq => ?_
    · simp only [inUse, DevicePages.queued, flatten_append, flatten_singleton,
        count_append, count_singleton]
      by_cases hq : q = p
      · subst hq
        simp [hl]
      · simp [hq, Ne.symm hq]
    · by_cases hq : q = p
      · subst hq
        simp
      · simp only [update_of_ne hq]
        exact h.refs q
    · by_cases hqp : q = p
      · subst hqp
        simp at hq
      · rw [update_of_ne hqp] at hq
        exact h.data q hq
  · have hpu : putPage v true p d =
        { d with refs := update d.refs p (d.refs p - 1) } := by
      rw [putPage, if_neg]
      rw [hr]
      omega
    rw [hpu]
    refine h.congr rfl (fun q => ?_) (fun q => ?_) fun q hq => ?_
    · simp only [inUse, DevicePages.queued]
      by_cases hq : q = p
      · subst hq
        rw [update_self, if_pos hp, if_pos (by omega)]
      · rw [update_of_ne hq]
    · by_cases hq : q = p
      · subst hq
        simp only [update_self]
        rw [hr, if_neg (by omega)]
        omega
      · simp only [update_of_ne hq]
        exact h.refs q
    · by_cases hqp : q = p
      · subst hqp
        exact h.data q hp
      · rw [update_of_ne hqp] at hq
        exact h.data q hq

variable {pages : List ℕ}

theorem Balanced.release (h : Balanced v d held) {works : ℕ → Bool} (hw : ∀ k, works k = true)
    (hh : ∀ p, pages.count p ≤ held p) :
    Balanced v (putPages v works pages d) fun p => held p - pages.count p := by
  induction pages generalizing d held works with
  | nil => exact h
  | cons p pages ih =>
    have hp : 0 < held p := by
      have := hh p
      rw [count_cons_self] at this
      omega
    have hle : ∀ q, pages.count q ≤ update held p (held p - 1) q := by
      intro q
      have hq := hh q
      by_cases hqp : q = p
      · subst hqp
        rw [count_cons_self] at hq
        rw [update_self]
        omega
      · rw [count_cons_of_ne (Ne.symm hqp)] at hq
        rwa [update_of_ne hqp]
    have hf : (fun q => update held p (held p - 1) q - pages.count q) =
        fun q => held q - (p :: pages).count q := by
      funext q
      by_cases hqp : q = p
      · subst hqp
        rw [update_self, count_cons_self]
        omega
      · rw [update_of_ne hqp, count_cons_of_ne (Ne.symm hqp)]
    rw [putPages, hw 0, ← hf]
    exact ih (h.put hp) (fun k => hw (k + 1)) hle

/-! ### Taking pages -/

theorem contains_pages {base n x : ℕ} :
    (Segment.mk (base * pageSize) (n * pageSize)).Contains x ↔
      base ≤ x / pageSize ∧ x / pageSize < base + n := by
  rw [Segment.Contains, Segment.stop_mk, ← add_mul, Nat.le_div_iff_mul_le (by decide),
    Nat.div_lt_iff_lt_mul (by decide)]

theorem Balanced.get (h : Balanced v d held) {npages addr : ℕ} {rest : List Segment}
    (hal : allocateDeviceMemory (npages * pageSize) d.blocks = some (addr, rest)) :
    ∃ base, addr / pageSize = base ∧
      (∀ p, base ≤ p → p < base + npages → held p = 0) ∧
      Balanced v (getDevicePages v base npages { d with blocks := rest }) fun p =>
        if base ≤ p ∧ p < base + npages then 1 else held p := by
  obtain ⟨pre, b, post, hbl, rfl, -, -⟩ := allocateDeviceMemory_eq_some hal
  obtain ⟨base, hb⟩ : pageSize ∣ b.base := h.dvd_base (by rw [hbl]; simp)
  have ha : b.base = base * pageSize := hb.trans (mul_comm _ _)
  obtain ⟨hca, hco⟩ := h.tiled.allocate hal
  refine ⟨base, by rw [hb]; exact Nat.mul_div_cancel_left _ (by decide), ?_⟩
  -- what was free was neither queued nor held
  have hu : ∀ p, base ≤ p → p < base + npages → inUse d held p = 0 := by
    intro p hle hlt
    have hd : p * pageSize / pageSize = p := Nat.mul_div_cancel _ (by decide)
    have hi : (Segment.mk b.base (npages * pageSize)).Contains (p * pageSize) := by
      rw [ha, contains_pages, hd]
      exact ⟨hle, hlt⟩
    have ho := h.tiled.once (p * pageSize)
    have hc := hco (p * pageSize)
    rw [if_pos hi] at hc
    simp only [hd] at ho hc
    split at ho <;> omega
  have hh : ∀ p, base ≤ p → p < base + npages → held p = 0 := by
    intro p hle hlt
    have := hu p hle hlt
    rw [inUse] at this
    by_contra hne
    rw [if_pos (Nat.pos_of_ne_zero hne)] at this
    omega
  refine ⟨hh, ⟨hca, fun x => ?_⟩, fun p => ?_, fun p hp => ?_⟩
  · have ho := h.tiled.once x
    have hc := hco x
    simp only [inUse, DevicePages.queued] at ho hc
    simp only [inUse, getDevicePages, DevicePages.queued]
    rw [← ho, hc]
    by_cases hx : base ≤ x / pageSize ∧ x / pageSize < base + npages
    · have hi : (Segment.mk b.base (npages * pageSize)).Contains x := by
        rw [ha]
        exact contains_pages.mpr hx
      simp only [if_pos hx, if_pos hi, if_pos one_pos, hh _ hx.1 hx.2, if_neg (lt_irrefl 0)]
      omega
    · have hi : ¬ (Segment.mk b.base (npages * pageSize)).Contains x := by
        rw [ha]
        exact fun hi => hx (contains_pages.mp hi)
      simp only [if_neg hx, if_neg hi]
      omega
  · simp only [getDevicePages]
    by_cases hp : base ≤ p ∧ p < base + npages
    · rw [if_pos hp, if_pos hp, h.refs p, if_pos (hh p hp.1 hp.2)]
      cases v <;> rfl
    · rw [if_neg hp, if_neg hp, h.refs p]
  · simp only [getDevicePages]
    by_cases hi : base ≤ p ∧ p < base + npages
    · rw [if_pos hi]
    · rw [if_neg hi] at hp ⊢
      exact h.data p hp

theorem Balanced.getPages (h : Balanced v d held) (hh : ∀ p ∈ pages, 0 < held p) :
    Balanced v (getPages pages d) fun p => held p + pages.count p := by
  have hpo : ∀ p, 0 < held p + pages.count p ↔ 0 < held p := by
    intro p
    refine ⟨fun hp => ?_, fun hp => Nat.add_pos_left hp _⟩
    by_cases hm : p ∈ pages
    · exact hh p hm
    · rwa [count_eq_zero.mpr hm] at hp
  refine h.congr rfl (fun p => ?_) (fun p => ?_) fun p hp => h.data p ((hpo p).mp hp)
  · simp only [inUse, hpo]
    rfl
  · have hp := hpo p
    simp only [Svm.getPages, h.refs p]
    by_cases hz : held p = 0
    · have hc : pages.count p = 0 := by omega
      simp [hc, hz]
    · rw [if_neg hz, if_neg (by omega)]
      push_cast
      omega

/-! ### Moving pages away -/

theorem putPage_of_not_data {work : Bool} {p : ℕ} (hd : d.data p = false)
    (hr : d.refs p = v.freedAt + 1) :
    putPage v work p d = { d with refs := update d.refs p v.idle } := by
  rw [putPage, if_pos (by omega), freeDevicePage]
  exact if_neg fun ha => Bool.false_ne_true (hd.symm.trans ha.1)

theorem putPages_of_not_data {works : ℕ → Bool} (hn : pages.Nodup)
    (hd : ∀ p ∈ pages, d.data p = false) (hr : ∀ p ∈ pages, d.refs p = v.freedAt + 1) :
    putPages v works pages d =
      { d with refs := fun p => if p ∈ pages then v.idle else d.refs p } := by
  induction pages generalizing d works with
  | nil => simp [putPages]
  | cons p pages ih =>
    obtain ⟨hp, hn⟩ := nodup_cons.mp hn
    have hne : ∀ q ∈ pages, q ≠ p := fun q hq heq => hp (heq ▸ hq)
    rw [putPages, putPage_of_not_data (hd p mem_cons_self) (hr p mem_cons_self)]
    rw [ih hn]
    · congr 1
      funext q
      by_cases hq : q = p
      · subst hq
        simp [hp]
      · simp [hq]
    · exact fun q hq => hd q (mem_cons_of_mem _ hq)
    · intro q hq
      simp only [update_of_ne (hne q hq)]
      exact hr q (mem_cons_of_mem _ hq)

/-- **Moving pages away**: the pages are queued as one work, and their only holder drops them. -/
theorem Balanced.moveAway (h : Balanced v d held) (hn : pages.Nodup)
    (hh : ∀ p ∈ pages, held p = 1) (works : ℕ → Bool) :
    Balanced v (putPages v works pages (queueDevPagesFreeWork true pages (clearData pages d)))
      fun p => if p ∈ pages then 0 else held p := by
  rw [queueDevPagesFreeWork, if_pos rfl, putPages_of_not_data hn]
  · refine h.congr rfl (fun p => ?_) (fun p => ?_) fun p hp => ?_
    · simp only [inUse, DevicePages.queued, clearData, flatten_append,
        flatten_singleton, count_append]
      by_cases hm : p ∈ pages
      · simp only [if_pos hm, hh p hm, count_eq_one_of_mem hn hm]
        rfl
      · simp only [if_neg hm, count_eq_zero.mpr hm, add_zero]
    · simp only [clearData]
      by_cases hm : p ∈ pages
      · rw [if_pos hm, if_pos hm, if_pos rfl]
      · rw [if_neg hm, if_neg hm, h.refs p]
    · simp only [clearData]
      by_cases hm : p ∈ pages
      · rw [if_pos hm] at hp
        exact absurd hp (lt_irrefl 0)
      · rw [if_neg hm] at hp ⊢
        exact h.data p hp
  · intro p hp
    simp [clearData, hp]
  · intro p hp
    simp only [clearData, h.refs p, hh p hp]
    rfl

/-! ### Queued works -/

theorem pageRun_eq_range' {p : ℕ} {run : List ℕ}
    (h : (p :: run).IsChain fun last page => isContiguousPage page last = true) :
    p :: run = List.range' p (run.length + 1) := by
  induction run generalizing p with
  | nil => rfl
  | cons q run ih =>
    obtain ⟨hq, hr⟩ := isChain_cons_cons.mp h
    obtain rfl : q = p + 1 := by simpa [isContiguousPage] using hq
    rw [length_cons, range'_succ]
    exact congrArg (p :: ·) (ih hr)

theorem exists_range'_of_mem_pageRuns {run : List ℕ} (h : run ∈ pageRuns pages) :
    ∃ base npages, 0 < npages ∧ run = List.range' base npages := by
  cases run with
  | nil => exact absurd rfl (ne_nil_of_mem_splitBy h)
  | cons p run =>
    exact ⟨p, run.length + 1, Nat.succ_pos _, pageRun_eq_range' (isChain_of_mem_splitBy h)⟩

theorem count_range' (base n p : ℕ) :
    (List.range' base n).count p = if base ≤ p ∧ p < base + n then 1 else 0 := by
  by_cases hp : base ≤ p ∧ p < base + n
  · rw [if_pos hp]
    exact count_eq_one_of_mem nodup_range' (mem_range'_1.mpr hp)
  · rw [if_neg hp]
    exact count_eq_zero.mpr fun hm => hp (mem_range'_1.mp hm)

/-- The pages of each run are returned to the free list with one call. -/
def freeRuns (runs : List (List ℕ)) (blocks : List Segment) : List Segment :=
  runs.foldl
    (fun blocks run => freeDeviceMemory (devAddr (run.headD 0)) (run.length * pageSize) blocks)
    blocks

theorem canonical_freeRuns {runs : List (List ℕ)}
    (hru : ∀ run ∈ runs, ∃ base npages, 0 < npages ∧ run = List.range' base npages)
    (hn : runs.flatten.Nodup) {bs : List Segment} (hc : Canonical bs)
    (ha : ∀ x, Covers bs x → x / pageSize ∉ runs.flatten) :
    Canonical (freeRuns runs bs) ∧ ∀ x,
      Covers (freeRuns runs bs) x ↔ Covers bs x ∨ x / pageSize ∈ runs.flatten := by
  induction runs generalizing bs with
  | nil => exact ⟨hc, by simp [freeRuns]⟩
  | cons run runs ih =>
    obtain ⟨base, npages, hp, rfl⟩ := hru run mem_cons_self
    have hh : (List.range' base npages).headD 0 = base := by
      obtain ⟨n, rfl⟩ := Nat.exists_eq_succ_of_ne_zero (ne_of_gt hp)
      rw [range'_succ]
      rfl
    have hin : ∀ x, (Segment.mk (base * pageSize) (npages * pageSize)).Contains x ↔
        x / pageSize ∈ List.range' base npages := fun x =>
      contains_pages.trans mem_range'_1.symm
    simp only [flatten_cons, mem_append, not_or, nodup_append'] at ha hn
    obtain ⟨hca, hco⟩ := canonical_free hc (Nat.mul_pos hp (by decide : 0 < pageSize))
      fun x hx => mt (hin x).mp (ha x hx).1
    rw [freeRuns, foldl_cons, hh, length_range', devAddr]
    obtain ⟨hca', hco'⟩ := ih (fun run hr => hru run (mem_cons_of_mem _ hr)) hn.2.1 hca
      fun x hx => ((hco x).mp hx).elim (fun h => (ha x h).2) fun h => hn.2.2 ((hin x).mp h)
    refine ⟨hca', fun x => ?_⟩
    rw [← freeRuns, hco', hco, hin, flatten_cons, mem_append, or_assoc]

theorem tiled_freeRuns (use : ℕ → ℕ) {runs : List (List ℕ)}
    (hru : ∀ run ∈ runs, ∃ base npages, 0 < npages ∧ run = List.range' base npages)
    {bs : List Segment}
    (h : Tiled ⟨bs, fun x => use (x / pageSize) + runs.flatten.count (x / pageSize)⟩) :
    Tiled ⟨freeRuns runs bs, fun x => use (x / pageSize)⟩ := by
  obtain ⟨hbs, hon⟩ := h
  simp only at hbs hon
  have hle : ∀ x, coverCount bs x + (use (x / pageSize) + runs.flatten.count (x / pageSize)) ≤ 1 :=
    fun x => (hon x).trans_le (by split <;> omega)
  have hn : runs.flatten.Nodup := nodup_iff_count_le_one.mpr fun p => by
    have := hle (p * pageSize)
    rw [Nat.mul_div_cancel p (by decide)] at this
    omega
  obtain ⟨hc, hco⟩ := canonical_freeRuns hru hn hbs fun x hx => by
    have := hle x
    have := coverCount_pos_iff.mpr hx
    exact count_eq_zero.mp (by omega)
  refine ⟨hc, fun x => ?_⟩
  have hx := hco x
  rw [← coverCount_pos_iff, ← coverCount_pos_iff, ← count_pos_iff] at hx
  have := hc.coverCount_le_one x
  have := hle x
  rw [← hon x]
  simp only
  omega

theorem Balanced.free (h : Balanced v d held) (k : ℕ) : Balanced v (runWork k d) held := by
  rw [runWork]
  cases hk : d.works[k]? with
  | none => exact h
  | some pages =>
    refine ⟨?_, h.refs, h.data⟩
    have hp : ∀ p, d.works.flatten.count p =
        (d.works.eraseIdx k).flatten.count p + pages.count p := by
      intro p
      obtain ⟨pre, post, hw, rfl⟩ := Lists.exists_append_of_getElem? hk
      rw [hw, eraseIdx_append_of_length_le (le_refl _), Nat.sub_self, eraseIdx_cons_zero]
      simp only [flatten_append, flatten_cons, count_append]
      omega
    refine tiled_freeRuns
      (fun p => (d.works.eraseIdx k).flatten.count p + if 0 < held p then 1 else 0)
      (fun run hr => exists_range'_of_mem_pageRuns hr) ⟨h.tiled.canonical, fun x => ?_⟩
    have ho := h.tiled.once x
    simp only [inUse, DevicePages.queued, hp] at ho ⊢
    rw [pageRuns, flatten_splitBy, ← ho]
    omega

/-- **Freeing pages in runs is freeing them one by one**, in any order. -/
theorem handleDevicePagesFree_eq {blocks : List Segment} (hc : Canonical blocks)
    {order : List ℕ} (hn : pages.Nodup)
    (ha : ∀ p ∈ pages, ∀ x, x / pageSize = p → ¬ Covers blocks x) (ho : order.Perm pages) :
    handleDevicePagesFree pages blocks =
      order.foldl (fun blocks p => freeDeviceMemory (devAddr p) pageSize blocks) blocks := by
  have hf : (pageRuns pages).flatten = pages := flatten_splitBy _ _
  have hs : (order.map fun p => [p]).flatten = order := by simp [← flatMap_def]
  obtain ⟨hc₁, hco₁⟩ := canonical_freeRuns (fun run hr => exists_range'_of_mem_pageRuns hr)
    (hf.symm ▸ hn) hc fun x hx hp => ha _ (hf ▸ hp) x rfl hx
  have hone : ∀ run ∈ order.map fun p => [p], ∃ base npages,
      0 < npages ∧ run = List.range' base npages :=
    forall_mem_map.mpr fun p _ => ⟨p, 1, one_pos, rfl⟩
  obtain ⟨hc₂, hco₂⟩ := canonical_freeRuns hone (hs.symm ▸ ho.nodup_iff.mpr hn) hc
    fun x hx hp => ha _ (ho.mem_iff.mp (hs ▸ hp)) x rfl hx
  have heq : freeRuns (pageRuns pages) blocks = freeRuns (order.map fun p => [p]) blocks :=
    hc₁.ext hc₂ fun x => by rw [hco₁, hco₂, hf, hs, ho.mem_iff]
  refine heq.trans ?_
  simp only [freeRuns, foldl_map, headD_cons, length_singleton, one_mul]

/-- The pages 5, 1, 2 are freed into a list with the pages 3 and 4. -/
theorem handleDevicePagesFree_eq_three :
    handleDevicePagesFree [5, 1, 2] [⟨3 * pageSize, 2 * pageSize⟩] =
      [2, 5, 1].foldl (fun blocks p => freeDeviceMemory (devAddr p) pageSize blocks)
        [⟨3 * pageSize, 2 * pageSize⟩] := by
  refine handleDevicePagesFree_eq (canonical_singleton (by decide)) (by decide) ?_ (by decide)
  rintro p hp x rfl ⟨b, hb, hx⟩
  rw [mem_singleton.mp hb, contains_pages] at hx
  simp only [mem_cons, not_mem_nil, or_false] at hp
  omega

end

end Tapasco.Svm
