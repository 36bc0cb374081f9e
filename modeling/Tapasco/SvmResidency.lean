import Tapasco.SvmFaults
import Tapasco.SvmOwnership

/-!
# The Interval Trees and the Pages on the Devices

The driver decides by the interval trees of the devices where the pages of a range are. This module
relates the trees to the page table, through all migrations, page faults and calls of the MMU
notifier, on any number of devices.

They may come apart. The notifier takes its range out of the trees, whether or not the pages leave
the device; a change of their protection, for instance, leaves them there. `insert_vmem_interval`
and `remove_vmem_interval` may lack the memory for a node, which their callers do not notice. Pages
without a source stay on the device when a migration from RAM is aborted, and the handler of a CPU
page fault removes the interval without looking whether the page was migrated.
-/

open FreeList List

open Function

namespace Tapasco.Svm

section

variable {n : ℕ} {v : Kernel} {s s' : State n} {dev : Fin n} {vaddr npages : ℕ}

/-! ### What the trees say -/

/-- Each interval tree has exactly the addresses of the pages that are on its device. -/
structure Exact (s : State n) : Prop where
  tree : ∀ d, Tree (s.trees d)
  covers : ∀ d x, Covers (s.trees d) x ↔ s.resident (x / pageSize) = some d
  bounded : ∀ d x, Covers (s.trees d) x → x < userSpace

theorem exact_new (n : ℕ) (v : Kernel) : Exact (.new n v) where
  tree _ := tree_nil
  covers _ x := by simp [State.new, State.resident]
  bounded _ x h := absurd h (covers_nil x)

theorem Exact.congr (h : Exact s) (ht : s'.trees = s.trees)
    (hr : ∀ p, s'.resident p = s.resident p) : Exact s' where
  tree d := ht ▸ h.tree d
  covers d x := by
    rw [ht, hr]
    exact h.covers d x
  bounded d x := by
    rw [ht]
    exact h.bounded d x

theorem Exact.replace (h : Exact s) {tree : List Segment}
    (ht : s'.trees = update s.trees dev tree) (htr : Tree tree)
    (hc : ∀ x, Covers tree x ↔ s'.resident (x / pageSize) = some dev)
    (hb : ∀ x, Covers tree x → x < userSpace)
    (ho : ∀ d, d ≠ dev → ∀ p, s'.resident p = some d ↔ s.resident p = some d) : Exact s' := by
  refine ⟨?_, ?_, ?_⟩ <;> rw [ht]
  · exact (forall_update_iff _ fun _ t => Tree t).mpr ⟨htr, fun d _ => h.tree d⟩
  · refine (forall_update_iff _ fun d t => ∀ x, Covers t x ↔
      s'.resident (x / pageSize) = some d).mpr ⟨hc, fun d hd x => ?_⟩
    exact (h.covers d x).trans (ho d hd _).symm
  · exact (forall_update_iff _ fun _ t => ∀ x, Covers t x → x < userSpace).mpr
      ⟨hb, fun d _ => h.bounded d⟩

theorem Exact.insert (h : Exact s) (hdv : pageSize ∣ vaddr) (ha : Accepted vaddr npages)
    (hr : ∀ p ∈ vpages vaddr npages, s.resident p = none) (page : ℕ → ℕ) :
    Exact ((s.mapTo (vpages vaddr npages) fun p => some (dev, page p)).setTree dev
      (insertVmemInterval true (s.trees dev) vaddr npages)) := by
  obtain ⟨hpo, -, hle⟩ := ha
  obtain ⟨ht, hco⟩ := insertVmemInterval_spec (h.tree dev) hdv hpo fun x hx hx' hc => by
    rw [h.covers, hr _ ((mem_vpages hdv).mpr ⟨hx, hx'⟩)] at hc
    exact Option.some_ne_none _ hc.symm
  refine h.replace rfl ht (fun x => ?_) (fun x hx => ?_) fun d hd p => ?_
  · rw [hco, h.covers, resident_setTree, resident_mapTo, ← mem_vpages hdv]
    by_cases hx : x / pageSize ∈ vpages vaddr npages <;> simp [hx]
  · rcases (hco x).mp hx with hx | hx
    · exact h.bounded dev x hx
    · exact lt_of_lt_of_le hx.2 hle
  · rw [resident_setTree, resident_mapTo]
    by_cases hp : p ∈ vpages vaddr npages
    · simp [hp, hr p hp, Ne.symm hd]
    · rw [if_neg hp]

theorem Exact.remove (h : Exact s) (hdv : pageSize ∣ vaddr) (ha : Accepted vaddr npages)
    (hde : ∀ p ∈ vpages vaddr npages, s.resident p = some dev) :
    Exact ((s.mapTo (vpages vaddr npages) fun _ => none).setTree dev
      (removeVmemInterval true (s.trees dev) vaddr npages)) := by
  obtain ⟨hpo, -, hle⟩ := ha
  have hle' : vaddr + npages * pageSize ≤ 2 ^ 64 := le_trans hle (by decide)
  obtain ⟨ht, hc⟩ := removeVmemInterval_spec (h.tree dev) hdv hpo hle'
    fun x hx hx' => (h.covers dev x).mpr (hde _ ((mem_vpages hdv).mpr ⟨hx, hx'⟩))
  refine h.replace rfl ht (fun x => ?_) (fun x hx => ?_) fun d hd p => ?_
  · rw [hc, h.covers, resident_setTree, resident_mapTo, ← mem_vpages hdv]
    by_cases hx : x / pageSize ∈ vpages vaddr npages <;> simp [hx]
  · exact h.bounded dev x ((hc x).mp hx).1
  · rw [resident_setTree, resident_mapTo]
    by_cases hp : p ∈ vpages vaddr npages
    · simp [hp, hde p hp, Ne.symm hd]
    · rw [if_neg hp]

theorem notifyOthers_eq (h : Exact s) (hdv : pageSize ∣ vaddr) (ha : Accepted vaddr npages)
    {mems : Fin n → Mem} (hm : ∀ d, mems d = .ample)
    (ho : ∀ d, d ≠ dev → ∀ p ∈ vpages vaddr npages, s.resident p ≠ some d) :
    notifyOthers mems dev vaddr npages s = s := by
  obtain ⟨hp, hi, hle⟩ := ha
  have ht : (notifyOthers mems dev vaddr npages s).trees = s.trees := by
    funext d
    simp only [notifyOthers]
    by_cases hd : d = dev
    · rw [if_pos hd]
    rw [if_neg hd, hm]
    obtain ⟨htr, hc⟩ := svmTlbInvalidateRangeStart_spec (h.tree d) hdv hp hi
      (le_trans hle (by decide))
    refine htr.canonical.ext (h.tree d).canonical fun x => ?_
    rw [hc, and_iff_left_iff_imp, h.covers, ← mem_vpages hdv]
    exact fun hr hx => ho d hd _ hx hr
  cases s
  exact congrArg (State.mk _ _ · _) ht

/-! ### Migrations of a range -/

/-- Nothing gets in the way of the interval trees: there is memory, and a part of the pages is not
left on the device. -/
structure Attempt.Clean (a : Attempt n) : Prop where
  mems : ∀ d, a.mems d = .ample
  left : ∀ left, a.ending = .partly left → left = []

/-- The state is exact, and only pages in the list have moved. -/
structure Moves (s : State n) (pages : List ℕ) (s' : State n) : Prop where
  exact : Exact s'
  frame : ∀ p, p ∉ pages → s'.resident p = s.resident p

theorem Moves.refl (h : Exact s) (pages : List ℕ) : Moves s pages s :=
  ⟨h, fun _ _ => rfl⟩

theorem Moves.of_same (h : Exact s) (pages : List ℕ) (ht : s'.trees = s.trees)
    (hr : ∀ p, s'.resident p = s.resident p) : Moves s pages s' :=
  ⟨h.congr ht hr, fun p _ => hr p⟩

theorem Moves.trans {t : State n} {pages : List ℕ} (h : Moves s pages t)
    (h' : Moves t pages s') : Moves s pages s' :=
  ⟨h'.exact, fun p hp => (h'.frame p hp).trans (h.frame p hp)⟩

theorem Moves.mono {pages pages' : List ℕ} (h : Moves s pages s') (hs : pages ⊆ pages') :
    Moves s pages' s' :=
  ⟨h.exact, fun p hp => h.frame p fun hm => hp (hs hm)⟩

variable {attempts : List (Attempt n)} {lists : Fin n → List Segment} {curr stop start : ℕ}
  {calls : ℕ → List (Attempt n)}

theorem svmMigrateRamToDev_moves (h : Exact s) (hd : pageSize ∣ vaddr)
    (hcl : ∀ a ∈ attempts, a.Clean) (hr : ∀ p ∈ vpages vaddr npages, s.resident p = none) :
    Moves s (vpages vaddr npages) (svmMigrateRamToDev v dev vaddr npages attempts s).1 := by
  induction attempts generalizing s with
  | nil => exact .refl h _
  | cons a attempts ih =>
    obtain ⟨ha, hcl⟩ := forall_mem_cons.mp hcl
    rw [svmMigrateRamToDev]
    by_cases hu : a.ending.unset ∨ ¬ Accepted vaddr npages
    · rw [if_pos hu]
      exact .refl h _
    have hac : Accepted vaddr npages := by tauto
    simp only [if_neg hu]
    rw [notifyOthers_eq h hd hac ha.mems fun d _ p hp => by simp [hr p hp]]
    by_cases hc : a.ending = .uncollected ∨ ¬ ∀ p ∈ vpages vaddr npages, s.table p = none
    · rw [if_pos hc]
      exact ih h hcl hr
    rw [if_neg hc]
    cases ht : takePages v dev npages s with
    | none => exact .refl h _
    | some r =>
      obtain ⟨base, t⟩ := r
      obtain ⟨addr, rest, -, -, rfl⟩ := takePages_eq_some ht
      cases he : a.ending with
      | migrated =>
        simp only [ha.mems]
        refine ⟨(h.insert hd hac hr fun p => base + (p - vaddr / pageSize)).congr
          rfl fun p => ?_, fun p hp => ?_⟩
        · rfl
        · rw [resident_setTree, resident_mapTo, if_neg hp]
          rfl
      | partly left =>
        obtain rfl := ha.left left he
        -- no page was left on the device, so the next attempt starts from the same pages
        simp only [not_mem_nil, decide_false, filter_false]
        have hre : ∀ p, (dropPages v dev a.works (List.range' base npages)
            (leaveHoles dev vaddr base [] (s.setDevice dev (getDevicePages v base npages
              { s.devices dev with blocks := rest })))).resident p = s.resident p := by
          intro p
          rw [dropPages, leaveHoles, resident_setDevice, resident_setDevice, resident_mapTo,
            if_neg not_mem_nil, resident_setDevice]
        have hsame := Moves.of_same h (vpages vaddr npages) (by rfl) hre
        exact hsame.trans (ih hsame.exact hcl fun p hp => (hre p).trans (hr p hp))
      | mapFails i => exact .of_same h _ rfl fun _ => rfl
      | _ => exact .of_same h _ rfl fun _ => rfl

theorem svmMigrateDevToDev_moves (h : Exact s) (hdv : pageSize ∣ vaddr)
    (hcl : ∀ a ∈ attempts, a.Clean) {src : Fin n}
    (hs : ∀ p ∈ vpages vaddr npages, s.resident p = some src) :
    Moves s (vpages vaddr npages) (svmMigrateDevToDev v src dev vaddr npages attempts s).1 := by
  induction attempts with
  | nil => exact .refl h _
  | cons a attempts ih =>
    obtain ⟨ha, hcl⟩ := forall_mem_cons.mp hcl
    rw [svmMigrateDevToDev]
    by_cases hu : a.ending.unset ∨ ¬ Accepted vaddr npages
    · rw [if_pos hu]
      exact .refl h _
    have hac : Accepted vaddr npages := by tauto
    simp only [if_neg hu]
    rw [notifyOthers_eq h hdv hac ha.mems fun d hd p hp => by simp [hs p hp, Ne.symm hd]]
    by_cases hc : a.ending = .uncollected ∨
        ¬ ∀ p ∈ vpages vaddr npages, s.resident p = some src
    · rw [if_pos hc]
      exact ih hcl
    rw [if_neg hc]
    cases ht : takePages v dev npages s with
    | none => exact .refl h _
    | some r =>
      obtain ⟨base, t⟩ := r
      obtain ⟨addr, rest, -, -, rfl⟩ := takePages_eq_some ht
      by_cases he : a.ending = .migrated
      · simp only [if_pos he, ha.mems]
        -- the pages leave for RAM, and come from there
        have hl : ∀ p ∈ vpages vaddr npages,
            ((s.mapTo (vpages vaddr npages) fun _ => none).setTree src
              (removeVmemInterval true (s.trees src) vaddr npages)).resident p = none :=
          fun p hp => by rw [resident_setTree, resident_mapTo, if_pos hp]; rfl
        refine ⟨((h.remove hdv hac hs).insert hdv hac hl fun p =>
          base + (p - vaddr / pageSize)).congr rfl fun p => ?_, fun p hp => ?_⟩
        · rw [resident_setTree, resident_setTree, resident_mapTo, resident_setTree, resident_mapTo]
          by_cases hp : p ∈ vpages vaddr npages
          · rw [if_pos hp, if_pos hp]
          · rw [if_neg hp, if_neg hp, resident_setTree, resident_mapTo, if_neg hp]
            rfl
        · rw [resident_setTree, resident_setTree, resident_mapTo, if_neg hp]
          rfl
      · simp only [if_neg he]
        exact .of_same h _ rfl fun _ => rfl

theorem svmMigrateDevToRam_moves (h : Exact s) (hdv : pageSize ∣ vaddr)
    (hcl : ∀ a ∈ attempts, a.Clean) (hde : ∀ p ∈ vpages vaddr npages, s.resident p = some dev) :
    Moves s (vpages vaddr npages) (svmMigrateDevToRam v dev vaddr npages attempts s).1 := by
  induction attempts with
  | nil => exact .refl h _
  | cons a attempts ih =>
    obtain ⟨ha, hcl⟩ := forall_mem_cons.mp hcl
    rw [svmMigrateDevToRam]
    by_cases hu : a.ending.unset ∨ ¬ Accepted vaddr npages
    · rw [if_pos hu]
      exact .refl h _
    have hac : Accepted vaddr npages := by tauto
    simp only [if_neg hu]
    rw [notifyOthers_eq h hdv hac ha.mems fun d hd p hp => by simp [hde p hp, Ne.symm hd]]
    by_cases hc : a.ending = .uncollected ∨
        ¬ ∀ p ∈ vpages vaddr npages, s.resident p = some dev
    · rw [if_pos hc]
      exact ih hcl
    rw [if_neg hc]
    by_cases he : a.ending = .migrated
    · simp only [if_pos he, ha.mems]
      refine ⟨(h.remove hdv hac hde).congr rfl fun p => rfl, fun p hp => ?_⟩
      rw [resident_setTree, resident_mapTo, if_neg hp]
      rfl
    · simp only [if_neg he]
      exact .of_same h _ rfl fun _ => rfl

/-! ### Migrating to a device -/

/-- The lists are right in what they have from the current address to the end of the range, and have
no interval that ends before. -/
structure Found (s : State n) (lists : Fin n → List Segment) (curr stop : ℕ) : Prop where
  tree : ∀ d, Tree (lists d)
  resident : ∀ d x, curr ≤ x → x < stop → Covers (lists d) x → s.resident (x / pageSize) = some d
  ahead : ∀ d, ∀ e ∈ lists d, curr < e.stop

/-- They have the intervals of all devices there. -/
structure Pending (s : State n) (lists : Fin n → List Segment) (curr stop : ℕ) : Prop
    extends Found s lists curr stop where
  complete : ∀ d x, curr ≤ x → x < stop → s.resident (x / pageSize) = some d → Covers (lists d) x

theorem add_pages_between {a b : ℕ} (ha : pageSize ∣ a) (hb : pageSize ∣ b) :
    a + (b - a) / pageSize * pageSize = max a b := by
  simp only [pageSize] at *
  omega

theorem resident_of_frame {k x : ℕ} (hd : pageSize ∣ curr)
    (hfr : ∀ p, p ∉ vpages curr k → s'.resident p = s.resident p) (hx : curr + k * pageSize ≤ x) :
    s'.resident (x / pageSize) = s.resident (x / pageSize) :=
  hfr _ fun hm => by
    have := (mem_vpages hd).mp hm
    omega

section

variable {d : Fin n} {entry : Segment} {k : ℕ} (hn : nextInterval lists = some (d, entry))
include hn

theorem Found.base_le (h : Found s lists curr stop) {d' : Fin n} {e : Segment}
    (he : e ∈ lists d') : entry.base ≤ e.base ∧ e.base < e.stop := by
  have hb := (h.tree d').canonical.contains_base he
  obtain ⟨e', rest, hl⟩ := exists_cons_of_ne_nil (ne_nil_of_mem he)
  have hc := (h.tree d').canonical
  rw [hl] at hc he
  exact ⟨((nextInterval_eq_some hn).2 d' e' rest hl).trans (hc.base_le_of_covers ⟨e, he, hb⟩), hb.2⟩

variable (hd : pageSize ∣ curr)
include hd

theorem Found.ram (h : Found s lists curr stop)
    (hfr : ∀ p, p ∉ vpages curr k → s'.resident p = s.resident p)
    (hk : curr + k * pageSize = max curr (min entry.base stop)) :
    Found s' lists (curr + k * pageSize) stop := by
  refine ⟨h.tree, fun d' x hx hx' hc => ?_, fun d' e he => ?_⟩
  · rw [resident_of_frame hd hfr hx]
    exact h.resident d' x (by omega) hx' hc
  · have := h.base_le hn he
    have := h.ahead d' e he
    omega

/-- The interval of another device that ends inside the next one has an address in common with
it. -/
theorem Found.device (h : Found s lists curr stop)
    (hfr : ∀ p, p ∉ vpages curr k → s'.resident p = s.resident p)
    (hk : curr + k * pageSize = max curr (min entry.stop stop)) :
    Found s' (update lists d (lists d).tail) (curr + k * pageSize) stop := by
  obtain ⟨⟨rest, hl⟩, -⟩ := nextInterval_eq_some hn
  have hs : ∀ d', (update lists d (lists d).tail d').Sublist (lists d') := by
    intro d'
    by_cases hd : d' = d
    · subst hd
      rw [update_self]
      exact tail_sublist _
    · rw [update_of_ne hd]
  refine ⟨fun d' => (h.tree d').sublist (hs d'), fun d' x hx hx' hc => ?_, fun d' e he => ?_⟩
  · obtain ⟨e, he, hco⟩ := hc
    rw [resident_of_frame hd hfr hx]
    exact h.resident d' x (by omega) hx' ⟨e, (hs d').subset he, hco⟩
  · have hmem := (hs d').subset he
    have hahead := h.ahead d' e hmem
    obtain ⟨hle, hlt⟩ := h.base_le hn hmem
    by_cases hdd : d' = d
    · subst hdd
      rw [update_self, hl, tail_cons] at he
      have := (canonical_cons.mp (hl ▸ (h.tree d').canonical)).2.1 e he
      omega
    · by_contra hge
      have hd' := h.resident d' (e.stop - 1) (by omega) (by omega)
        ⟨e, hmem, by omega, by omega⟩
      have hd := h.resident d (e.stop - 1) (by omega) (by omega)
        ⟨entry, hl ▸ mem_cons_self, by omega, by omega⟩
      exact hdd (Option.some.inj (hd'.symm.trans hd))

theorem Pending.ram (h : Pending s lists curr stop) (hmo : Moves s (vpages curr k) s')
    (hk : curr + k * pageSize = max curr (min entry.base stop)) :
    Pending s' lists (curr + k * pageSize) stop := by
  refine ⟨h.toFound.ram hn hd hmo.frame hk, fun d x hx hx' hr => ?_⟩
  rw [resident_of_frame hd hmo.frame hx] at hr
  exact h.complete d x (by omega) hx' hr

theorem Pending.device (h : Pending s lists curr stop) (hmo : Moves s (vpages curr k) s')
    (hk : curr + k * pageSize = max curr (min entry.stop stop)) :
    Pending s' (update lists d (lists d).tail) (curr + k * pageSize) stop := by
  refine ⟨h.toFound.device hn hd hmo.frame hk, fun d' x hx hx' hr => ?_⟩
  rw [resident_of_frame hd hmo.frame hx] at hr
  have hc := h.complete d' x (by omega) hx' hr
  by_cases hdd : d' = d
  · subst hdd
    obtain ⟨⟨rest, hl⟩, -⟩ := nextInterval_eq_some hn
    rw [hl, covers_cons] at hc
    rw [update_self, hl]
    exact hc.resolve_left fun hi => by
      have := hi.2
      omega
  · rwa [update_of_ne hdd]

end

theorem Pending.resident_eq_none (h : Pending s lists curr stop) {x : ℕ} (hx : curr ≤ x)
    (hx' : x < stop) (hf : ∀ d e rest, lists d = e :: rest → x < e.base) :
    s.resident (x / pageSize) = none := by
  cases hr : s.resident (x / pageSize) with
  | none => rfl
  | some d =>
    have hc := h.complete d x hx hx' hr
    have ht := h.tree d
    cases hl : lists d with
    | nil =>
      rw [hl] at hc
      exact absurd hc (covers_nil x)
    | cons e rest =>
      rw [hl] at hc ht
      have hle := ht.canonical.base_le_of_covers hc
      exact absurd (hf d e rest hl) (not_lt.mpr hle)

/-- The kernel and the memory do not get in the way of a migration to a device. -/
structure ToDevice.Clean (env : ToDevice n) : Prop where
  entries : ∀ d, env.entries d = none
  calls : ∀ i, ∀ a ∈ env.calls i, a.Clean

section

variable (v : Kernel) (dev : Fin n) (h : Exact s) (hp : Pending s lists curr stop)
  (hc : pageSize ∣ curr) (hs : pageSize ∣ stop) (hle : curr ≤ stop) {d : Fin n} {entry : Segment}
  (hn : nextInterval lists = some (d, entry)) (hcl : ∀ a ∈ attempts, a.Clean)
include h hp hc hs hle hn hcl

/-- **An iteration** of the loop, first half: pages in RAM before the next interval. -/
theorem migrateRamPiece_spec :
    ∃ k t ok, migrateRamPiece v dev curr stop entry attempts s = (k, t, ok) ∧ Exact t ∧
      Pending t lists (curr + k * pageSize) stop ∧ curr + k * pageSize ≤ stop ∧
      min entry.base stop ≤ curr + k * pageSize := by
  obtain ⟨⟨rest, hl⟩, hm⟩ := nextInterval_eq_some hn
  have hen : entry ∈ lists d := hl ▸ mem_cons_self
  obtain ⟨hb, -⟩ := (hp.tree d).aligned entry hen
  rw [migrateRamPiece]
  by_cases hgt : entry.base > curr
  · rw [if_pos hgt]
    have he := add_pages_between hc (dvd_min_of_dvd hb hs)
    rw [max_eq_right (by omega)] at he
    obtain ⟨k, hk⟩ : ∃ k, k = (min entry.base stop - curr) / pageSize := ⟨_, rfl⟩
    rw [← hk] at he ⊢
    have hmo : Moves s (vpages curr k) (svmMigrateRamToDev v dev curr k attempts s).1 := by
      refine svmMigrateRamToDev_moves h hc hcl (forall_mem_vpages hc fun x hx hx' => ?_)
      refine hp.resident_eq_none hx (by omega) fun d' e rest' hl' => ?_
      have := hm d' e rest' hl'
      omega
    exact ⟨k, _, _, rfl, hmo.exact, hp.ram hn hc hmo (by omega), by omega, by omega⟩
  · rw [if_neg hgt]
    refine ⟨0, s, true, rfl, h, ?_, ?_, ?_⟩
    · rw [zero_mul, add_zero]
      exact hp
    · omega
    · omega

/-- **An iteration** of the loop, second half: the next interval. -/
theorem migrateDevPiece_spec (hb : min entry.base stop ≤ curr) :
    ∃ k t ok, (min entry.stop stop - curr) / pageSize = k ∧ curr - min entry.stop stop = 0 ∧
      migrateDevPiece v d dev curr (min entry.stop stop) attempts s = (t, ok) ∧ Exact t ∧
      Pending t (update lists d (lists d).tail) (curr + k * pageSize) stop ∧
      curr + k * pageSize ≤ stop := by
  obtain ⟨⟨rest, hl⟩, -⟩ := nextInterval_eq_some hn
  have hen : entry ∈ lists d := hl ▸ mem_cons_self
  obtain ⟨-, hdv⟩ := (hp.tree d).aligned entry hen
  have hahead := hp.ahead d entry hen
  have he := add_pages_between hc (dvd_min_of_dvd hdv hs)
  obtain ⟨k, hk⟩ : ∃ k, k = (min entry.stop stop - curr) / pageSize := ⟨_, rfl⟩
  rw [← hk] at he
  -- all pages of the piece are on the device of the entry
  have hd : ∀ p ∈ vpages curr k, s.resident p = some d :=
    forall_mem_vpages hc fun x hx hx' =>
      hp.resident d x hx (by omega) ⟨entry, hen, by omega, by omega⟩
  have hm : Moves s (vpages curr k)
      (migrateDevPiece v d dev curr (min entry.stop stop) attempts s).1 := by
    rw [migrateDevPiece]
    by_cases hne : d ≠ dev
    · rw [if_pos hne, if_neg (by omega), ← hk]
      exact svmMigrateDevToDev_moves h hc hcl hd
    · rw [if_neg hne]
      exact .refl h _
  exact ⟨k, _, _, hk.symm, by omega, rfl, hm.exact, hp.device hn hc hm he, by omega⟩

end

theorem migrateLoop_exact (hd : pageSize ∣ vaddr) (hc : ∀ i, ∀ a ∈ calls i, a.Clean) {i : ℕ}
    (h : Exact s) (hi : i ≤ npages)
    (hpe : Pending s lists (vaddr + i * pageSize) (vaddr + npages * pageSize)) :
    Exact (migrateLoop v dev vaddr npages calls i lists s).2.1 := by
  have hmu := dvd_add_pages hd
  -- by the number of entries that are left
  obtain ⟨m, hm⟩ : ∃ m, m = ∑ d, (lists d).length := ⟨_, rfl⟩
  induction m using Nat.strong_induction_on generalizing i lists s with
  | _ m ih =>
    rw [migrateLoop]
    by_cases hlt : i < npages
    · rw [if_pos hlt]
      split
      next hn =>
        refine (svmMigrateRamToDev_moves h (hmu i) (hc i)
          (forall_mem_vpages (hmu i) fun x hx hx' => ?_)).exact
        rw [add_pages_add, Nat.add_sub_cancel' hi] at hx'
        refine hpe.resident_eq_none hx hx' fun d e rest hl => ?_
        rw [nextInterval_eq_none hn d] at hl
        exact absurd hl (cons_ne_nil e rest).symm
      next d entry hn =>
        have hle : vaddr + i * pageSize ≤ vaddr + npages * pageSize :=
          Nat.add_le_add_left (Nat.mul_le_mul_right _ hi) _
        obtain ⟨k, t, ok, hpi, ht, hp, hle₁, hb⟩ :=
          migrateRamPiece_spec v dev h hpe (hmu i) (hmu npages) hle hn (hc i)
        rw [add_pages_add] at hp hle₁ hb
        simp only [hpi]
        cases ok with
        | false => exact ht
        | true =>
          obtain ⟨k', t', ok', hk', hz, hp', ht', hpen, hle₂⟩ := migrateDevPiece_spec v dev ht
            hp (hmu _) (hmu npages) hle₁ hn (hc (i + k)) hb
          rw [add_pages_add] at hpen hle₂
          simp only [if_true, hk', hz, hp', Nat.zero_div, Nat.sub_zero]
          cases ok' with
          | false => exact ht'
          | true =>
            refine ih _ ?_ ht' (le_of_add_pages_le hle₂) hpen rfl
            rw [hm]
            exact sum_length_tail_lt hn
    · rw [if_neg hlt]
      exact h

/-- The interval trees are right in what they have: each has intervals of whole pages, and these
pages are on its device. -/
structure TreesSound (s : State n) : Prop where
  tree : ∀ d, Tree (s.trees d)
  resident : ∀ d x, Covers (s.trees d) x → s.resident (x / pageSize) = some d

theorem Exact.treesSound (h : Exact s) : TreesSound s :=
  ⟨h.tree, fun d x => (h.covers d x).mp⟩

theorem TreesSound.found (h : TreesSound s) (es : Fin n → Option ℕ) (vaddr npages stop : ℕ) :
    Found s (fun d => (searchVmemIntervals (es d) (s.trees d) vaddr npages).1) vaddr stop := by
  have hf : ∀ d, (searchVmemIntervals (es d) (s.trees d) vaddr npages).1.Sublist
      ((s.trees d).filter (overlaps vaddr (lastAddress vaddr npages))) := by
    intro d
    rw [← searchLoop_eq (h.tree d).canonical]
    cases es d with
    | none => exact .refl _
    | some k => exact take_sublist k _
  have hs := fun d => (hf d).trans filter_sublist
  refine ⟨fun d => (h.tree d).sublist (hs d), fun d x _ _ hx => h.resident d x ?_,
    fun d e he => ?_⟩
  · obtain ⟨e, he, hc⟩ := hx
    exact ⟨e, (hs d).subset he, hc⟩
  · have hb := (h.tree d).canonical.base_lt_stop ((hs d).subset he)
    have ho := overlaps_iff.mp (mem_filter.mp ((hf d).subset he)).2
    omega

theorem pending_search (h : Exact s) (hi : npages < 2 ^ 31) :
    Pending s (fun d => intervalsIn (s.trees d) vaddr npages) vaddr
      (vaddr + npages * pageSize) := by
  refine ⟨h.treesSound.found (fun _ => none) vaddr npages _, fun d x hx hx' hr => ?_⟩
  have hc := (h.covers d x).mpr hr
  have hle : vaddr + npages * pageSize ≤ 2 ^ 64 := by
    have := h.bounded d x hc
    simp only [userSpace, pageSize] at *
    omega
  exact (covers_intervalsIn (h.tree d) hle ⟨hx, hx'⟩).mpr hc

theorem svmMigrateToDevice_exact (v : Kernel) (dev : Fin n) (h : Exact s)
    (hd : pageSize ∣ vaddr) (hi : npages < 2 ^ 31) {env : ToDevice n} (he : env.Clean) :
    Exact (svmMigrateToDevice v dev vaddr npages env s).1 := by
  rw [svmMigrateToDevice]
  split
  · refine migrateLoop_exact hd he.calls h (Nat.zero_le _) ?_
    simp only [he.entries, zero_mul, add_zero]
    exact pending_search h hi
  · exact h

/-! ### The entry points -/

theorem blockLoop_exact {env : ℕ → ToDevice n} (he : ∀ k, (env k).Clean) {k : ℕ}
    (hs : pageSize ∣ start) (h : Exact s) :
    Exact (blockLoop (fun k vaddr npages => svmMigrateToDevice v dev vaddr npages (env k)) start
      npages k s).1 := by
  have hb : ∀ m, min m umpmMaxPages < 2 ^ 31 := fun m =>
    lt_of_le_of_lt (min_le_right _ _) (by decide)
  fun_induction blockLoop _ start npages k s
  case case1 => exact h
  case case2 ih =>
    exact ih (Nat.dvd_add hs (dvd_mul_left _ _))
      (svmMigrateToDevice_exact v dev h hs (hb _) (he _))
  case case3 => exact svmMigrateToDevice_exact v dev h hs (hb _) (he _)

theorem vaStart_dvd (vaddr : ℕ) : pageSize ∣ vaStart vaddr :=
  dvd_mul_left _ _

theorem blockLoop_moves (hc : ∀ x, ∀ a ∈ calls x, a.Clean) {nm k : ℕ} (hs : pageSize ∣ start)
    (h : Exact s) (hd : ∀ p ∈ vpages start nm, s.resident p = some dev) :
    Moves s (vpages start nm)
      (blockLoop (fun _ vaddr npages => svmMigrateDevToRam v dev vaddr npages (calls vaddr)) start
        nm k s).1 := by
  fun_induction blockLoop _ start nm k s
  case case1 => exact .refl h _
  case case2 start nm k s _ m r _ ih =>
    have hm : m ≤ nm := min_le_left _ _
    -- the first block and the others
    have hr : ∀ p ∈ vpages (start + m * pageSize) (nm - m),
        p ∈ vpages start nm ∧ p ∉ vpages start m := by
      intro p hp
      rw [mem_vpages_iff, Nat.add_mul_div_right _ _ (by decide)] at hp
      rw [mem_vpages_iff, mem_vpages_iff]
      omega
    have hmo : Moves s (vpages start m) r.1 :=
      svmMigrateDevToRam_moves h hs (hc start) fun p hp => hd p (vpages_subset hm hp)
    have hm' := ih (Nat.dvd_add hs (dvd_mul_left _ m)) hmo.exact fun p hp => by
      rw [hmo.frame p (hr p hp).2]
      exact hd p (hr p hp).1
    exact (hmo.mono (vpages_subset hm)).trans (hm'.mono fun p hp => (hr p hp).1)
  case case3 start nm k s _ m r _ =>
    have hm : m ≤ nm := min_le_left _ _
    exact (svmMigrateDevToRam_moves h hs (hc start) fun p hp =>
      hd p (vpages_subset hm hp)).mono (vpages_subset hm)

theorem toRamIntervals_exact (hca : ∀ x, ∀ a ∈ calls x, a.Clean) (hs : pageSize ∣ start)
    (hst : pageSize ∣ stop) (hr : start ≤ stop) (hi : stop - start < 2 ^ 31 * pageSize)
    {es : List Segment} (he : Tree es) (ho : ∀ e ∈ es, e.base < stop ∧ start < e.stop) (h : Exact s)
    (hd : ∀ x, start ≤ x → x < stop → Covers es x → s.resident (x / pageSize) = some dev) :
    Exact (toRamIntervals v dev calls start stop es s) := by
  induction es generalizing s with
  | nil => exact h
  | cons e es ih =>
    obtain ⟨hdv, hd'⟩ := he.aligned e mem_cons_self
    obtain ⟨hlt, hlt'⟩ := ho e mem_cons_self
    have heb := he.canonical.base_lt_stop mem_cons_self
    have hm : pageSize ∣ max start e.base := by
      rcases max_choice start e.base with heq | heq <;> rw [heq] <;> assumption
    have hmi := dvd_min_of_dvd hd' hst
    have hen : max start e.base ≤ min e.stop stop := by omega
    -- the part of the interval in the range has whole pages
    obtain ⟨k, hk⟩ : ∃ k, k = (min e.stop stop - max start e.base) / pageSize := ⟨_, rfl⟩
    have hend : max start e.base + k * pageSize = min e.stop stop := by
      rw [hk, add_pages_between hm hmi, max_eq_right hen]
    have hco : (pagesBetween (max start e.base) (min e.stop stop)).toNat = k := by
      rw [pagesBetween_eq hen (by omega), Int.toNat_natCast, hk]
    have hmo : Moves s (vpages (max start e.base) k) _ :=
      blockLoop_moves (v := v) (k := 0) hca hm h (forall_mem_vpages hm fun x hx hx' =>
        hd x (by omega) (by omega) (Covers.of_mem mem_cons_self ⟨by omega, by omega⟩))
    rw [toRamIntervals, foldl_cons, hco]
    refine ih (he.sublist (sublist_cons_self _ _))
      (fun t ht => ho t (mem_cons_of_mem _ ht)) hmo.exact fun x hx hx' hc => ?_
    have hlt := he.canonical.stop_lt_of_covers hc
    have hn : x / pageSize ∉ vpages (max start e.base) k := fun hin => by
      have := (mem_vpages hm).mp hin
      omega
    rw [hmo.frame _ hn]
    exact hd x hx hx' ((covers_cons _ _ _).mpr (.inr hc))

/-- The kernel and the memory do not get in the way of a migration to RAM. -/
structure ToRam.Clean (env : ToRam n) : Prop where
  entries : ∀ d, env.entries d = none
  calls : ∀ d x, ∀ a ∈ env.calls d x, a.Clean

theorem toRamDevices_exact {env : ToRam n} (henv : env.Clean) (hs : pageSize ∣ start)
    (hst : pageSize ∣ stop) (hr : start ≤ stop) (hp : 0 < stop) (hle : stop ≤ 2 ^ 64)
    (hi : stop - start < 2 ^ 31 * pageSize) (devs : List (Fin n)) (h : Exact s) :
    Exact (toRamDevices v env start stop (pagesBetween start stop) devs [] s) := by
  obtain ⟨k, hk⟩ : ∃ k, k = (stop - start) / pageSize := ⟨_, rfl⟩
  have hen : start + k * pageSize = stop := by
    rw [hk, add_pages_between hs hst, max_eq_right hr]
  rw [pagesBetween_eq hr hi, ← hk]
  induction devs generalizing s with
  | nil => exact h
  | cons d devs ih =>
    have hp' : 0 < start + k * pageSize := hen ▸ hp
    obtain ⟨ht, hm⟩ := intervalsIn_spec (h.tree d) hp' (hen ▸ hle)
    rw [toRamDevices, henv.entries d]
    simp only [searchVmemIntervals, if_true, nil_append]
    refine ih (toRamIntervals_exact (henv.calls d) hs hst hr hi ht
      (fun e he => ?_) h fun x _ _ hc => ?_)
    · obtain ⟨-, hb, hlt⟩ := (hm e).mp he
      rw [hen] at hb
      exact ⟨hb, hlt⟩
    · obtain ⟨e, he, hx⟩ := hc
      exact (h.covers d x).mp ⟨e, ((hm e).mp he).1, hx⟩

/-- The user's range is not empty at address zero, does not exceed the address space, and its number
of pages fits into an `int`. -/
def UserRange (vaddr size : ℕ) : Prop :=
  0 < vaddr + size ∧ vaddr + size + pageSize ≤ 2 ^ 64 ∧
    vaEnd vaddr size - vaStart vaddr < 2 ^ 31 * pageSize

instance (vaddr size : ℕ) : Decidable (UserRange vaddr size) :=
  inferInstanceAs (Decidable (_ ∧ _))

theorem vaEnd_spec {size : ℕ} (h : UserRange vaddr size) :
    pageSize ∣ vaEnd vaddr size ∧ vaStart vaddr ≤ vaEnd vaddr size ∧ 0 < vaEnd vaddr size ∧
      vaEnd vaddr size ≤ 2 ^ 64 := by
  obtain ⟨hp, hle, -⟩ := h
  have hm : (vaddr + size) % 2 ^ 64 = vaddr + size := Nat.mod_eq_of_lt (by
    simp only [pageSize] at hle
    omega)
  by_cases ha : (vaddr + size) % pageSize ≠ 0
  · have heq : vaEnd vaddr size = ((vaddr + size) / pageSize * pageSize + pageSize) % 2 ^ 64 := by
      simp only [vaEnd, hm]
      exact if_pos ha
    rw [heq, vaStart]
    simp only [pageSize] at *
    omega
  · have heq : vaEnd vaddr size = (vaddr + size) / pageSize * pageSize := by
      simp only [vaEnd, hm]
      exact if_neg ha
    rw [heq, vaStart]
    simp only [pageSize] at *
    omega

theorem userManagedMigrationToRam_exact {size : ℕ} (hf : UserRange vaddr size) {env : ToRam n}
    (he : env.Clean) (h : Exact s) : Exact (userManagedMigrationToRam v dev vaddr size env s) := by
  obtain ⟨hs, hr, hp, hle⟩ := vaEnd_spec hf
  rw [userManagedMigrationToRam]
  split
  · exact h
  · exact toRamDevices_exact he (vaStart_dvd vaddr) hs hr hp hle hf.2.2 _ h

/-! ### Page faults of a device -/

theorem pageSize_dvd_and_vaddrMask {x : ℕ} (h : pageSize ∣ x) : pageSize ∣ x &&& vaddrMask := by
  rw [and_vaddrMask]
  exact (Nat.dvd_mod_iff (by decide)).mpr h

theorem pageSize_dvd_of_mem_missingVaddrs {tree : List Segment} {queue : List ℕ} {x : ℕ}
    (h : x ∈ missingVaddrs tree (queue.map faultedVaddr)) : pageSize ∣ x := by
  rw [missingVaddrs, packArray_eq] at h
  obtain ⟨y, hy, rfl⟩ := mem_map.mp (mem_of_mem_filter h)
  split
  · exact dvd_zero _
  · obtain ⟨rval, hr, rfl⟩ := mem_map.mp (((faultedVaddrs_spec _).2 y).mp hy)
    obtain ⟨page, -, rfl⟩ := mem_map.mp ((takeWhile_sublist _).subset (mem_of_mem_take hr))
    refine pageSize_dvd_and_vaddrMask (Nat.dvd_add (by decide) ?_)
    exact (Nat.dvd_mod_iff (by decide)).mpr (dvd_mul_left _ _)

theorem length_missingVaddrs_le (tree : List Segment) (rvals : List ℕ) :
    (missingVaddrs tree rvals).length ≤ maxNumFaults := by
  obtain ⟨hsorted, hmem⟩ := faultedVaddrs_spec rvals
  calc (missingVaddrs tree rvals).length
      ≤ (faultedVaddrs rvals).length := by
        rw [missingVaddrs, packArray_eq]
        exact (length_filter_le _ _).trans (length_map _).le
    _ ≤ (readVaddrs rvals).length :=
        (hsorted.nodup.subperm fun x hx => (hmem x).mp hx).length_le
    _ ≤ maxNumFaults := by
        rw [readVaddrs, length_map]
        exact length_take_le _ _

theorem migrateFaults_exact {env : ℕ → ToDevice n} (he : ∀ k, (env k).Clean)
    {vaddrs : List ℕ} (hd : ∀ x ∈ vaddrs, pageSize ∣ x) (hl : vaddrs.length < 2 ^ 31)
    {k : ℕ} (h : Exact s) : Exact (migrateFaults v dev env vaddrs k s) := by
  have hone := fun k s vaddr vaddrs (hd : ∀ x ∈ vaddr :: vaddrs, pageSize ∣ x)
      (hl : (vaddr :: vaddrs).length < 2 ^ 31) (h : Exact s) =>
    svmMigrateToDevice_exact v dev h (pageSize_dvd_and_vaddrMask (hd vaddr mem_cons_self))
      (lt_of_le_of_lt (Nat.succ_le_succ (contiguousFrom_le vaddr vaddrs)) hl) (he k)
  fun_induction migrateFaults v dev env vaddrs k s
  case case1 => exact h
  case case2 k s vaddr vaddrs ncontiguous r _ ih =>
    -- what is left of the array is a part of it
    have hs : (packArray (replicate ncontiguous 0 ++ (vaddr :: vaddrs).drop ncontiguous) 0).Sublist
        (vaddr :: vaddrs) := by
      rw [packArray_eq, filter_append, filter_replicate_of_neg (by simp), nil_append]
      exact filter_sublist.trans (drop_sublist _ _)
    exact ih (fun x hx => hd x (hs.subset hx)) (lt_of_le_of_lt hs.length_le hl)
      (hone k s vaddr vaddrs hd hl h)
  case case3 k s vaddr vaddrs _ _ _ _ =>
    exact (hone k s vaddr vaddrs hd hl h).congr rfl fun _ => rfl

theorem handleIommuPageFault_exact {env : ℕ → ToDevice n} (he : ∀ k, (env k).Clean)
    {queue : List ℕ} (h : Exact s) :
    Exact (handleIommuPageFault v dev (queue.map faultedVaddr) env s).2 :=
  migrateFaults_exact he (fun _ hx => pageSize_dvd_of_mem_missingVaddrs hx)
    (lt_of_le_of_lt (length_missingVaddrs_le _ _) (by decide)) h

/-! ### Single pages -/

theorem vpages_mul (page npages : ℕ) :
    vpages (page * pageSize) npages = List.range' page npages := by
  rw [vpages, Nat.mul_div_cancel _ (by decide)]

@[simp] theorem trees_unmapPage (work : Bool) (page : ℕ) :
    (unmapPage v work page s).trees = s.trees := by
  rw [unmapPage]
  split <;> rfl

theorem resident_unmapPage (work : Bool) (page p : ℕ) :
    (unmapPage v work page s).resident p = if p = page then none else s.resident p := by
  rw [unmapPage]
  split
  next ht =>
    by_cases hp : p = page
    · rw [if_pos hp, hp, State.resident, ht]
      rfl
    · rw [if_neg hp]
  next d q ht =>
    rw [resident_setDevice, resident_mapTo]
    simp only [mem_singleton, Option.map_none]

/-- **A page fault of the CPU** keeps the trees exact if a page that was to be migrated is. -/
theorem svmMigrateToRam_exact (h : Exact s) {page : ℕ} {a : Attempt n}
    (hm : ∀ d, a.mems d = .ample) (hpa : ∀ left, a.ending ≠ .partly left) :
    Exact (svmMigrateToRam v page a s) := by
  rw [svmMigrateToRam]
  split
  · exact h
  next d q ht =>
    have hr : s.resident page = some d := by
      rw [State.resident, ht]
      rfl
    have hpag : ∀ p ∈ vpages (page * pageSize) 1, s.resident p = some d := by
      intro p hp
      rw [vpages_mul, range'_one, mem_singleton] at hp
      rw [hp, hr]
    by_cases hu : a.ending.unset ∨ ¬ Accepted (page * pageSize) 1
    · rw [if_pos hu]
      exact h
    have ha : Accepted (page * pageSize) 1 := by tauto
    have hd : pageSize ∣ page * pageSize := dvd_mul_left _ _
    simp only [if_neg hu]
    rw [notifyOthers_eq h hd ha hm fun d' hd' p hp => by simp [hpag p hp, Ne.symm hd']]
    cases he : a.ending with
    | migrated =>
      refine (h.remove hd ha hpag).congr ?_ fun p => ?_
      · simp only [trees_setTree, trees_unmapPage, hm]
        rfl
      · rw [resident_setTree, resident_unmapPage, resident_setTree, resident_mapTo, vpages_mul]
        simp only [range'_one, mem_singleton, Option.map_none]
    | partly left => exact absurd he (hpa left)
    | _ => exact h

@[simp] theorem trees_unmapPages (works : ℕ → Bool) (stay pages : List ℕ) :
    (unmapPages v works stay pages s).trees = s.trees := by
  induction pages generalizing works s with
  | nil => rfl
  | cons page pages ih =>
    rw [unmapPages, ih]
    split
    · rfl
    · rw [trees_unmapPage]

theorem resident_unmapPages (works : ℕ → Bool) (stay pages : List ℕ) (p : ℕ) :
    (unmapPages v works stay pages s).resident p =
      if p ∈ pages ∧ p ∉ stay then none else s.resident p := by
  induction pages generalizing works s with
  | nil => simp [unmapPages]
  | cons page pages ih =>
    rw [unmapPages, ih]
    by_cases hs : page ∈ stay
    · rw [if_pos hs]
      by_cases hp : p = page
      · simp [hp, hs]
      · simp [hp]
    · rw [if_neg hs, resident_unmapPage]
      by_cases hp : p = page
      · simp [hp, hs]
      · simp [hp]

/-- **Another change of the page table** keeps the trees exact if no page of its range stays on a
device. -/
theorem invalidateRange_exact (h : Exact s) {mems : Fin n → Mem} (hm : ∀ d, mems d = .ample)
    {first : ℕ} (hi : npages < 2 ^ 31) {stay : List ℕ}
    (hst : ∀ p ∈ stay, first ≤ p → p < first + npages → s.resident p = none)
    (works : ℕ → Bool) : Exact (invalidateRange v mems works stay first npages s) := by
  rw [invalidateRange]
  split
  next ha =>
    obtain ⟨hp, hle⟩ := ha
    have hd : pageSize ∣ first * pageSize := dvd_mul_left _ _
    have hsp := fun d => svmTlbInvalidateRangeStart_spec (h.tree d) hd hp hi
      (le_trans hle (by decide))
    refine ⟨fun d => ?_, fun d x => ?_, fun d x => ?_⟩ <;>
      simp only [trees_unmapPages, hm]
    · exact (hsp d).1
    · rw [(hsp d).2, ← mem_vpages hd, vpages_mul, h.covers, resident_unmapPages]
      by_cases hx : x / pageSize ∈ List.range' first npages
      · have hin := mem_range'_1.mp hx
        by_cases hs : x / pageSize ∈ stay
        · have := hst _ hs hin.1 hin.2
          simp only [hx, hs, not_true_eq_false, and_false, if_false]
          change False ↔ s.resident (x / pageSize) = some d
          simp [this]
        · simp [hx, hs]
      · simp only [hx, not_false_eq_true, and_true, false_and, if_false]
        rfl
    · exact fun hx => h.bounded d x (((hsp d).2 x).mp hx).1
  · exact h

/-! ### Runs -/

/-- Nothing gets in the way of the interval trees: all allocations for them succeed, no page without
a source is left on a device, a page fault of the CPU moves its page, the page counts of user ranges
and notified ranges fit into an `int`, and pages in a notified range do not stay on a device. -/
def Undisturbed (s : State n) : Event n → Prop
  | .migrateToDevice _ _ _ env => env.Clean
  | .userToDevice _ _ _ env => ∀ k, (env k).Clean
  | .userToRam _ vaddr size env => UserRange vaddr size ∧ env.Clean
  | .deviceFault _ _ env => ∀ k, (env k).Clean
  | .cpuFault _ a => (∀ d, a.mems d = .ample) ∧ ∀ left, a.ending ≠ .partly left
  | .invalidate first npages mems _ stay =>
    npages < 2 ^ 31 ∧ (∀ d, mems d = .ample) ∧
      ∀ p ∈ stay, first ≤ p → p < first + npages → s.resident p = none
  | .work _ _ => True

theorem Exact.step (h : Exact s) {e : Event n} (he : Undisturbed s e) : Exact (step v s e) := by
  cases e with
  | migrateToDevice dev page npages env =>
    exact svmMigrateToDevice_exact v dev h (dvd_mul_left _ _) npages.isLt he
  | userToDevice dev vaddr size env =>
    rw [Svm.step, userManagedMigrationToDevice]
    split
    · exact h
    · exact blockLoop_exact he (vaStart_dvd vaddr) h
  | userToRam dev vaddr size env => exact userManagedMigrationToRam_exact he.1 he.2 h
  | deviceFault dev queue env => exact handleIommuPageFault_exact he h
  | cpuFault page a => exact svmMigrateToRam_exact h he.1 he.2
  | invalidate first npages mems works stay =>
    exact invalidateRange_exact h he.2.1 he.1 he.2.2 works
  | work dev k => exact h.congr rfl fun _ => rfl

/-- **Residency**: in every run of migrations whose events are undisturbed, the interval tree of a
device covers exactly the addresses of the virtual pages that are on it, the trees of different
devices are disjoint, and no tree has two touching intervals. -/
theorem resident_iff_covers_of_mem_trace (v : Kernel) (es : List (Event n))
    (hes : Runs.AllSteps (step v) Undisturbed (.new n v) es) :
    ∀ s ∈ Runs.trace (step v) (.new n v) es,
      (∀ d x, Covers (s.trees d) x ↔ s.resident (x / pageSize) = some d) ∧
      (∀ d d' x, d ≠ d' → Covers (s.trees d) x → ¬ Covers (s.trees d') x) ∧
      ∀ d, Canonical (s.trees d) := by
  intro s hs
  have h : Exact s := Runs.forall_mem_trace_of (fun _ _ h he => h.step he) (exact_new n v) hes s hs
  refine ⟨h.covers, fun d d' x hne hx hx' => hne ?_, fun d => (h.tree d).canonical⟩
  rw [h.covers] at hx hx'
  exact Option.mem_unique hx hx'

theorem clean_migrated : ({ ending := .migrated } : Attempt n).Clean :=
  ⟨fun _ => rfl, fun _ h => nomatch h⟩

/-- Pages one and two go to the first device and page two on to the second one, the CPU accesses
page one, and page two is brought back. -/
theorem resident_iff_covers_of_mem_trace_two_devices :
    ∃ s ∈ Runs.trace (step .from61) (.new 2 .from61)
      [.migrateToDevice 0 1 2 { calls := fun _ => [{ ending := .migrated }] },
        .userToDevice 1 (2 * pageSize) pageSize
          fun _ => { calls := fun _ => [{ ending := .migrated }] },
        .cpuFault 1 { ending := .migrated },
        .userToRam 0 pageSize (2 * pageSize) { calls := fun _ _ => [{ ending := .migrated }] }],
      (∀ d x, Covers (s.trees d) x ↔ s.resident (x / pageSize) = some d) ∧
      (∀ d d' x, d ≠ d' → Covers (s.trees d) x → ¬ Covers (s.trees d') x) ∧
      ∀ d, Canonical (s.trees d) := by
  have hclean : ∀ a ∈ [({ ending := .migrated } : Attempt 2)], a.Clean :=
    forall_mem_singleton.mpr clean_migrated
  refine ⟨_, Runs.run_mem_trace _ _, ?_⟩
  refine resident_iff_covers_of_mem_trace .from61 _ ?_ _ (Runs.run_mem_trace _ _)
  exact ⟨⟨fun _ => rfl, fun _ => hclean⟩, fun _ => ⟨fun _ => rfl, fun _ => hclean⟩,
    ⟨fun _ => rfl, fun _ h => nomatch h⟩,
    ⟨by decide, fun _ => rfl, fun _ _ => hclean⟩, trivial⟩

/-- A page is migrated to a device, and then the kernel changes its protection: it stays there, but
the notifier has taken it out of the tree. Without memory for a node it never is in the tree. -/
theorem resident_not_covered :
    (∃ s ∈ Runs.trace (step .from61) (.new 1 .from61)
      [.migrateToDevice 0 1 1 { calls := fun _ => [{ ending := .migrated }] },
        .invalidate 1 1 (fun _ => .ample) (fun _ => true) [1]],
      s.resident 1 = some 0 ∧ ¬ Covers (s.trees 0) pageSize) ∧
    ∃ s ∈ Runs.trace (step .from61) (.new 1 .from61)
      [.migrateToDevice 0 1 1
        { calls := fun _ => [{ ending := .migrated, mems := fun _ => ⟨false, true, none⟩ }] }],
      s.resident 1 = some 0 ∧ ¬ Covers (s.trees 0) pageSize := by
  constructor
  · refine ⟨_, Runs.run_mem_trace _ _, by decide +kernel, ?_⟩
    have hnil : (Runs.run (step .from61) (.new 1 .from61)
      [.migrateToDevice 0 1 1 { calls := fun _ => [{ ending := .migrated }] },
        .invalidate 1 1 (fun _ => .ample) (fun _ => true) [1]]).trees 0 = [] := by
      decide +kernel
    rw [hnil]
    exact covers_nil _
  · refine ⟨_, Runs.run_mem_trace _ _, by decide +kernel, ?_⟩
    have hnil : (Runs.run (step .from61) (.new 1 .from61) [.migrateToDevice 0 1 1
        { calls := fun _ =>
            [{ ending := .migrated, mems := fun _ => ⟨false, true, none⟩ }] }]).trees 0 = [] := by
      decide +kernel
    rw [hnil]
    exact covers_nil _

end

end Tapasco.Svm
