import Tapasco.SvmMigration

/-!
# Who Owns the Pages of a Device

Migrations fail in many ways: there is no device memory, a page cannot be mapped for DMA, the
transfer fails, or only a part of the pages is migrated. The failure exits drop the pages that were
taken for the migration. This module follows the pages of the devices through all of these exits: a
page is in the free list, in a queued work, or with the virtual page that the page table has for it.

Two things break this. In `svm_migrate_ram_to_dev` a page that cannot be mapped is dropped where the
failure is noticed, and once more by the failure exit. And a page whose work cannot be allocated is
never freed.
-/

open FreeList List

open Function

namespace Tapasco.Svm

section

variable {n : ℕ} {v : Kernel} {s s' : State n} {dev : Fin n} {vaddr npages base : ℕ}

/-! ### Holders -/

open Classical in
/-- How many virtual pages hold a page of a device. -/
noncomputable def held (s : State n) (d : Fin n) (page : ℕ) : ℕ :=
  if ∃ p, s.table p = some (d, page) then 1 else 0

/-- A page of a device is held by one virtual page at most, and its references, the free list and
the queued works agree with that. -/
structure Owned (v : Kernel) (s : State n) : Prop where
  injective : ∀ p q place, s.table p = some place → s.table q = some place → p = q
  balanced : ∀ d, Balanced v (s.devices d) (held s d)

theorem held_congr (h : s'.table = s.table) (d : Fin n) : held s' d = held s d := by
  funext page
  rw [held, held, h]

@[simp] theorem held_setDevice (d : DevicePages) : held (s.setDevice dev d) = held s := rfl

variable {d : Fin n} {page start : ℕ} {ps : List ℕ} {attempts : List (Attempt n)}
  {calls : ℕ → List (Attempt n)}

theorem held_eq_one : held s d page = 1 ↔ ∃ p, s.table p = some (d, page) := by
  rw [held]
  split <;> simp_all

theorem held_eq_zero : held s d page = 0 ↔ ∀ p, s.table p ≠ some (d, page) := by
  rw [held]
  split <;> simp_all

theorem held_eq_of_iff (h : ∀ p, s'.table p = some (d, page) ↔ s.table p = some (d, page)) :
    held s' d page = held s d page := by
  by_cases hex : ∃ p, s.table p = some (d, page)
  · rw [held_eq_one.mpr hex, held_eq_one.mpr ((exists_congr h).mpr hex)]
  · rw [not_exists] at hex
    rw [held_eq_zero.mpr hex, held_eq_zero.mpr fun p hp => hex p ((h p).mp hp)]

theorem owned_new (n : ℕ) (v : Kernel) : Owned v (.new n v) := by
  refine ⟨fun p q place (hp : none = some place) => (nomatch hp), fun d => ?_⟩
  have hh : held (State.new n v) d = fun _ => 0 := by
    funext page
    exact held_eq_zero.mpr fun p (hp : none = _) => nomatch hp
  rw [hh]
  exact balanced_new v

theorem Owned.congr (h : Owned v s) (ht : s'.table = s.table)
    (hd : s'.devices = s.devices) : Owned v s' := by
  refine ⟨?_, fun d => ?_⟩
  · rw [ht]
    exact h.injective
  · rw [hd, held_congr ht]
    exact h.balanced d

theorem balanced_setDevice {d : DevicePages} (hd : Balanced v d (held s dev))
    (ho : ∀ d', d' ≠ dev → Balanced v (s.devices d') (held s d')) (d' : Fin n) :
    Balanced v ((s.setDevice dev d).devices d') (held (s.setDevice dev d) d') := by
  rw [held_setDevice, devices_setDevice]
  by_cases hd' : d' = dev
  · subst hd'
    rwa [update_self]
  · rw [update_of_ne hd']
    exact ho d' hd'

theorem Owned.setDevice (h : Owned v s) {d : DevicePages} (hd : Balanced v d (held s dev)) :
    Owned v (s.setDevice dev d) :=
  ⟨h.injective, balanced_setDevice hd fun d' _ => h.balanced d'⟩

theorem Owned.map (h : Owned v s) (hps : ∀ p ∈ ps, s.table p = none) {page : ℕ → ℕ}
    (hi : ∀ p ∈ ps, ∀ q ∈ ps, page p = page q → p = q) (hf : ∀ p ∈ ps, held s dev (page p) = 0)
    {d : DevicePages} (hd : Balanced v d fun q => if q ∈ ps.map page then 1 else held s dev q) :
    Owned v ((s.mapTo ps fun p => some (dev, page p)).setDevice dev d) := by
  have ho : ∀ p ∉ ps, (s.mapTo ps fun p => some (dev, page p)).table p = s.table p :=
    fun p hp => table_mapTo_of_not_mem s _ hp
  have hn : ∀ p ∈ ps, (s.mapTo ps fun p => some (dev, page p)).table p = some (dev, page p) :=
    fun p hp => table_mapTo_of_mem s _ hp
  constructor
  · intro p q place hp hq
    change (s.mapTo ps fun p => some (dev, page p)).table p = some place at hp
    change (s.mapTo ps fun p => some (dev, page p)).table q = some place at hq
    by_cases hpm : p ∈ ps <;> by_cases hqm : q ∈ ps
    · rw [hn p hpm] at hp
      rw [hn q hqm, ← hp] at hq
      exact hi p hpm q hqm (Prod.mk.inj (Option.some.inj hq)).2.symm
    · rw [hn p hpm] at hp
      rw [ho q hqm, ← hp] at hq
      exact absurd hq (held_eq_zero.mp (hf p hpm) q)
    · rw [ho p hpm] at hp
      rw [hn q hqm] at hq
      rw [← hq] at hp
      exact absurd hp (held_eq_zero.mp (hf q hqm) p)
    · rw [ho p hpm] at hp
      rw [ho q hqm] at hq
      exact h.injective p q place hp hq
  · have hot : ∀ d' q, (d' ≠ dev ∨ q ∉ ps.map page) →
        held (s.mapTo ps fun p => some (dev, page p)) d' q = held s d' q := by
      intro d' q hor
      refine held_eq_of_iff fun p => ?_
      by_cases hp : p ∈ ps
      · rw [hn p hp, hps p hp]
        refine iff_of_false (fun heq => ?_) (fun heq => nomatch heq)
        obtain ⟨rfl, rfl⟩ := Prod.mk.inj (Option.some.inj heq)
        exact hor.elim (fun hne => hne rfl) fun hno => hno (mem_map_of_mem hp)
      · rw [ho p hp]
    refine balanced_setDevice ?_ fun d' hd' => ?_
    · convert hd using 1
      funext q
      by_cases hq : q ∈ ps.map page
      · rw [if_pos hq, held_eq_one]
        obtain ⟨p, hp, rfl⟩ := mem_map.mp hq
        exact ⟨p, hn p hp⟩
      · rw [if_neg hq]
        exact hot dev q (.inr hq)
    · rw [funext fun q => hot d' q (.inl hd')]
      exact h.balanced d'

theorem mem_pagesOf (hps : ∀ p ∈ ps, s.resident p = some dev) {q : ℕ} :
    q ∈ s.pagesOf ps ↔ ∃ p ∈ ps, s.table p = some (dev, q) := by
  rw [State.pagesOf, mem_map]
  refine exists_congr fun p => and_congr_right fun hp => ?_
  obtain ⟨⟨d, page⟩, ht, rfl⟩ := Option.map_eq_some_iff.mp (hps p hp)
  simp [ht]

theorem Owned.nodup_pagesOf (h : Owned v s) (hn : ps.Nodup)
    (hps : ∀ p ∈ ps, s.resident p = some dev) : (s.pagesOf ps).Nodup := by
  refine hn.map_on fun p hp q hq heq => ?_
  obtain ⟨⟨d, page⟩, hp', rfl⟩ := Option.map_eq_some_iff.mp (hps p hp)
  obtain ⟨⟨d', page'⟩, hq', hd'⟩ := Option.map_eq_some_iff.mp (hps q hq)
  simp only at hd'
  subst hd'
  have hpa : page = page' := by simpa [hp', hq'] using heq
  exact h.injective p q _ hp' (hpa ▸ hq')

theorem held_of_mem_pagesOf (hps : ∀ p ∈ ps, s.resident p = some dev) {q : ℕ}
    (hq : q ∈ s.pagesOf ps) : held s dev q = 1 := by
  obtain ⟨p, -, hp⟩ := (mem_pagesOf hps).mp hq
  exact held_eq_one.mpr ⟨p, hp⟩

theorem table_mapTo_none {p : ℕ} {place : Fin n × ℕ}
    (h : (s.mapTo ps fun _ => none).table p = some place) : p ∉ ps ∧ s.table p = some place := by
  by_cases hp : p ∈ ps
  · rw [table_mapTo_of_mem s _ hp] at h
    exact nomatch h
  · rw [table_mapTo_of_not_mem s _ hp] at h
    exact ⟨hp, h⟩

theorem held_mapTo_none (hps : ∀ p ∈ ps, s.resident p = some dev) {q : ℕ}
    (ho : d ≠ dev ∨ q ∉ s.pagesOf ps) : held (s.mapTo ps fun _ => none) d q = held s d q := by
  refine held_eq_of_iff fun p => ⟨fun hp => (table_mapTo_none hp).2, fun hp => ?_⟩
  rw [table_mapTo_of_not_mem s _ fun hm => ?_]
  · exact hp
  · have hr := hps p hm
    rw [State.resident, hp, Option.map_some, Option.some.injEq] at hr
    subst hr
    rcases ho with hne | hn
    · exact hne rfl
    · exact hn ((mem_pagesOf hps).mpr ⟨p, hm, hp⟩)

theorem Owned.unmap (h : Owned v s) (hps : ∀ p ∈ ps, s.resident p = some dev) {d : DevicePages}
    (hd : Balanced v d fun q => if q ∈ s.pagesOf ps then 0 else held s dev q) :
    Owned v ((s.mapTo ps fun _ => none).setDevice dev d) := by
  refine ⟨fun p q place hp hq => h.injective p q place (table_mapTo_none hp).2
    (table_mapTo_none hq).2, balanced_setDevice ?_ fun d' hd' => ?_⟩
  · convert hd using 1
    funext q
    by_cases hq : q ∈ s.pagesOf ps
    · rw [if_pos hq, held_eq_zero]
      intro p hp
      obtain ⟨p', hp', ht⟩ := (mem_pagesOf hps).mp hq
      obtain ⟨hn, hp⟩ := table_mapTo_none hp
      exact hn (h.injective p p' _ hp ht ▸ hp')
    · rw [if_neg hq]
      exact held_mapTo_none hps (.inr hq)
  · have hh : held (s.mapTo ps fun _ => none) d' = held s d' :=
      funext fun q => held_mapTo_none hps (.inl hd')
    rw [hh]
    exact h.balanced d'

/-! ### Migrations of a range -/

/-- There is memory for the works that free pages. -/
structure Attempt.Freeing (a : Attempt n) : Prop where
  works : ∀ k, a.works k = true
  pagesWork : a.pagesWork = true

theorem Owned.take (h : Owned v s) (ht : takePages v dev npages s = some (base, s')) :
    ∃ d, s' = s.setDevice dev d ∧ (∀ q, base ≤ q → q < base + npages → held s dev q = 0) ∧
      Balanced v d fun q => if base ≤ q ∧ q < base + npages then 1 else held s dev q := by
  obtain ⟨addr, rest, ha, rfl, rfl⟩ := takePages_eq_some ht
  obtain ⟨base, rfl, hf, hb⟩ := (h.balanced dev).get ha
  exact ⟨_, rfl, hf, hb⟩

section

variable {d : DevicePages} {works : ℕ → Bool}

theorem page_injOn : ∀ p ∈ vpages vaddr npages, ∀ q ∈ vpages vaddr npages,
    base + (p - vaddr / pageSize) = base + (q - vaddr / pageSize) → p = q := by
  intro p hp q hq heq
  rw [mem_vpages_iff] at hp hq
  omega

variable (h : Owned v s) (hf : ∀ q, base ≤ q → q < base + npages → held s dev q = 0)
  (hd : Balanced v d fun q => if base ≤ q ∧ q < base + npages then 1 else held s dev q)
include h hf hd

theorem Owned.mapRange (hr : ∀ p ∈ vpages vaddr npages, s.table p = none) :
    Owned v ((s.mapTo (vpages vaddr npages) fun p =>
      some (dev, base + (p - vaddr / pageSize))).setDevice dev d) := by
  refine h.map hr page_injOn (fun p hp => ?_) ?_
  · rw [mem_vpages_iff] at hp
    exact hf _ (by omega) (by omega)
  · convert hd using 2 with q
    congr 1
    rw [mem_map, eq_iff_iff]
    constructor
    · rintro ⟨p, hp, rfl⟩
      rw [mem_vpages_iff] at hp
      omega
    · rintro ⟨hle, hlt⟩
      refine ⟨vaddr / pageSize + (q - base), mem_vpages_iff.mpr (by omega), by omega⟩

/-- Each page that was taken is dropped once, and a page that stays has one reference more. -/
theorem Owned.leaveHoles (hw : ∀ k, works k = true) {holes : List ℕ} (hno : holes.Nodup)
    (hs : ∀ p ∈ holes, p ∈ vpages vaddr npages ∧ s.table p = none) :
    Owned v (dropPages v dev works (List.range' base npages)
      (leaveHoles dev vaddr base holes (s.setDevice dev d))) := by
  have hinj : ∀ p ∈ holes, ∀ q ∈ holes,
      base + (p - vaddr / pageSize) = base + (q - vaddr / pageSize) → p = q :=
    fun p hp q hq => page_injOn p (hs p hp).1 q (hs q hq).1
  have hra : ∀ q ∈ holes.map fun p => base + (p - vaddr / pageSize),
      base ≤ q ∧ q < base + npages := by
    intro q hq
    obtain ⟨p, hp, rfl⟩ := mem_map.mp hq
    have hp' := mem_vpages_iff.mp (hs p hp).1
    omega
  refine (h.map (fun p hp => (hs p hp).2) hinj (fun p hp => ?_) ?_).congr rfl (by
    rw [dropPages, Svm.leaveHoles]
    simp only [devices_setDevice, devices_mapTo, update_self, update_idem]
    rfl)
  · have hp' := hra _ (mem_map_of_mem hp)
    exact hf _ hp'.1 hp'.2
  have hnp := hno.map_on hinj
  generalize (holes.map fun p => base + (p - vaddr / pageSize)) = pages at hra hnp ⊢
  have hpo : ∀ q ∈ pages, 0 < if base ≤ q ∧ q < base + npages then 1 else held s dev q := by
    intro q hq
    rw [if_pos (hra q hq)]
    exact one_pos
  have hle : ∀ q, (List.range' base npages).count q ≤
      (if base ≤ q ∧ q < base + npages then 1 else held s dev q) + pages.count q := by
    intro q
    rw [count_range']
    split
    · exact Nat.le_add_right 1 _
    · exact Nat.zero_le _
  convert (hd.getPages hpo).release hw hle using 2 with q
  rw [count_range']
  by_cases hq : base ≤ q ∧ q < base + npages
  · rw [if_pos hq, if_pos hq, Nat.add_sub_cancel_left, hf q hq.1 hq.2]
    by_cases hm : q ∈ pages
    · rw [if_pos hm, count_eq_one_of_mem hnp hm]
    · rw [if_neg hm, count_eq_zero.mpr hm]
  · have hm : q ∉ pages := fun hm => hq (hra q hm)
    rw [if_neg hq, if_neg hq, if_neg hm, count_eq_zero.mpr hm]
    rfl

theorem Owned.drop (hw : ∀ k, works k = true) :
    Owned v (dropPages v dev works (List.range' base npages) (s.setDevice dev d)) := by
  have hnone : ∀ p ∈ [], p ∈ vpages 0 npages ∧ s.table p = none := nofun
  refine (h.leaveHoles hf hd hw nodup_nil hnone).congr rfl ?_
  rw [dropPages, dropPages, Svm.leaveHoles]
  simp [getPages]

omit hf hd in
theorem Owned.leave {a : Attempt n} (ha : a.Freeing) {ps : List ℕ} (hn : ps.Nodup)
    (hp : ∀ p ∈ ps, s.resident p = some dev) :
    Owned v ((leavePages v dev a (s.pagesOf ps) s).mapTo ps fun _ => none) := by
  have hb := (h.balanced dev).moveAway (h.nodup_pagesOf hn hp)
    (fun q hq => held_of_mem_pagesOf hp hq) a.works
  rw [← ha.pagesWork] at hb
  exact (h.unmap hp hb).congr rfl rfl

end

/-- No page that is migrated from RAM fails to be mapped for DMA. -/
def Attempt.Mapped (a : Attempt n) : Prop :=
  ∀ i, a.ending ≠ .mapFails i

theorem notifyOthers_owned (h : Owned v s) (mems : Fin n → Mem) (owner : Fin n)
    (vaddr npages : ℕ) : Owned v (notifyOthers mems owner vaddr npages s) :=
  h.congr rfl rfl

theorem nodup_vpages (vaddr npages : ℕ) : (vpages vaddr npages).Nodup :=
  nodup_range'

theorem svmMigrateRamToDev_owned (h : Owned v s) (hf : ∀ a ∈ attempts, a.Freeing ∧ a.Mapped) :
    Owned v (svmMigrateRamToDev v dev vaddr npages attempts s).1 := by
  fun_induction svmMigrateRamToDev v dev vaddr npages attempts s
  case case1 | case2 => exact h
  case case3 ih => exact ih (h.congr rfl rfl) (forall_mem_cons.mp hf).2
  case case4 => exact h.congr rfl rfl
  case case5 i he => exact absurd he ((forall_mem_cons.mp hf).1.2 i)
  case case6 t hc _ _ ht _ _ _ ih =>
    obtain ⟨⟨ha, -⟩, hre⟩ := forall_mem_cons.mp hf
    have hs : Owned v t := h.congr rfl rfl
    obtain ⟨d, rfl, hfr, hd⟩ := hs.take ht
    refine ih (hs.leaveHoles hfr hd ha.works ((nodup_vpages _ _).filter _) fun p hp => ?_) hre
    have hp := mem_of_mem_filter hp
    exact ⟨hp, not_not.mp (not_or.mp hc).2 p hp⟩
  case case7 t hc _ _ ht _ =>
    have hs : Owned v t := h.congr rfl rfl
    obtain ⟨d, rfl, hfr, hd⟩ := hs.take ht
    exact (hs.mapRange hfr hd (not_not.mp (not_or.mp hc).2)).congr rfl rfl
  case case8 t _ _ _ ht _ _ _ _ =>
    have hs : Owned v t := h.congr rfl rfl
    obtain ⟨d, rfl, hfr, hd⟩ := hs.take ht
    exact (hs.drop hfr hd (forall_mem_cons.mp hf).1.1.works).congr rfl rfl

theorem svmMigrateDevToDev_owned (h : Owned v s) {src : Fin n} (hne : src ≠ dev)
    (hf : ∀ a ∈ attempts, a.Freeing) :
    Owned v (svmMigrateDevToDev v src dev vaddr npages attempts s).1 := by
  fun_induction svmMigrateDevToDev v src dev vaddr npages attempts s
  case case1 | case2 => exact h
  case case3 ih => exact ih (h.congr rfl rfl) (forall_mem_cons.mp hf).2
  case case4 => exact h.congr rfl rfl
  case case5 a _ _ _ s hc base t ht _ _ _ _ =>
    have hs : Owned v s := h.congr rfl rfl
    obtain ⟨d, rfl, hfr, hd⟩ := hs.take ht
    have hsr : ∀ p ∈ vpages vaddr npages, s.resident p = some src := not_not.mp (not_or.mp hc).2
    -- the source pages are left first; the pages of the other device are held as before
    have hl := hs.leave (forall_mem_cons.mp hf).1 (nodup_vpages vaddr npages) hsr
    have hh : held ((leavePages v src a (s.pagesOf (vpages vaddr npages)) s).mapTo
        (vpages vaddr npages) fun _ => none) dev = held s dev :=
      funext fun q => held_mapTo_none hsr (.inl (Ne.symm hne))
    rw [← hh] at hfr hd
    refine (hl.mapRange hfr hd fun p hp => table_mapTo_of_mem _ _ hp).congr ?_ ?_
    · exact (table_mapTo_mapTo s _ _ _).symm
    · change update (update s.devices dev d) src
        (putPages v a.works _ (queueDevPagesFreeWork a.pagesWork _
          (clearData _ (update s.devices dev d src)))) =
        update (update s.devices src _) dev d
      rw [update_of_ne hne, update_comm hne]
      rfl
  case case6 s _ _ _ ht _ =>
    have hs : Owned v s := h.congr rfl rfl
    obtain ⟨d, rfl, hfr, hd⟩ := hs.take ht
    exact (hs.drop hfr hd (forall_mem_cons.mp hf).1.works).congr rfl rfl

theorem svmMigrateDevToRam_owned (h : Owned v s) (hf : ∀ a ∈ attempts, a.Freeing) :
    Owned v (svmMigrateDevToRam v dev vaddr npages attempts s).1 := by
  fun_induction svmMigrateDevToRam v dev vaddr npages attempts s
  case case1 | case2 => exact h
  case case3 ih => exact ih (h.congr rfl rfl) (forall_mem_cons.mp hf).2
  case case4 t hc _ _ _ =>
    have hs : Owned v t := h.congr rfl rfl
    exact (hs.leave (forall_mem_cons.mp hf).1 (nodup_vpages vaddr npages)
      (not_not.mp (not_or.mp hc).2)).congr rfl rfl
  case case5 => exact h.congr rfl rfl

/-! ### The entry points -/

theorem migrateRamPiece_owned (h : Owned v s) {curr stop : ℕ} {entry : Segment}
    (hf : ∀ a ∈ attempts, a.Freeing ∧ a.Mapped) :
    Owned v (migrateRamPiece v dev curr stop entry attempts s).2.1 := by
  rw [migrateRamPiece]
  split
  · exact svmMigrateRamToDev_owned h hf
  · exact h

theorem migrateDevPiece_owned (h : Owned v s) {curr last : ℕ}
    (hf : ∀ a ∈ attempts, a.Freeing ∧ a.Mapped) :
    Owned v (migrateDevPiece v d dev curr last attempts s).1 := by
  rw [migrateDevPiece]
  split
  next hne =>
    split
    · exact h
    · exact svmMigrateDevToDev_owned h hne fun a ha => (hf a ha).1
  · exact h

/-- **The loop** of `svm_migrate_to_device` loses no page, whatever the lists have. -/
theorem migrateLoop_owned (hc : ∀ i, ∀ a ∈ calls i, a.Freeing ∧ a.Mapped) {i : ℕ}
    {ls : Fin n → List Segment} (h : Owned v s) :
    Owned v (migrateLoop v dev vaddr npages calls i ls s).2.1 := by
  -- by the number of entries that are left
  obtain ⟨m, hm⟩ : ∃ m, m = ∑ d, (ls d).length := ⟨_, rfl⟩
  induction m using Nat.strong_induction_on generalizing i ls s with
  | _ m ih =>
    rw [migrateLoop]
    by_cases hlt : i < npages
    · rw [if_pos hlt]
      split
      · exact svmMigrateRamToDev_owned h (hc i)
      next d entry hn =>
        simp only
        split
        · split
          · refine ih _ ?_ (migrateDevPiece_owned (migrateRamPiece_owned h (hc i)) (hc _)) rfl
            rw [hm]
            exact sum_length_tail_lt hn
          · exact migrateDevPiece_owned (migrateRamPiece_owned h (hc i)) (hc _)
        · exact migrateRamPiece_owned h (hc i)
    · rw [if_neg hlt]
      exact h

/-- No page of a migration to a device is lost to missing memory or to a failed DMA mapping. -/
def ToDevice.Freeing (env : ToDevice n) : Prop :=
  ∀ i, ∀ a ∈ env.calls i, a.Freeing ∧ a.Mapped

theorem svmMigrateToDevice_owned (h : Owned v s) {env : ToDevice n} (he : env.Freeing) :
    Owned v (svmMigrateToDevice v dev vaddr npages env s).1 := by
  rw [svmMigrateToDevice]
  split
  · exact migrateLoop_owned he h
  · exact h

theorem blockLoop_owned {migrate : ℕ → ℕ → ℕ → State n → State n × Bool}
    (hm : ∀ k x m s, Owned v s → Owned v (migrate k x m s).1) {k : ℕ} (h : Owned v s) :
    Owned v (blockLoop migrate start npages k s).1 := by
  fun_induction blockLoop migrate start npages k s
  case case1 => exact h
  case case2 ih => exact ih (hm _ _ _ _ h)
  case case3 => exact hm _ _ _ _ h

theorem toRamIntervals_owned (hc : ∀ x, ∀ a ∈ calls x, a.Freeing) {stop : ℕ} {es : List Segment}
    (h : Owned v s) : Owned v (toRamIntervals v dev calls start stop es s) := by
  induction es generalizing s with
  | nil => exact h
  | cons e es ih =>
    rw [toRamIntervals, foldl_cons]
    exact ih (blockLoop_owned (fun _ _ _ _ h => svmMigrateDevToRam_owned h (hc _)) h)

theorem toRamDevices_owned {env : ToRam n} (he : ∀ d x, ∀ a ∈ env.calls d x, a.Freeing) {stop : ℕ}
    {pages : ℤ} {devs : List (Fin n)} {pending : List Segment} (h : Owned v s) :
    Owned v (toRamDevices v env start stop pages devs pending s) := by
  fun_induction toRamDevices v env start stop pages devs pending s
  case case1 => exact h
  case case2 ih => exact ih (toRamIntervals_owned (he _) h)
  case case3 ih => exact ih h

theorem migrateFaults_owned {env : ℕ → ToDevice n} (he : ∀ k, (env k).Freeing)
    {vaddrs : List ℕ} {k : ℕ} (h : Owned v s) : Owned v (migrateFaults v dev env vaddrs k s) := by
  fun_induction migrateFaults v dev env vaddrs k s
  case case1 => exact h
  case case2 ih => exact ih (svmMigrateToDevice_owned h (he _))
  case case3 => exact (svmMigrateToDevice_owned h (he _)).congr rfl rfl

theorem unmapPage_owned (h : Owned v s) (page : ℕ) : Owned v (unmapPage v true page s) := by
  rw [unmapPage]
  split
  · exact h
  next d q ht =>
    have hr : ∀ p ∈ [page], s.resident p = some d := by
      intro p hp
      rw [mem_singleton.mp hp, State.resident, ht]
      rfl
    have hh : held s d q = 1 := held_eq_one.mpr ⟨page, ht⟩
    have hpu := (h.balanced d).put (hh ▸ one_pos)
    refine h.unmap hr ?_
    convert hpu using 1
    funext q'
    have hpa : s.pagesOf [page] = [q] := by simp [State.pagesOf, ht]
    rw [hpa, hh]
    by_cases hq : q' = q <;> simp [hq]

theorem unmapPages_owned {works : ℕ → Bool} (hw : ∀ k, works k = true) {stay pages : List ℕ}
    (h : Owned v s) : Owned v (unmapPages v works stay pages s) := by
  induction pages generalizing works s with
  | nil => exact h
  | cons page pages ih =>
    rw [unmapPages, hw 0]
    refine ih (fun k => hw (k + 1)) ?_
    split
    · exact h
    · exact unmapPage_owned h page

theorem svmMigrateToRam_owned (h : Owned v s) {a : Attempt n} (ha : a.works 0 = true) :
    Owned v (svmMigrateToRam v page a s) := by
  rw [svmMigrateToRam]
  split
  · exact h
  next d q ht =>
    split
    · exact h
    · have hs := notifyOthers_owned h a.mems d (page * pageSize) 1
      simp only
      split
      · rw [ha]
        exact (unmapPage_owned hs page).congr rfl rfl
      · exact hs.congr rfl rfl
      · exact hs

theorem runWork_owned (h : Owned v s) (dev : Fin n) (k : ℕ) :
    Owned v (s.setDevice dev (runWork k (s.devices dev))) :=
  h.setDevice ((h.balanced dev).free k)

/-! ### Runs -/

/-- There is memory for each work that frees pages, and no page of a migration from RAM fails to be
mapped. Device memory may be exhausted, transfers may fail or succeed in part. -/
def Releasing : Event n → Prop
  | .migrateToDevice _ _ _ env => env.Freeing
  | .userToDevice _ _ _ env => ∀ k, (env k).Freeing
  | .userToRam _ _ _ env => ∀ d x, ∀ a ∈ env.calls d x, a.Freeing
  | .deviceFault _ _ env => ∀ k, (env k).Freeing
  | .cpuFault _ a => a.works 0 = true
  | .invalidate _ _ _ works _ => ∀ k, works k = true
  | .work _ _ => True

theorem Owned.step (h : Owned v s) {e : Event n} (he : Releasing e) : Owned v (step v s e) := by
  cases e with
  | migrateToDevice dev page npages env => exact svmMigrateToDevice_owned h he
  | userToDevice dev vaddr size env =>
    rw [Svm.step, userManagedMigrationToDevice]
    split
    · exact h
    · exact blockLoop_owned (fun k _ _ _ h => svmMigrateToDevice_owned h (he k)) h
  | userToRam dev vaddr size env =>
    rw [Svm.step, userManagedMigrationToRam]
    split
    · exact h
    · exact toRamDevices_owned he h
  | deviceFault dev queue env => exact migrateFaults_owned he h
  | cpuFault page a => exact svmMigrateToRam_owned h he
  | invalidate first npages mems works stay =>
    rw [Svm.step, invalidateRange]
    split
    · exact unmapPages_owned he (h.congr rfl rfl)
    · exact h
  | work dev k => exact runWork_owned h dev k

def numPages : ℕ :=
  physMemSize / pageSize

/-- The addresses of a page lie in that many free blocks. -/
def FreeCount (d : DevicePages) (page k : ℕ) : Prop :=
  ∀ x, x / pageSize = page → coverCount d.blocks x = k

/-- Where a page of a device is: in the free list, in a queued work, or with a virtual page. -/
inductive Place where
  | free
  | queued
  | owned

/-- A page is in one place, once, and in no other. -/
def At (s : State n) (d : Fin n) (page : ℕ) : Place → Prop
  | .free => FreeCount (s.devices d) page 1 ∧ (s.devices d).queued page = 0 ∧
      ∀ p, s.table p ≠ some (d, page)
  | .queued => FreeCount (s.devices d) page 0 ∧ (s.devices d).queued page = 1 ∧
      ∀ p, s.table p ≠ some (d, page)
  | .owned => FreeCount (s.devices d) page 0 ∧ (s.devices d).queued page = 0 ∧
      ∃! p, s.table p = some (d, page)

theorem Owned.at_place (h : Owned v s) (d : Fin n) (hpa : page < numPages) :
    ∃ place, At s d page place := by
  have hm : ∀ x, x / pageSize = page → x < physMemSize := by
    intro x hx
    simp only [numPages, physMemSize, pageSize] at *
    omega
  have hon : ∀ x, x / pageSize = page →
      coverCount (s.devices d).blocks x + ((s.devices d).queued page +
        if 0 < held s d page then 1 else 0) = 1 := by
    intro x hx
    have := (h.balanced d).tiled.once x
    rw [if_pos (hm x hx)] at this
    simp only [inUse, hx] at this
    exact this
  have hf := hon (page * pageSize) (Nat.mul_div_cancel _ (by decide))
  by_cases hh : held s d page = 0
  · have hn := held_eq_zero.mp hh
    simp only [hh, lt_irrefl, if_false, add_zero] at hon hf
    by_cases hqu : (s.devices d).queued page = 0
    · exact ⟨.free, fun x hx => by have := hon x hx; omega, hqu, hn⟩
    · exact ⟨.queued, fun x hx => by have := hon x hx; omega, by omega, hn⟩
  rw [if_pos (Nat.pos_of_ne_zero hh)] at hf
  have ho : held s d page = 1 := by
    rw [held] at hh ⊢
    split at hh
    · exact if_pos ‹_›
    · exact absurd rfl hh
  obtain ⟨p, hp⟩ := held_eq_one.mp ho
  refine ⟨.owned, fun x hx => ?_, by omega, p, hp, fun q hq => h.injective q p _ hq hp⟩
  have := hon x hx
  rw [if_pos (Nat.pos_of_ne_zero hh)] at this
  omega

theorem at_unique {place place' : Place} (h : At s d page place) (h' : At s d page place') :
    place = place' := by
  have hd : page * pageSize / pageSize = page := Nat.mul_div_cancel _ (by decide)
  cases place <;> cases place' <;> first
    | rfl
    | exact absurd (h.1 _ hd) (by rw [h'.1 _ hd]; decide)
    | exact absurd h.2.1 (by rw [h'.2.1]; decide)

/-- **Pages of a device under failure**: in every run in which there is memory for the works that
free pages and no page of a migration from RAM fails to be mapped, each page of a device is in the
free list, in one queued work or with one virtual page, in one of these places only and once. When
all works are done, it is in the free list or has exactly one virtual page. -/
theorem free_or_owned_of_mem_trace (v : Kernel) (es : List (Event n))
    (hes : ∀ e ∈ es, Releasing e) :
    ∀ s ∈ Runs.trace (step v) (.new n v) es, ∀ d, ∀ page < numPages,
      (∃! place, At s d page place) ∧
      ((s.devices d).works = [] →
        FreeCount (s.devices d) page 1 ∧ (∀ p, s.table p ≠ some (d, page)) ∨
        FreeCount (s.devices d) page 0 ∧ ∃! p, s.table p = some (d, page)) := by
  have hall : Runs.AllSteps (step v) (fun _ e => Releasing e) (.new n v) es :=
    Runs.allSteps_of_forall_mem _ hes
  intro s hs d page hpage
  have h : Owned v s :=
    Runs.forall_mem_trace_of (fun _ _ h he => h.step he) (owned_new n v) hall s hs
  obtain ⟨place, hplace⟩ := h.at_place d hpage
  refine ⟨⟨place, hplace, fun place' hplace' => at_unique hplace' hplace⟩, fun hworks => ?_⟩
  cases place with
  | free => exact .inl ⟨hplace.1, hplace.2.2⟩
  | owned => exact .inr ⟨hplace.1, hplace.2.2⟩
  | queued =>
    have hqueued : (s.devices d).queued page = 1 := hplace.2.1
    rw [DevicePages.queued, hworks] at hqueued
    simp at hqueued

/-- A migration of three pages runs out of device memory, then the DMA fails; then pages without a
source stay on the device, and the next attempt is not carried out. One of the pages is accessed by
the CPU, and the works are done. -/
theorem free_or_owned_of_mem_trace_failures :
    ∃ s ∈ Runs.trace (step .from517) (.new 1 .from517)
      [.migrateToDevice 0 1 1048577 { calls := fun _ => [{ ending := .migrated }] },
        .migrateToDevice 0 1 3 { calls := fun _ => [{ ending := .dmaFails }] },
        .migrateToDevice 0 1 3 { calls := fun _ => [{ ending := .partly [2, 3] }] },
        .cpuFault 2 { ending := .migrated }, .work 0 0],
      ∀ d, ∀ page < numPages,
      (∃! place, At s d page place) ∧
      ((s.devices d).works = [] →
        FreeCount (s.devices d) page 1 ∧ (∀ p, s.table p ≠ some (d, page)) ∨
        FreeCount (s.devices d) page 0 ∧ ∃! p, s.table p = some (d, page)) := by
  refine ⟨_, Runs.run_mem_trace _ _, ?_⟩
  refine free_or_owned_of_mem_trace .from517 _ (fun e he => ?_) _ (Runs.run_mem_trace _ _)
  have hcall : ∀ ending : Ending, (∀ i, ending ≠ .mapFails i) →
      ({ calls := fun _ => [{ ending := ending }] } : ToDevice 1).Freeing := by
    intro ending hending i a ha
    rw [mem_singleton.mp ha]
    exact ⟨⟨fun _ => rfl, rfl⟩, hending⟩
  simp only [mem_cons, not_mem_nil, or_false] at he
  rcases he with rfl | rfl | rfl | rfl | rfl
  · exact hcall _ fun i h => nomatch h
  · exact hcall _ fun i h => nomatch h
  · exact hcall _ fun i h => nomatch h
  · rfl
  · trivial

/-- A page that cannot be mapped is freed in the loop and in the failure exit. When both works are
done it is in the free list twice. -/
theorem freed_twice :
    ∃ s ∈ Runs.trace (step .from517) (.new 1 .from517)
      [.migrateToDevice 0 1 1 { calls := fun _ => [{ ending := .mapFails 0 }] },
        .work 0 0, .work 0 0], (s.devices 0).works = [] ∧ coverCount (s.devices 0).blocks 0 = 2 :=
  ⟨_, Runs.run_mem_trace _ _, by decide +kernel⟩

end

end Tapasco.Svm
