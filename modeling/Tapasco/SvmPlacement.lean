import Tapasco.SvmResidency

/-!
# Where the Pages of a Range Go

`svm_migrate_to_device` walks over a range of virtual pages. It intersects the range with the
intervals of all devices, and calls a migration for each piece: from RAM, or from another device.
This module follows the calls, and shows that a successful walk places the whole range.

The kernel decides whether a migration of a piece succeeds, and there may be no memory for a node or
for the entries of a search. All this is arbitrary here, as long as the interval trees are right in
what they have. A page that a tree lacks is taken for a page in RAM, and the migration from RAM does
not succeed where it is not in RAM.
-/

open FreeList List

namespace Tapasco.Svm

open Migration

section

variable {n : ℕ} {v : Kernel} {s s' t : State n} {dev : Fin n} {vaddr npages : ℕ}

/-! ### The calls of the loop -/

/-- The page is passed to a migration from RAM. -/
def Migration.fromRam (p : ℕ) : Migration n → Bool
  | .ramToDev vaddr npages => p ∈ vpages vaddr npages
  | .devToDev _ _ _ => false

/-- The page is passed to a migration from a device. -/
def Migration.fromDev (d : Fin n) (p : ℕ) : Migration n → Bool
  | .ramToDev _ _ => false
  | .devToDev src vaddr npages => src = d ∧ p ∈ vpages vaddr npages

variable {lists : Fin n → List Segment} {k curr stop : ℕ} {entry : Segment}
  {attempts : List (Attempt n)} {calls : List (Migration n)}

/-! ### Placing pages -/

/-- The pages in a list are **placed** on the target: all of them are there afterwards; those in RAM
were passed to one migration from RAM, and those on another device to one from there; those on the
target, and all other pages, are where they were. -/
structure Placed (s : State n) (dev : Fin n) (pages : List ℕ) (calls : List (Migration n))
    (s' : State n) : Prop where
  resident : ∀ p ∈ pages, s'.resident p = some dev
  ram : ∀ p, calls.countP (fromRam p) = if p ∈ pages ∧ s.table p = none then 1 else 0
  other : ∀ d p, calls.countP (fromDev d p) =
    if p ∈ pages ∧ d ≠ dev ∧ s.resident p = some d then 1 else 0
  target : ∀ p, s.resident p = some dev → s'.table p = s.table p
  outside : ∀ p, p ∉ pages → s'.table p = s.table p

theorem resident_eq_none {p : ℕ} : s.resident p = none ↔ s.table p = none :=
  Option.map_eq_none_iff

theorem resident_congr {p : ℕ} (h : s'.table p = s.table p) : s'.resident p = s.resident p :=
  congrArg _ h

theorem placed_of_resident {pages : List ℕ} (h : ∀ p ∈ pages, s.resident p = some dev) :
    Placed s dev pages [] s := by
  refine ⟨h, fun p => ?_, fun d p => ?_, fun _ _ => rfl, fun _ _ => rfl⟩
  · rw [if_neg]
    · rfl
    · rintro ⟨hp, hn⟩
      have hr := h p hp
      rw [resident_eq_none.mpr hn] at hr
      cases hr
  · rw [if_neg]
    · rfl
    · rintro ⟨hp, hne, hd⟩
      exact hne (Option.some.inj (hd.symm.trans (h p hp)))

/-- **Two pieces** that have no page in common, one after the other. -/
theorem Placed.append {pages pages' : List ℕ} {calls' : List (Migration n)}
    (h : Placed s dev pages calls t) (h' : Placed t dev pages' calls' s')
    (hd : ∀ p ∈ pages, p ∉ pages') : Placed s dev (pages ++ pages') (calls ++ calls') s' where
  resident p hp := by
    rcases mem_append.mp hp with hp | hp
    · rw [resident_congr (h'.outside p (hd p hp))]
      exact h.resident p hp
    · exact h'.resident p hp
  ram p := by
    rw [countP_append, h.ram, h'.ram]
    by_cases hp : p ∈ pages
    · simp [hp, hd p hp]
    · simp [hp, h.outside p hp]
  other d p := by
    rw [countP_append, h.other, h'.other]
    by_cases hp : p ∈ pages
    · simp [hp, hd p hp]
    · simp [hp, resident_congr (h.outside p hp)]
  target p hp := by
    have ht := h.target p hp
    rw [← ht]
    exact h'.target p ((resident_congr ht).trans hp)
  outside p hp := by
    rw [mem_append, not_or] at hp
    rw [h'.outside p hp.2, h.outside p hp.1]

theorem svmMigrateRamToDev_ok
    (hok : svmMigrateRamToDev v dev vaddr npages attempts s = (s', true)) :
    (∀ p ∈ vpages vaddr npages, s.table p = none) ∧
      (∃ base, ∀ p ∈ vpages vaddr npages, s'.table p = some (dev, base + (p - vaddr / pageSize))) ∧
      ∀ p, p ∉ vpages vaddr npages → s'.table p = s.table p := by
  fun_induction svmMigrateRamToDev v dev vaddr npages attempts s
  case case3 ih => exact ih hok
  case case6 hc _ _ ht _ _ _ ih =>
    obtain ⟨addr, rest, -, -, rfl⟩ := takePages_eq_some ht
    obtain ⟨-, hres, ho⟩ := ih hok
    refine ⟨not_not.mp (not_or.mp hc).2, hres, fun p hp => (ho p hp).trans ?_⟩
    exact if_neg fun hm => hp (mem_filter.mp hm).1
  case case7 hc base _ ht _ =>
    obtain ⟨addr, rest, -, -, rfl⟩ := takePages_eq_some ht
    obtain ⟨rfl, -⟩ := Prod.mk.inj hok
    exact ⟨not_not.mp (not_or.mp hc).2, ⟨base, fun p hp => if_pos hp⟩, fun p hp => if_neg hp⟩
  all_goals simp at hok

theorem svmMigrateDevToDev_ok {src : Fin n}
    (hok : svmMigrateDevToDev v src dev vaddr npages attempts s = (s', true)) :
    (∀ p ∈ vpages vaddr npages, s.resident p = some src) ∧
      (∃ base, ∀ p ∈ vpages vaddr npages, s'.table p = some (dev, base + (p - vaddr / pageSize))) ∧
      ∀ p, p ∉ vpages vaddr npages → s'.table p = s.table p := by
  fun_induction svmMigrateDevToDev v src dev vaddr npages attempts s
  case case3 ih => exact ih hok
  case case5 hc base t ht _ _ _ _ =>
    obtain ⟨addr, rest, -, -, rfl⟩ := takePages_eq_some ht
    obtain ⟨rfl, -⟩ := Prod.mk.inj hok
    exact ⟨not_not.mp (not_or.mp hc).2, ⟨base, fun p hp => if_pos hp⟩, fun p hp => if_neg hp⟩
  all_goals simp at hok

/-! ### The pieces of a range -/

theorem placed_ramToDev (hok : svmMigrateRamToDev v dev vaddr npages attempts s = (s', true)) :
    Placed s dev (vpages vaddr npages) [.ramToDev vaddr npages] s' := by
  obtain ⟨hr, ⟨base, ha⟩, ho⟩ := svmMigrateRamToDev_ok hok
  refine ⟨fun p hp => by rw [State.resident, ha p hp]; rfl, fun p => ?_, fun d p => ?_,
    fun p hp => ho p fun hm => ?_, ho⟩
  · by_cases hp : p ∈ vpages vaddr npages
    · simp [fromRam, hp, hr p hp]
    · simp [fromRam, hp]
  · rw [if_neg]
    · simp [fromDev]
    · rintro ⟨hp, -, hd⟩
      rw [resident_eq_none.mpr (hr p hp)] at hd
      cases hd
  · rw [resident_eq_none.mpr (hr p hm)] at hp
    cases hp

theorem placed_devToDev {src : Fin n} (hne : src ≠ dev)
    (hok : svmMigrateDevToDev v src dev vaddr npages attempts s = (s', true)) :
    Placed s dev (vpages vaddr npages) [.devToDev src vaddr npages] s' := by
  obtain ⟨hs, ⟨base, ha⟩, ho⟩ := svmMigrateDevToDev_ok hok
  refine ⟨fun p hp => by rw [State.resident, ha p hp]; rfl, fun p => ?_, fun d p => ?_,
    fun p hp => ho p fun hm => ?_, ho⟩
  · rw [if_neg]
    · simp [fromRam]
    · rintro ⟨hp, hn⟩
      have hd := hs p hp
      rw [resident_eq_none.mpr hn] at hd
      cases hd
  · by_cases hp : p ∈ vpages vaddr npages
    · by_cases hd : src = d
      · subst hd
        simp [fromDev, hp, hs p hp, hne]
      · simp [fromDev, hp, hs p hp, hd]
    · simp [fromDev, hp]
  · exact hne (Option.some.inj ((hs p hm).symm.trans hp))

theorem vpages_append {a m : ℕ} : vpages a k ++ vpages (a + k * pageSize) m = vpages a (k + m) := by
  rw [vpages, vpages, vpages, Nat.add_mul_div_right _ _ (by decide)]
  exact range'_append_1

theorem Placed.vpages_append {a b m : ℕ} {calls' : List (Migration n)}
    (h : Placed s dev (vpages a k) calls t) (hb : a + k * pageSize = b)
    (h' : Placed t dev (vpages b m) calls' s') :
    Placed s dev (vpages a (k + m)) (calls ++ calls') s' := by
  subst hb
  rw [← Svm.vpages_append]
  refine h.append h' fun p hp hp' => ?_
  rw [mem_vpages_iff] at hp
  rw [mem_vpages_iff, Nat.add_mul_div_right _ _ (by decide)] at hp'
  omega

theorem placed_ramCall (hr : migrateRamPiece v dev curr stop entry attempts s = (k, t, true)) :
    Placed s dev (vpages curr k) (ramCall curr stop entry) t := by
  rw [migrateRamPiece] at hr
  rw [ramCall]
  by_cases hgt : entry.base > curr
  · rw [if_pos hgt] at hr ⊢
    obtain ⟨rfl, hok⟩ := Prod.mk.inj hr
    exact placed_ramToDev hok
  rw [if_neg hgt] at hr ⊢
  obtain ⟨rfl, heq⟩ := Prod.mk.inj hr
  obtain ⟨rfl, -⟩ := Prod.mk.inj heq
  exact placed_of_resident fun p hp => absurd hp (by simp [vpages])

theorem migrateRamPiece_fst {ok : Bool} (hc : pageSize ∣ curr) (hs : pageSize ∣ stop)
    (hb : pageSize ∣ entry.base)
    (hr : migrateRamPiece v dev curr stop entry attempts s = (k, t, ok)) :
    curr + k * pageSize = max curr (min entry.base stop) := by
  rw [migrateRamPiece] at hr
  by_cases hgt : entry.base > curr
  · rw [if_pos hgt] at hr
    rw [← (Prod.mk.inj hr).1]
    exact add_pages_between hc (dvd_min_of_dvd hb hs)
  · rw [if_neg hgt] at hr
    rw [← (Prod.mk.inj hr).1]
    omega

theorem placed_devCall {d : Fin n} {last : ℕ} (hk : (last - curr) / pageSize = k)
    (hr : ∀ p ∈ vpages curr k, s.resident p = some d)
    (hd : migrateDevPiece v d dev curr last attempts s = (t, true)) :
    Placed s dev (vpages curr k) (devCall d dev curr last) t := by
  subst hk
  rw [migrateDevPiece] at hd
  rw [devCall]
  by_cases hne : d ≠ dev
  · rw [if_pos hne] at hd ⊢
    split at hd
    · cases hd
    · exact placed_devToDev hne hd
  · rw [if_neg hne] at hd ⊢
    obtain ⟨rfl, -⟩ := Prod.mk.inj hd
    exact placed_of_resident (not_not.mp hne ▸ hr)

/-! ### The whole range -/

theorem Found.on_device {d : Fin n} (h : Found s lists curr stop) (hen : entry ∈ lists d)
    (hc : pageSize ∣ curr) (hb : min entry.base stop ≤ curr)
    (he : curr + k * pageSize = max curr (min entry.stop stop)) :
    ∀ p ∈ vpages curr k, s.resident p = some d :=
  forall_mem_vpages hc fun x hx hx' =>
    h.resident d x hx (by omega) ⟨entry, hen, by omega, by omega⟩

theorem placed_migrateLoop {calls : ℕ → List (Attempt n)} (hdv : pageSize ∣ vaddr) {i : ℕ}
    (hi : i ≤ npages) (hf : Found s lists (vaddr + i * pageSize) (vaddr + npages * pageSize))
    (hok : (migrateLoop v dev vaddr npages calls i lists s).2.2 = true) :
    Placed s dev (vpages (vaddr + i * pageSize) (npages - i))
      (migrateLoop v dev vaddr npages calls i lists s).1
      (migrateLoop v dev vaddr npages calls i lists s).2.1 := by
  have hmu := dvd_add_pages hdv
  fun_induction migrateLoop v dev vaddr npages calls i lists s
  case case1 => exact placed_ramToDev (Prod.ext rfl hok)
  case case2 i lists s _ d entry hn stop _ k t j curr last _ u _ hr hd ih =>
    obtain ⟨⟨rest, hl⟩, -⟩ := nextInterval_eq_some hn
    have hen : entry ∈ lists d := hl ▸ mem_cons_self
    obtain ⟨hb, hs⟩ := (hf.tree d).aligned entry hen
    have hle : vaddr + i * pageSize ≤ vaddr + npages * pageSize :=
      Nat.add_le_add_left (Nat.mul_le_mul_right _ hi) _
    have hpl := placed_ramCall hr
    have hrea := migrateRamPiece_fst (hmu i) (hmu npages) hb hr
    have hf' := hf.ram hn (hmu i) (fun p hp => resident_congr (hpl.outside p hp)) hrea
    rw [add_pages_add, show i + k = j from rfl] at hrea hf'
    -- the interval does not end before the current page
    have hahead := hf'.ahead d entry hen
    have hz : curr - last = 0 := Nat.sub_eq_zero_of_le (le_min hahead.le (by omega))
    obtain ⟨k', hk'⟩ : ∃ k', (last - curr) / pageSize = k' := ⟨_, rfl⟩
    have he : curr + k' * pageSize = max curr (min entry.stop stop) :=
      hk' ▸ add_pages_between (hmu j) (dvd_min_of_dvd hs (hmu npages))
    have hp' := placed_devCall hk' (hf'.on_device hen (hmu j) (by omega) he) hd
    have hf'' := hf'.device hn (hmu j) (fun p hp => resident_congr (hp'.outside p hp)) he
    rw [add_pages_add] at hf'' he
    have hle' : vaddr + (j + k') * pageSize ≤ vaddr + npages * pageSize := by omega
    have hjk := le_of_add_pages_le hle'
    have hidx : j + (last - curr) / pageSize - (curr - last) / pageSize = j + k' := by
      rw [hz, hk', Nat.zero_div, Nat.sub_zero]
    have hv : vpages (vaddr + (j + (last - curr) / pageSize - (curr - last) / pageSize) * pageSize)
        (npages - (j + (last - curr) / pageSize - (curr - last) / pageSize)) =
        vpages (vaddr + (j + k') * pageSize) (npages - (j + k')) := by rw [hidx]
    have hrest := ih (hidx ▸ hjk) (hidx.symm ▸ hf'') hok
    rw [hv] at hrest
    have ha := hpl.vpages_append (add_pages_add vaddr i k)
      (hp'.vpages_append (add_pages_add vaddr j k') hrest)
    rwa [show k + (k' + (npages - (j + k'))) = npages - i by omega] at ha
  case case3 | case4 => simp at hok
  case case5 i _ _ _ =>
    obtain rfl : i = npages := by omega
    rw [Nat.sub_self]
    exact placed_of_resident fun p hp => absurd hp (by simp [vpages])

/-- **Migrating to a device** places the whole range, wherever its pages are and whatever the kernel
decides: if the call succeeds then every page of the range is on the target, each page that was in
RAM or on another device was passed to one migration from there, and all other pages are where they
were. -/
theorem svmMigrateToDevice_placed (v : Kernel) (dev : Fin n) (h : TreesSound s)
    (hdvd : pageSize ∣ vaddr) (env : ToDevice n)
    (hok : (svmMigrateToDevice v dev vaddr npages env s).2 = true) :
    Placed s dev (vpages vaddr npages) (svmMigrateToDeviceCalls v dev vaddr npages env s)
      (svmMigrateToDevice v dev vaddr npages env s).1 := by
  rw [svmMigrateToDevice] at hok ⊢
  rw [svmMigrateToDeviceCalls]
  cases harray : env.array with
  | false => simp [harray] at hok
  | true =>
    simp only [harray, if_true] at hok ⊢
    have hfound := h.found env.entries vaddr npages (vaddr + npages * pageSize)
    have hplaced := placed_migrateLoop hdvd (Nat.zero_le npages)
      (by rwa [zero_mul, add_zero]) hok
    rwa [zero_mul, add_zero, Nat.sub_zero] at hplaced

end

/-- A kernel that carries out every attempt. -/
def willing : ToDevice 2 where
  calls _ := [{ ending := .migrated }]

theorem willing_clean : willing.Clean :=
  ⟨fun _ => rfl, fun _ => forall_mem_singleton.mpr clean_migrated⟩

/-- Page one is on the first device, and page two on the second one. -/
def mixed : State 2 :=
  Runs.run (step .from61) (.new 2 .from61)
    [.migrateToDevice 0 1 1 willing, .migrateToDevice 1 2 1 willing]

theorem exact_mixed : Exact mixed :=
  ((exact_new 2 .from61).step (e := .migrateToDevice 0 1 1 willing) willing_clean).step
    (e := .migrateToDevice 1 2 1 willing) willing_clean

/-- The pages from zero to two, one of them in RAM, go to the second device. -/
theorem svmMigrateToDevice_placed_mixed :
    (svmMigrateToDevice .from61 1 0 3 willing mixed).2 = true ∧
      Placed mixed 1 (vpages 0 3) (svmMigrateToDeviceCalls .from61 1 0 3 willing mixed)
        (svmMigrateToDevice .from61 1 0 3 willing mixed).1 := by
  have hok : (svmMigrateToDevice .from61 1 0 3 willing mixed).2 = true := by decide +kernel
  exact ⟨hok, svmMigrateToDevice_placed .from61 1 exact_mixed.treesSound (by decide) willing hok⟩

end Tapasco.Svm
