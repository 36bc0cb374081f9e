import Tapasco.JobCopyback
import Tapasco.JobLaunch

/-!
# Failed Launches

`Job::start` returns early when a pass fails. What it allocated before is only known to
the argument list of the pass, which is dropped, and to the notes at the PE, which the
release of the job carries out. A buffer that was allocated but not yet noted is never
freed. This module says exactly which failed launches leave the allocators as they were.
-/

open Exec FreeList List

namespace Tapasco

open PEParameter

namespace PEParameter

def toDevice : PEParameter → Bool
  | .dataTransferLocal x => x.toDevice
  | .dataTransferAlloc x => x.toDevice
  | .dataTransferPrealloc x => x.toDevice
  | _ => false

def fromDevice : PEParameter → Bool
  | .dataTransferLocal x => x.fromDevice
  | .dataTransferAlloc x => x.fromDevice
  | .dataTransferPrealloc x => x.fromDevice
  | _ => false

/-- The parameter, if it is a transfer, asks for its buffer to be freed. -/
def AsksFree : PEParameter → Prop
  | .dataTransferLocal x => x.free = true
  | .dataTransferAlloc x => x.free = true
  | .dataTransferPrealloc x => x.free = true
  | _ => True

/-- The allocator of the memory of a transfer can be locked. -/
def lockable (poisoned : MemId → Bool) : PEParameter → Bool
  | .dataTransferAlloc x => !poisoned x.memory
  | .dataTransferPrealloc x => !poisoned x.memory
  | _ => true

theorem not_transferred {arg : PEParameter} (hx : arg.asPrealloc = none)
    (hp : arg.isAlloc = false ∧ arg.isLocal = false) (po : MemId → Bool) :
    arg.toDevice = false ∧ arg.fromDevice = false ∧ arg.lockable po = true := by
  cases arg with
  | dataTransferLocal x => exact absurd hp.2 (by simp [isLocal])
  | dataTransferAlloc x => exact absurd hp.1 (by simp [isAlloc])
  | dataTransferPrealloc x => exact absurd hx (by simp [asPrealloc])
  | _ => exact ⟨rfl, rfl, rfl⟩

end PEParameter

namespace Job

/-! ### When a failed launch is undone -/

/-- The number of requests for memory in an argument list. -/
def requests (args : List PEParameter) : ℕ :=
  args.countP isAlloc

/-- How many parameters come before the first transfer whose copy to the device fails,
when `i` copies were made before. -/
def sendable (env : Env) : ℕ → List PEParameter → ℕ
  | _, [] => 0
  | i, arg :: args =>
    if arg.toDevice = true → env.copyTo i = .done then
      sendable env (i + arg.toDevice.toNat) args + 1
    else 0

/-- How many parameters come before the first transfer that fails either way, or whose allocator
cannot be locked, when `i` copies to the device and `j` copies from it were made before. -/
def handled (env : Env) (poisoned : MemId → Bool) : ℕ → ℕ → List PEParameter → ℕ
  | _, _, [] => 0
  | i, j, arg :: args =>
    if (arg.toDevice = true → env.copyTo i = .done) ∧
        (arg.fromDevice = true → env.copyFrom j = .done) ∧ arg.lockable poisoned = true then
      handled env poisoned (i + arg.toDevice.toNat) (j + arg.fromDevice.toNat) args + 1
    else 0

theorem sendable_cons_prealloc (env : Env) (i : ℕ) (x : DataTransferPrealloc)
    (args : List PEParameter) : sendable env i (.dataTransferPrealloc x :: args) =
      if x.toDevice = true → env.copyTo i = .done then
        sendable env (i + x.toDevice.toNat) args + 1
      else 0 := rfl

theorem handled_cons_prealloc (env : Env) (po : MemId → Bool) (i j : ℕ)
    (x : DataTransferPrealloc) (args : List PEParameter) :
    handled env po i j (.dataTransferPrealloc x :: args) =
      if (x.toDevice = true → env.copyTo i = .done) ∧
          (x.fromDevice = true → env.copyFrom j = .done) ∧ (!po x.memory) = true then
        handled env po (i + x.toDevice.toNat) (j + x.fromDevice.toNat) args + 1
      else 0 := rfl

variable {σ : Type}
  {args args' : List PEParameter} {s s' : JobState σ} {pe : PE} {arg : PEParameter}

section

variable [Allocator σ]

/-- How many requests for memory are granted before the first one that is refused. -/
def granted (poisoned : MemId → Bool) : (MemId → σ) → List PEParameter → ℕ
  | _, [] => 0
  | allocators, arg :: args =>
    match arg with
    | .dataTransferAlloc x =>
      if poisoned x.memory then 0
      else
        match request x (allocators x.memory) with
        | (.ok _, a) => granted poisoned (Function.update allocators x.memory a) args + 1
        | (.error _, _) => 0
    | _ => granted poisoned allocators args

/-- The launch fails before it allocates anything; or it gets all the memory it asks for, and the
first transfer that fails either way comes after all that ask for memory and before all that bring
their own. -/
def LaunchUndone (pe : PE) (w : World σ) (args : List PEParameter) : Prop :=
  let args' := args.map (localize pe)
  let n := handled w.env w.poisoned w.copyTos w.copyFroms args'
  ((∃ arg ∈ args, arg.isLocal = true) ∧ pe.localMemory = none) ∨
    (granted w.poisoned w.allocator args' = 0 ∧ requests args' ≠ 0) ∨
    (granted w.poisoned w.allocator args' = requests args' ∧
      (∀ arg ∈ args'.take n, arg.asPrealloc = none) ∧
      ∀ arg ∈ args'.drop n, arg.isAlloc = false)

end

/-! ### Freeing a part of the buffers -/

variable {L L' : MemId → List Segment} {args args' : List PEParameter}

theorem Placing.mem_cases (h : Placing L args args' L') {m : MemId} {s : Segment} (hs : s ∈ L' m) :
    s ∈ L m ∨ ∃ x ∈ preallocs args', x.memory = m ∧ x.deviceAddress = s.base := by
  induction h with
  | nil L => exact .inl hs
  | @keep L L' arg args args' _ _ ih =>
    refine (ih hs).imp_right ?_
    rintro ⟨x, hx, hxs⟩
    rw [preallocs_cons]
    exact ⟨x, mem_append_right _ hx, hxs⟩
  | @place L L' x a k args args' _ _ _ ih =>
    rw [preallocs_cons_prealloc]
    rcases ih hs with hs | ⟨y, hy, hys⟩
    · by_cases hm : m = x.memory
      · subst hm
        rw [Function.update_self, mem_append, mem_singleton] at hs
        refine hs.imp_right ?_
        rintro rfl
        exact ⟨x.placedAt a, mem_cons_self, rfl, rfl⟩
      · rw [Function.update_of_ne hm] at hs
        exact .inl hs
    · exact .inr ⟨y, mem_cons_of_mem _ hy, hys⟩

section

variable {L L' : MemId → List Segment} {args args' : List PEParameter}
  (h : List.Forall₂ (Placing.PlacedAs L L') args args')

include h

theorem exists_placed_of_isAlloc (ha : arg ∈ args)
    (hal : arg.isAlloc = true) : ∃ x ∈ preallocs args', LiveIn L' x ∧ FreshIn L x := by
  obtain ⟨arg', ha', hp⟩ := Lists.exists_mem_of_forall₂ h ha
  rcases hp with ⟨hn, -⟩ | ⟨x, a, -, rfl, -, hl, hf⟩
  · exact absurd (hn.symm.trans hal) Bool.false_ne_true
  · exact ⟨x.placedAt a, mem_filterMap.mpr ⟨_, ha', rfl⟩, hl, hf⟩

theorem mem_preallocs_of_mem {x : DataTransferPrealloc} (hx : x ∈ preallocs args) :
    x ∈ preallocs args' := by
  obtain ⟨arg, ha, har⟩ := mem_filterMap.mp hx
  obtain ⟨arg', ha', hp⟩ := Lists.exists_mem_of_forall₂ h ha
  rcases hp with ⟨-, rfl⟩ | ⟨y, a, rfl, -⟩
  · exact mem_filterMap.mpr ⟨arg', ha', har⟩
  · exact absurd har (by simp [asPrealloc])

theorem mem_preallocs_cases {x : DataTransferPrealloc} (hx : x ∈ preallocs args') :
    x ∈ preallocs args ∨ (∃ arg ∈ args, arg.isAlloc = true) ∧ FreshIn L x := by
  obtain ⟨arg', ha', har⟩ := mem_filterMap.mp hx
  obtain ⟨arg, ha, hp⟩ := Lists.exists_mem_of_forall₂ h.flip ha'
  rcases hp with ⟨-, rfl⟩ | ⟨y, a, rfl, rfl, -, -, hf⟩
  · exact .inl (mem_filterMap.mpr ⟨arg', ha, har⟩)
  · obtain rfl : y.placedAt a = x := Option.some.inj har
    exact .inr ⟨⟨_, ha, rfl⟩, hf⟩

end

theorem preallocs_eq_nil_iff : preallocs args = [] ↔ ∀ arg ∈ args, arg.asPrealloc = none :=
  filterMap_eq_nil_iff

section

variable {L L' : MemId → List Segment} {args args' : List PEParameter}
  (h : Placing L args args' L') (hbases : DistinctBases L')

include h hbases

/-- **Freeing a part of the buffers** restores the live segments exactly when it has all that were
allocated and none of the caller's. -/
theorem without_eq_iff (hli : ∀ x ∈ preallocs args, LiveIn L x)
    (hd : Distinct (preallocs args)) (n : ℕ) :
    without (preallocs (args'.take n)) L' = L ↔
      (∀ arg ∈ args.take n, arg.asPrealloc = none) ∧ ∀ arg ∈ args.drop n, arg.isAlloc = false := by
  have hall := h.pointwise hbases
  have hta := forall₂_take n hall
  have hdr := forall₂_drop n hall
  have hs : ∀ l : List PEParameter,
      preallocs l = preallocs (l.take n) ++ preallocs (l.drop n) := fun l => by
    rw [preallocs, preallocs, preallocs, ← filterMap_append, take_append_drop]
  obtain ⟨-, hd'⟩ := h.buffers hbases hli hd
  rw [hs args', Distinct, pairwise_append] at hd'
  rw [hs args, forall_mem_append] at hli
  constructor
  · intro heq
    constructor
    · rw [← preallocs_eq_nil_iff, eq_nil_iff_forall_not_mem]
      intro x hx
      obtain ⟨t, ht, hb, -⟩ := hli.1 x hx
      rw [← heq, mem_without] at ht
      exact ht.2 x (mem_preallocs_of_mem hta hx) rfl hb
    · intro arg ha
      by_contra hal
      obtain ⟨x, hx, ⟨t, ht, hb, -⟩, hf⟩ :=
        exists_placed_of_isAlloc hdr ha (Bool.eq_true_of_not_eq_false hal)
      refine hf t ?_ hb
      rw [← heq, mem_without]
      refine ⟨ht, fun y hy hm => ?_⟩
      rw [hb]
      exact (hd'.2.2 y hy x hx hm).symm
  · rintro ⟨hnone, hn⟩
    funext m
    obtain ⟨l, hl⟩ := h.exists_append m
    have hdi := hbases m
    rw [hl, pairwise_append] at hdi
    have hk : (L m).filter (fun s => (preallocs (args'.take n)).all fun x =>
        decide (x.memory = m → s.base ≠ x.deviceAddress)) = L m := by
      refine filter_eq_self.mpr fun t ht => ?_
      rw [all_eq_true]
      intro x hx
      rw [decide_eq_true_eq]
      rintro rfl
      rcases mem_preallocs_cases hta hx with ho | ⟨-, hf⟩
      · rw [preallocs_eq_nil_iff.mpr hnone] at ho
        exact absurd ho not_mem_nil
      · exact hf t ht
    have hr : l.filter (fun s => (preallocs (args'.take n)).all fun x =>
        decide (x.memory = m → s.base ≠ x.deviceAddress)) = [] := by
      refine filter_eq_nil_iff.mpr fun t ht hke => ?_
      rw [all_eq_true] at hke
      have hm : t ∈ L' m := by rw [hl]; exact mem_append_right _ ht
      rcases h.mem_cases hm with ho | ⟨x, hx, hxm, hxb⟩
      · exact hdi.2.2 t ho t ht rfl
      rw [hs args', mem_append] at hx
      rcases hx with hx | hx
      · have := hke x hx
        rw [decide_eq_true_eq] at this
        exact this hxm hxb.symm
      rcases mem_preallocs_cases hdr hx with ho | ⟨⟨arg, ha, hal⟩, -⟩
      · obtain ⟨u, hu, hub, -⟩ := hli.2 x ho
        rw [hxm] at hu
        exact hdi.2.2 u hu t ht (hub.trans hxb)
      · exact absurd ((hn arg ha).symm.trans hal) Bool.false_ne_true
    rw [without, hl, filter_append, hk, hr, append_nil]

end

/-! ### What a failed launch leaves -/

/-- The later part of a launch leaves these parts of the surroundings alone. -/
structure SameBooks (w w' : World σ) : Prop where
  allocator : w'.allocator = w.allocator
  poisoned : w'.poisoned = w.poisoned
  env : w'.env = w.env
  copyFroms : w'.copyFroms = w.copyFroms

theorem SameBooks.refl (w : World σ) : SameBooks w w :=
  ⟨rfl, rfl, rfl, rfl⟩

theorem SameBooks.trans {w₁ w₂ w₃ : World σ} (h : SameBooks w₁ w₂) (h' : SameBooks w₂ w₃) :
    SameBooks w₁ w₃ :=
  ⟨h'.allocator.trans h.allocator, h'.poisoned.trans h.poisoned, h'.env.trans h.env,
    h'.copyFroms.trans h.copyFroms⟩

theorem sameBooks_sent (w : World σ) (x : DataTransferPrealloc) : SameBooks w (sent w x) := by
  rw [sent]
  split <;> exact ⟨rfl, rfl, rfl, rfl⟩

theorem copyTos_sent (w : World σ) (x : DataTransferPrealloc) :
    (sent w x).copyTos = w.copyTos + x.toDevice.toNat := by
  rw [sent]
  cases x.toDevice <;> rfl

/-- The job has its PE with the notes added, and the same books. -/
structure Noted (s s' : JobState σ) (pe : PE) (notes : List CopyBack) : Prop where
  pe : s'.pe = some (noted pe notes)
  scheduler : s'.scheduler = s.scheduler
  books : SameBooks s.world s'.world

theorem Noted.trans {t u : JobState σ} {l l' : List CopyBack} (h : Noted s t pe l)
    (h' : Noted t u (noted pe l) l') : Noted s u pe (l ++ l') := by
  refine ⟨?_, h'.scheduler.trans h.scheduler, h.books.trans h'.books⟩
  rw [noted_append]
  exact h'.pe

theorem noted_collect_transferArg (hpe : s.pe = some pe) (hsvm : pe.svmInUse = false)
    (hp : ∀ arg ∈ args, arg.isAlloc = false ∧ arg.isLocal = false) :
    Noted s (collect transferArg args s).2 pe
      ((preallocs (args.take (sendable s.world.env s.world.copyTos args))).flatMap noteOf) := by
  induction args generalizing s pe with
  | nil => exact ⟨hpe, rfl, SameBooks.refl s.world⟩
  | cons arg args ih =>
    rw [forall_mem_cons] at hp
    cases hx : arg.asPrealloc with
    | none =>
      have hk := not_transferred hx hp.1 s.world.poisoned
      rw [sendable, hk.1, if_pos (by simp), take_succ_cons, preallocs_cons_of_none hx,
        collect_cons_snd_of_ok (transferArg_of_asPrealloc_none hx s)]
      exact ih hpe hsvm hp.2
    | some x =>
      obtain rfl := eq_of_asPrealloc hx
      by_cases hc : x.toDevice = true → s.world.env.copyTo s.world.copyTos = .done
      · have hs := transferArg_eq_transferred hpe hsvm hc
        have hn : Noted s (transferred s x) pe (noteOf x) :=
          ⟨pe_transferred hpe x, rfl, sameBooks_sent s.world x⟩
        have hr := ih hn.pe ((svmInUse_noted pe _).trans hsvm) hp.2
        rw [hn.books.env, show (transferred s x).world.copyTos =
          s.world.copyTos + x.toDevice.toNat from copyTos_sent s.world x] at hr
        rw [sendable_cons_prealloc, if_pos hc, take_succ_cons,
          preallocs_cons_prealloc, flatMap_cons, collect_cons_snd_of_ok hs]
        exact hn.trans hr
      · obtain ⟨b, hb⟩ := transferArg_eq_err hc
        rw [sendable_cons_prealloc, if_neg hc, take_zero, collect_eq_err_cons.mpr (.inl hb)]
        exact ⟨hpe, rfl, rfl, rfl, rfl, rfl⟩

/-- The transfers that are noted and then returned are those in front of the first one that
fails either way. -/
theorem take_returnable (env : Env) (po : MemId → Bool)
    (hp : ∀ arg ∈ args, arg.isAlloc = false ∧ arg.isLocal = false) (i j : ℕ) :
    (preallocs (args.take (sendable env i args))).take
        (returnable env po j (preallocs (args.take (sendable env i args)))) =
      preallocs (args.take (handled env po i j args)) := by
  induction args generalizing i j with
  | nil => rfl
  | cons arg args ih =>
    rw [forall_mem_cons] at hp
    cases hx : arg.asPrealloc with
    | none =>
      have hk := not_transferred hx hp.1 po
      rw [sendable, handled]
      simp only [hk.1, hk.2.1, hk.2.2, Bool.false_eq_true, false_imp_iff, true_and,
        if_true, take_succ_cons, preallocs_cons_of_none hx]
      exact ih hp.2 _ _
    | some x =>
      obtain rfl := eq_of_asPrealloc hx
      rw [sendable_cons_prealloc, handled_cons_prealloc]
      by_cases ht : x.toDevice = true → env.copyTo i = .done
      · rw [if_pos ht, take_succ_cons, preallocs_cons_prealloc, returnable]
        by_cases hb : ReturnOk env po j x
        · have ha : (x.toDevice = true → env.copyTo i = .done) ∧
              (x.fromDevice = true → env.copyFrom j = .done) ∧
              (!po x.memory) = true := ⟨ht, hb.1, by simp [hb.2]⟩
          rw [if_pos hb, if_pos ha, take_succ_cons, take_succ_cons,
            preallocs_cons_prealloc, ih hp.2]
        · rw [if_neg hb, if_neg, take_zero, take_zero]
          · rfl
          · rintro ⟨-, hf, hl⟩
            exact hb ⟨hf, by simpa using hl⟩
      · rw [if_neg ht, if_neg fun h => ht h.1]
        rfl

theorem handled_congr (h : List.Forall₂ (Placing.PlacedAs L L') args args') (env : Env)
    (po : MemId → Bool) (i j : ℕ) : handled env po i j args' = handled env po i j args := by
  induction h generalizing i j with
  | nil => rfl
  | @cons arg arg' args args' hp _ ih =>
    have hk : arg'.toDevice = arg.toDevice ∧ arg'.fromDevice = arg.fromDevice ∧
        arg'.lockable po = arg.lockable po := by
      rcases hp with ⟨-, rfl⟩ | ⟨x, a, rfl, rfl, -⟩ <;> exact ⟨rfl, rfl, rfl⟩
    rw [handled, handled]
    simp only [hk.1, hk.2.1, hk.2.2, ih]

section

variable [Allocator σ]

theorem granted_append_of_collect (hpe : s.pe = some pe) (hsvm : pe.svmInUse = false)
    {pre pre' : List PEParameter} (h : collect allocateArg pre s = (.ok pre', s'))
    (rest : List PEParameter) :
    granted s.world.poisoned s.world.allocator (pre ++ rest) =
      requests pre + granted s.world.poisoned s'.world.allocator rest := by
  induction pre generalizing s pre' with
  | nil =>
    rw [collect_nil, Prod.mk.injEq] at h
    rw [← h.2, nil_append, requests, countP_nil, zero_add]
  | cons arg pre ih =>
    obtain ⟨arg', s₁, pre₁, har, hre, rfl⟩ := collect_eq_ok_cons.mp h
    cases hk : arg.isAlloc with
    | false =>
      rw [allocateArg_of_not_isAlloc hk, Prod.mk.injEq] at har
      obtain ⟨-, rfl⟩ := har
      rw [requests, countP_cons_of_neg (by simp [hk]), ← requests, ← ih hpe hre]
      cases arg with
      | dataTransferAlloc x => exact absurd hk (by simp [isAlloc])
      | _ => rfl
    | true =>
      cases arg with
      | dataTransferAlloc x =>
        obtain ⟨a, s₂, ha, hp⟩ := bind_eq_ok_iff.mp har
        rw [pure_apply, Prod.mk.injEq] at hp
        obtain ⟨-, rfl⟩ := hp
        rw [allocateFor_eq hpe hsvm] at ha
        obtain ⟨hpo, b, hr, rfl⟩ := exists_of_withAllocator_eq_ok ha
        have hi := ih (s := { s with world := s.world.setAllocator x.memory b }) hpe hre
        rw [requests, countP_cons_of_pos rfl, ← requests, add_right_comm,
          cons_append, granted, if_neg (by simp [hpo])]
        simp only [hr]
        exact congrArg (· + 1) hi
      | _ => exact absurd hk (by simp [isAlloc])

theorem granted_of_allocateArg_err (hpe : s.pe = some pe) (hsvm : pe.svmInUse = false)
    {e : JobError} (h : allocateArg arg s = (.err e, s')) (rest : List PEParameter) :
    arg.isAlloc = true ∧ granted s.world.poisoned s.world.allocator (arg :: rest) = 0 := by
  obtain ⟨x, rfl, hx⟩ := exists_of_allocateArg_err h
  refine ⟨rfl, ?_⟩
  rw [allocateFor_eq hpe hsvm, withAllocator] at hx
  rw [granted]
  cases hp : s.world.poisoned x.memory with
  | true => rw [if_pos rfl]
  | false =>
    rw [hp, if_neg Bool.false_ne_true] at hx
    rw [if_neg Bool.false_ne_true]
    rcases hf : request x (s.world.allocator x.memory) with ⟨e | a, b⟩
    · simp only
    · simp only [hf, Prod.mk.injEq] at hx
      exact absurd hx.1 (by simp)

end

/-- The passes that follow the allocations. -/
def afterAllocates (args : List PEParameter) : JobM σ (List Buffer) := do
  let (transArgs, unusedMem) ← handleTransfersToDevice args
  let transArgs ← handleStreamTransfers true true transArgs
  setArguments 0 transArgs
  startPe
  pure unusedMem

theorem start_eq [Allocator σ] (args : List PEParameter) : (start args : JobM σ (List Buffer)) =
    handleLocalMemories args >>= fun allocArgs =>
      handleAllocates allocArgs >>= fun localArgs => afterAllocates localArgs := by
  simp only [start, prepare, afterAllocates, bind_assoc, pure_bind]

theorem noted_of_launch_err (hpe : s.pe = some pe) (hsvm : pe.svmInUse = false)
    (hidle : pe.active = false) (hpl : ∀ arg ∈ args, arg.isAlloc = false ∧ arg.isLocal = false)
    {e : JobError} (h : afterAllocates args s = (.err e, s')) :
    ∃ streams : List DataTransferStream, Noted s s' pe
      ((preallocs (args.take (sendable s.world.env s.world.copyTos args))).flatMap noteOf ++
        streams.map CopyBack.stream) := by
  have hse := noted_collect_transferArg hpe hsvm hpl
  rcases bind_eq_err_iff.mp h with h | ⟨⟨args₃, unused⟩, s₃, ht, h⟩
  · rcases bind_eq_err_iff.mp h with h | ⟨r, s₁, -, hpu⟩
    · rw [h] at hse
      exact ⟨[], by rwa [map_nil, append_nil]⟩
    · simp at hpu
  obtain ⟨r, s₁, hc, hpu⟩ := bind_eq_ok_iff.mp ht
  rw [pure_apply, Prod.mk.injEq] at hpu
  obtain ⟨-, rfl⟩ := hpu
  rw [hc] at hse
  obtain ⟨r, xs, hst, -⟩ := handleStreamTransfers_spec hse.pe true true args₃
  have hn := hse.trans (u := { s₁ with pe := some (noted _ (xs.map CopyBack.stream)) })
    ⟨rfl, rfl, SameBooks.refl s₁.world⟩
  refine ⟨xs, ?_⟩
  rcases bind_eq_err_iff.mp h with h | ⟨args₄, s₄, hok, h⟩
  · rw [hst, Prod.mk.injEq] at h
    rw [← h.2]
    exact hn
  rw [hst, Prod.mk.injEq] at hok
  rw [hok.2] at hn
  obtain ⟨r, regs, hs, -⟩ := setArguments_spec hn.pe 0 args₄
  rcases bind_eq_err_iff.mp h with h | ⟨⟨⟩, s₅, hok, h⟩
  · rw [hs, Prod.mk.injEq] at h
    rw [← h.2]
    exact ⟨hn.pe, hn.scheduler, hn.books.trans ⟨rfl, rfl, rfl, rfl⟩⟩
  rw [hs, Prod.mk.injEq] at hok
  -- the PE is idle, so it can be started
  rcases bind_eq_err_iff.mp h with h | ⟨⟨⟩, s₆, -, hpu⟩
  · have hp : s₅.pe = s₄.pe := by rw [← hok.2]
    rw [startPe_eq (hp.trans hn.pe), active_noted, hidle, if_neg Bool.false_ne_true] at h
    simp at h
  · simp at hpu

section

variable [Allocator σ] [LawfulAllocator σ]

theorem allocator_eq_iff {w₀ w : World σ} (hvalid : Later w₀ w₀) (hl : Later w₀ w) :
    w.allocator = w₀.allocator ↔ liveMap w = liveMap w₀ := by
  refine ⟨liveMap_congr, fun h => funext fun m => ?_⟩
  exact LawfulAllocator.ext (hvalid m) (hl m) (congrFun h m)

/-- What the end of a job restores: `xs` are the buffers that were noted, and those of the first `n`
parameters are returned. -/
theorem restored_iff_of_noted {w₀ : World σ} (hvalid : Later w₀ w₀) (hla : Later w₀ s.world)
    (hp : Placing (liveMap w₀) args args' (liveMap s.world))
    (hli : ∀ x ∈ preallocs args, LiveIn (liveMap w₀) x) (hd : Distinct (preallocs args))
    (hfree : ∀ x ∈ preallocs args', x.free = true) (hidle : pe.active = false)
    (hnone : pe.copyBack = none) (hknows : Knows pe s.scheduler) {xs : List DataTransferPrealloc}
    {sts : List DataTransferStream}
    (hno : Noted s s' pe (xs.flatMap noteOf ++ sts.map CopyBack.stream))
    (hs : xs.Sublist (preallocs args')) {n : ℕ}
    (ht : xs.take (returnable s.world.env s.world.poisoned s.world.copyFroms xs) =
      preallocs (args'.take n)) (irq : InterruptReply) (ending : Ending) :
    (ending.state irq s').world.allocator = w₀.allocator ↔
      (∀ arg ∈ args.take n, arg.asPrealloc = none) ∧ ∀ arg ∈ args.drop n, arg.isAlloc = false := by
  have hbases := distinctBases_liveMap hla
  obtain ⟨hbu, hd'⟩ := hp.buffers hbases hli hd
  -- the end of the job carries out exactly the new notes
  have hn : (noted pe (xs.flatMap noteOf ++ sts.map CopyBack.stream)).copyBack.getD [] =
      xs.flatMap noteOf ++ sts.map CopyBack.stream := by
    rw [(noted_eq pe _).2, hnone]
    rfl
  have hk' : Knows (noted pe (xs.flatMap noteOf ++ sts.map CopyBack.stream))
      s'.scheduler := by
    rw [hno.scheduler, (noted_eq pe _).1]
    exact hknows
  obtain ⟨s₁, hw, he⟩ := ending_of_idle hno.pe ((active_noted pe _).trans hidle) hk' irq ending
  rw [hn] at he
  -- where it starts from
  have hb : SameBooks s.world s₁.world := hw ▸ hno.books
  have hl : liveMap s₁.world = liveMap s.world := liveMap_congr hb.allocator
  have hsp := collect_copyBackOne_spec (hla.congr hb.allocator)
    (fun x hx => hfree x (hs.subset hx))
    (fun x hx => hl ▸ (hbu x (hs.subset hx)).1) (hd'.sublist hs) sts
  rw [hb.env, hb.poisoned, hb.copyFroms, ht, hl] at hsp
  rw [he, allocator_eq_iff hvalid hsp.1, hsp.2]
  exact without_eq_iff hp hbases hli hd n

end

theorem asksFree_localize (h : arg.AsksFree) : (localize pe arg).AsksFree := by
  cases arg with
  | dataTransferLocal x =>
    rw [localize]
    cases pe.localMemory <;> exact h
  | _ => exact h

theorem free_of_asksFree (h : List.Forall₂ (Placing.PlacedAs L L') args args')
    (hfree : ∀ arg ∈ args, arg.AsksFree) : ∀ x ∈ preallocs args', x.free = true := by
  intro x hx
  obtain ⟨arg', ha', har⟩ := mem_filterMap.mp hx
  obtain rfl := eq_of_asPrealloc har
  obtain ⟨arg, ha, hp⟩ := Lists.exists_mem_of_forall₂ h.flip ha'
  rcases hp with ⟨-, rfl⟩ | ⟨y, a, rfl, heq, -⟩
  · exact hfree _ ha
  · obtain rfl := dataTransferPrealloc.inj heq
    exact hfree _ ha

theorem plain_of_placedAs (h : List.Forall₂ (Placing.PlacedAs L L') args args')
    (hl : ∀ arg ∈ args, arg.isLocal = false) :
    ∀ arg ∈ args', arg.isAlloc = false ∧ arg.isLocal = false := by
  intro arg' ha'
  obtain ⟨arg, ha, hp⟩ := Lists.exists_mem_of_forall₂ h.flip ha'
  rcases hp with ⟨hn, rfl⟩ | ⟨y, a, rfl, rfl, -⟩
  · exact ⟨hn, hl _ ha⟩
  · exact ⟨rfl, rfl⟩

section

variable [Allocator σ] [LawfulAllocator σ]

theorem PreallocsLive.of_sublist {w : World σ} (h : PreallocsLive w args')
    (hs : args.Sublist args') : PreallocsLive w args :=
  ⟨fun x hx => h.live x ((hs.filterMap _).subset hx), h.distinct.sublist (hs.filterMap _)⟩

section

variable {s s' : JobState σ} {pe : PE} {args : List PEParameter} {e : JobError}
  (hpe : s.pe = some pe) (hidle : pe.active = false) (hnone : pe.copyBack = none)
  (hknows : Knows pe s.scheduler) (hsvm : pe.svmInUse = false) (hvalid : Later s.world s.world)
  (htyped : ∀ arg ∈ args, arg.WellTyped) (hpre : PreallocsLive s.world args)
  (hfree : ∀ arg ∈ args, arg.AsksFree) (irq : InterruptReply) (ending : Ending)

include hpe hidle hnone hknows hsvm hvalid htyped hpre hfree

theorem restored_iff_of_allocation_err (h : handleAllocates args s = (.err e, s')) :
    ((ending.state irq s').world.allocator = s.world.allocator ↔
      granted s.world.poisoned s.world.allocator args = 0) ∧
      granted s.world.poisoned s.world.allocator args < requests args := by
  obtain ⟨pre, arg, post, pre', s₁, rfl, hc, ha⟩ := exists_of_collect_eq_err h
  obtain ⟨hs, hl, hpl⟩ := placed_of_collect hpe hsvm hvalid
    (fun b hb => htyped b (mem_append_left _ hb)) hc
  have hp : s₁.pe = some pe := by rw [hs]; exact hpe
  have hk : Knows pe s₁.scheduler := by rw [hs]; exact hknows
  have hpo : s₁.world.poisoned = s.world.poisoned := by rw [hs]
  have hpr := hpre.of_sublist (sublist_append_left pre (arg :: post))
  obtain ⟨hal, hr⟩ := granted_of_allocateArg_err hp hsvm ha post
  have hg := granted_append_of_collect hpe hsvm hc (arg :: post)
  rw [← hpo, hr, add_zero, hpo] at hg
  -- the request that is refused has no effect
  obtain rfl := eq_of_allocateArg_err hp hsvm hl (htyped arg (by simp)) ha
  have hf' := free_of_asksFree (hpl.pointwise (distinctBases_liveMap hl))
    fun b hb => hfree b (mem_append_left _ hb)
  have hn : Noted s' s' pe (([] : List DataTransferPrealloc).flatMap noteOf ++
      ([] : List DataTransferStream).map CopyBack.stream) :=
    ⟨hp, rfl, SameBooks.refl s'.world⟩
  have hi := restored_iff_of_noted hvalid hl hpl hpr.live hpr.distinct hf'
    hidle hnone hk hn (nil_sublist _) (n := 0) rfl irq ending
  rw [hg, hi]
  constructor
  · rw [requests, countP_eq_zero]
    simp
  · rw [requests, requests, countP_append, countP_cons_of_pos hal]
    omega

/-- A launch that got its memory is undone if the first failing transfer comes after all that ask
for memory and before all that bring their own. -/
theorem restored_iff_of_later_err (hlo : ∀ arg ∈ args, arg.isLocal = false) {s₁ : JobState σ}
    (h : handleAllocates args s = (.ok args', s₁)) (he : afterAllocates args' s₁ = (.err e, s')) :
    let n := handled s.world.env s.world.poisoned s.world.copyTos s.world.copyFroms args
    ((ending.state irq s').world.allocator = s.world.allocator ↔
      (∀ arg ∈ args.take n, arg.asPrealloc = none) ∧ ∀ arg ∈ args.drop n, arg.isAlloc = false) ∧
      granted s.world.poisoned s.world.allocator args = requests args := by
  intro n
  obtain ⟨hs, hl, hp⟩ := placed_of_collect hpe hsvm hvalid htyped h
  have hpe₁ : s₁.pe = some pe := by rw [hs]; exact hpe
  have hk : Knows pe s₁.scheduler := by rw [hs]; exact hknows
  have hpo := hp.pointwise (distinctBases_liveMap hl)
  have hpl := plain_of_placedAs hpo hlo
  obtain ⟨streams, hno⟩ := noted_of_launch_err hpe₁ hsvm hidle hpl he
  have ht := take_returnable s₁.world.env s₁.world.poisoned hpl s₁.world.copyTos
    s₁.world.copyFroms
  have hn : handled s₁.world.env s₁.world.poisoned s₁.world.copyTos s₁.world.copyFroms args' =
      n := by
    rw [handled_congr hpo, hs]
  rw [hn] at ht
  constructor
  · exact restored_iff_of_noted hvalid hl hp hpre.live hpre.distinct
      (free_of_asksFree hpo hfree) hidle hnone hk hno
      ((take_sublist _ _).filterMap _) ht irq ending
  · have hg := granted_append_of_collect hpe hsvm h []
    rwa [append_nil, granted, add_zero] at hg

theorem restored_iff_launchUndone (hs : start args s = (.err e, s')) :
    (ending.state irq s').world.allocator = s.world.allocator ↔ LaunchUndone pe s.world args := by
  rw [start_eq] at hs
  by_cases hm : (∃ arg ∈ args, arg.isLocal = true) ∧ pe.localMemory = none
  · -- the launch ends with the first pass
    have hlo := handleLocalMemories_eq_err hpe hm.1 hm.2
    obtain rfl : s = s' := by
      have hb := (bind_of_err hlo).symm.trans hs
      rw [Prod.mk.injEq] at hb
      exact hb.2
    obtain ⟨s₁, hw, he⟩ := ending_of_idle hpe hidle hknows irq ending
    rw [hnone] at he
    refine iff_of_true ?_ (.inl hm)
    rw [he, ← hw]
    rfl
  have hme : ∀ arg ∈ args, arg.isLocal = true → pe.localMemory ≠ none :=
    fun arg ha hlo hn => hm ⟨⟨arg, ha, hlo⟩, hn⟩
  have hr := (bind_of_ok (handleLocalMemories_eq_ok hpe hme)).symm.trans hs
  have ht : ∀ arg ∈ args.map (localize pe), arg.WellTyped :=
    forall_mem_map.mpr fun arg ha => wellTyped_localize (htyped arg ha)
  have hf : ∀ arg ∈ args.map (localize pe), arg.AsksFree :=
    forall_mem_map.mpr fun arg ha => asksFree_localize (hfree arg ha)
  have hpr := hpre.map_localize pe
  rw [LaunchUndone, or_iff_right hm]
  rcases bind_eq_err_iff.mp hr with hal | ⟨args₂, s₂, hal, her⟩
  · obtain ⟨hi, hlt⟩ := restored_iff_of_allocation_err hpe hidle hnone hknows hsvm hvalid
      ht hpr hf irq ending hal
    rw [hi]
    constructor
    · exact fun hz => .inl ⟨hz, by omega⟩
    · rintro (⟨hz, -⟩ | ⟨hall, -⟩)
      · exact hz
      · omega
  · have hl : ∀ arg ∈ args.map (localize pe), arg.isLocal = false :=
      forall_mem_map.mpr fun arg ha => isLocal_localize (hme arg ha)
    obtain ⟨hi, hall⟩ := restored_iff_of_later_err hpe hidle hnone hknows hsvm hvalid
      ht hpr hf irq ending hl hal her
    rw [hi]
    constructor
    · exact fun hp => .inr ⟨hall, hp⟩
    · rintro (⟨hz, hne⟩ | ⟨-, hp⟩)
      · omega
      · exact hp

end

/-- **Failed launches**: when the job has ended after a failed launch whose transfers all ask to be
freed, the allocators are as before exactly when the launch was undone. -/
theorem allocators_restored_iff {s s' : JobState σ} {pe : PE} {args : List PEParameter}
    {e : JobError} (hpe : s.pe = some pe) (hidle : pe.active = false)
    (hnone : pe.copyBack = none) (hknows : Knows pe s.scheduler) (hsvm : pe.svmInUse = false)
    (hvalid : Later s.world s.world) (htyped : ∀ arg ∈ args, arg.WellTyped)
    (hpre : PreallocsLive s.world args) (hfree : ∀ arg ∈ args, arg.AsksFree)
    (hstart : start args s = (.err e, s')) (irq : InterruptReply) (ending : Ending) :
    ((ending.state irq s').world.allocator = s.world.allocator ↔ LaunchUndone pe s.world args) ∧
    ∀ t : JobState DummyAllocator,
      (ending.state irq (start args t).2).world.allocator = t.world.allocator :=
  ⟨restored_iff_launchUndone hpe hidle hnone hknows hsvm hvalid htyped hpre hfree irq ending
    hstart, fun _ => funext fun _ => rfl⟩

end

/-- Arguments whose last one is refused when the registers are written. -/
def refusedArgs : List PEParameter :=
  sharedMemoryArgs ++ [.virtualAddress 0x8000]

/-- All buffers are noted when the registers are written, so nothing is left when the job
is dropped. -/
theorem allocators_restored_iff_register_error :
    (Ending.drop.state (.ok 1) (start refusedArgs sharedMemoryJob).2).world.allocator =
      sharedMemoryJob.world.allocator := by
  have hresult : (start refusedArgs sharedMemoryJob).1 =
      .err (.unsupportedSVMParameter (.virtualAddress 0x8000)) := by rfl
  have hpreallocs : preallocs refusedArgs = [] := by decide
  have hpre : PreallocsLive sharedMemoryJob.world refusedArgs :=
    ⟨by simp [hpreallocs], by rw [hpreallocs]; exact List.Pairwise.nil⟩
  have hknows : Knows sharedMemoryPe sharedMemoryJob.scheduler := trivial
  have hundone : LaunchUndone sharedMemoryPe sharedMemoryJob.world refusedArgs :=
    .inr (.inr ⟨by rfl, by decide, by decide⟩)
  have htyped : ∀ arg ∈ refusedArgs, arg.WellTyped := by
    simp [refusedArgs, sharedMemoryArgs, PEParameter.WellTyped]
  have hfree : ∀ arg ∈ refusedArgs, arg.AsksFree := by
    simp [refusedArgs, sharedMemoryArgs, PEParameter.AsksFree]
  have hstart := Prod.ext (y := (_, (start refusedArgs sharedMemoryJob).2)) hresult rfl
  exact (allocators_restored_iff rfl rfl rfl hknows rfl later_sharedMemoryJob htyped hpre hfree
    hstart (.ok 1) .drop).1.mpr hundone

/-- Two buffers, the second one at a fixed address outside the memory. -/
def leakingArgs : List PEParameter :=
  [.dataTransferAlloc { data := ⟨0x5000, [1, 2, 3]⟩, fromDevice := false, toDevice := true,
                        memory := 1, free := true, fixed := none },
   .dataTransferAlloc { data := ⟨0x6000, [4]⟩, fromDevice := true, toDevice := false,
                        memory := 1, free := true, fixed := some 0x2000 }]

/-- The launch fails at the second buffer, and the first one is still allocated after the
job was dropped. -/
theorem buffer_leaked_by_failed_launch :
    (start leakingArgs sharedMemoryJob).1 = .err (.allocatorError (.fixedNotAvailable 64 0x2000)) ∧
      (Ending.drop.state (.ok 1) (start leakingArgs sharedMemoryJob).2).world.allocator 1 =
        { memoryFree := [⟨64, 960⟩], memoryUsed := [⟨0, 64⟩], alignment := 64 } ∧
      (Ending.drop.state (.ok 1) (start leakingArgs sharedMemoryJob).2).world.allocator ≠
        sharedMemoryJob.world.allocator := by
  have hleak : (Ending.drop.state (.ok 1) (start leakingArgs sharedMemoryJob).2).world.allocator 1 =
        { memoryFree := [⟨64, 960⟩], memoryUsed := [⟨0, 64⟩], alignment := 64 } := by decide
  refine ⟨by rfl, hleak, fun heq => ?_⟩
  rw [heq] at hleak
  exact absurd hleak (by decide)

end Job

end Tapasco
