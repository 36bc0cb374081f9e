import Tapasco.JobFailure

/-!
# Starting a Busy Job

`PE::start` refuses to start a PE that runs already. `Job::start` only asks it in its last step,
when the arguments have been allocated, sent, noted and written to the registers. This module
says exactly which argument lists a busy job refuses without having disturbed the execution that
is under way.

Whether a write changes anything depends on what was there before. So the result is about a
launch with given arguments, a given PE and given allocators, and all possible contents of the
registers and memories and answers of the DMA engine.
-/

open Exec FreeList List

namespace Tapasco

namespace PEParameter

/-- The parameter has no effect before the registers are written. -/
def inert : PEParameter → Bool
  | .dataTransferLocal _ | .dataTransferAlloc _ | .dataTransferStream _ => false
  | .dataTransferPrealloc x =>
    !x.fromDevice && !x.free && (!x.toDevice || x.data.bytes.isEmpty)
  | _ => true

end PEParameter

namespace Job

open PEParameter (inert virtualAddress isLocal isStream isAlloc)

variable {σ : Type} {args : List PEParameter} {s : JobState σ} {arg : PEParameter}

/-- The registers, the work that is left for the end of the running execution, the allocators and
the memories are as they were. -/
structure Undisturbed (s s' : JobState σ) : Prop where
  registers : s'.world.registers = s.world.registers
  copyBack : s'.pe.map PE.copyBack = s.pe.map PE.copyBack
  allocator : s'.world.allocator = s.world.allocator
  bytes : s'.world.bytes = s.world.bytes

section

variable [Allocator σ]

/-- The launch returns an error and has no side effects. -/
def Refused (args : List PEParameter) (s : JobState σ) : Prop :=
  (∃ e, (start args s).1 = .err e) ∧ Undisturbed s (start args s).2

/-- **When a launch has no side effects.** A local memory is missing; or the first request for
memory is refused; or there are no arguments; or the first one is a virtual address, which is not
supported, and nothing is transferred or noted. -/
def Harmless (pe : PE) (poisoned : MemId → Bool) (allocator : MemId → σ)
    (args : List PEParameter) : Prop :=
  ((∃ arg ∈ args, arg.isLocal = true) ∧ pe.localMemory = none) ∨
    (pe.svmInUse = false ∧ granted poisoned allocator (args.map (localize pe)) = 0 ∧
      requests (args.map (localize pe)) ≠ 0) ∨
    args = [] ∨
    (pe.svmInUse = false ∧ ∃ p rest, args = .virtualAddress p :: rest ∧
      ∀ arg ∈ rest, arg.inert = true)

end

/-! ### A busy job returns an error -/

/-- The PE of the job runs. -/
def Busy (s : JobState σ) : Prop :=
  ∃ pe, s.pe = some pe ∧ pe.active = true

/-- The PE of the job runs, and the allocators are the given ones. -/
def BusyWith (a : MemId → σ) (s : JobState σ) : Prop :=
  Busy s ∧ s.world.allocator = a

theorem pe_ne_none_of_busy (s : JobState σ) (h : Busy s) : s.pe ≠ none := by
  obtain ⟨pe, hpe, -⟩ := h
  simp [hpe]

theorem keeps_handleAllocates [Allocator σ] (args : List PEParameter) :
    Keeps Busy (handleAllocates (σ := σ) args) :=
  (obeys_collect (F := .keeping Busy) fun arg _ =>
    obeys_allocateArg pe_ne_none_of_busy (fun _ _ hs => hs) arg).keeps

section

variable {a : MemId → σ}

theorem pe_ne_none_of_busyWith (s : JobState σ) (h : BusyWith a s) : s.pe ≠ none :=
  pe_ne_none_of_busy s h.1

theorem busyWith_world (s : JobState σ) (w : World σ) (hw : w.allocator = s.world.allocator) :
    BusyWith a s → BusyWith a { s with world := w } :=
  fun hs => ⟨hs.1, hw.trans hs.2⟩

theorem busyWith_addCopyback (s : JobState σ) (pe : PE) (c : CopyBack) (hpe : s.pe = some pe) :
    BusyWith a s → BusyWith a { s with pe := some (pe.addCopyback c) } := by
  rintro ⟨⟨pe', hp', hac⟩, ha⟩
  obtain rfl : pe' = pe := Option.mem_unique hp' hpe
  exact ⟨⟨pe'.addCopyback c, rfl, hac⟩, ha⟩

theorem busyWith_handleStreamTransfers (args : List PEParameter) :
    (Frame.keeping (BusyWith a)).Obeys (handleStreamTransfers true true args) :=
  obeys_handleStreamTransfers pe_ne_none_of_busyWith busyWith_addCopyback
    true true args

theorem busyWith_setArguments (args : List PEParameter) :
    (Frame.keeping (BusyWith a)).Obeys (setArguments 0 args) :=
  obeys_setArguments pe_ne_none_of_busyWith
    busyWith_world 0 args

theorem startPe_of_busy (h : Busy s) : ∃ e, startPe s = (.err e, s) := by
  obtain ⟨pe, hpe, ha⟩ := h
  refine ⟨.peError (.peAlreadyActive pe.id), ?_⟩
  rw [startPe_eq hpe, if_pos ha]

theorem busyWith_startPe : (Frame.keeping (BusyWith a)).Obeys (startPe (σ := σ)) := by
  refine fun s => ⟨fun hs => ?_, fun hs => ?_⟩
  all_goals
    obtain ⟨e, he⟩ := startPe_of_busy hs.1
    rw [he]
  · exact hs
  · simp

theorem busyWith_handleTransfersToDevice (args : List PEParameter) :
    (Frame.keeping (BusyWith a)).Obeys (handleTransfersToDevice args) :=
  obeys_bind (obeys_collect fun arg _ =>
    obeys_transferArg pe_ne_none_of_busyWith
      busyWith_world busyWith_addCopyback arg) fun _ => obeys_pure _

theorem keeps_afterAllocates (args : List PEParameter) : Keeps (BusyWith a) (afterAllocates args) :=
  (obeys_bind (busyWith_handleTransfersToDevice args) fun r =>
    obeys_bind (busyWith_handleStreamTransfers r.1) fun _ =>
      obeys_bind (busyWith_setArguments _) fun _ =>
        obeys_bind busyWith_startPe fun _ => obeys_pure _).keeps

theorem exists_afterAllocates_err (h : Busy s) (args : List PEParameter) :
    ∃ e, (afterAllocates args s).1 = .err e := by
  refine exists_err_of_keeps (P := BusyWith s.world.allocator)
    (busyWith_handleTransfersToDevice args).keeps (fun r s hs => ?_) ⟨h, rfl⟩
  refine exists_err_of_keeps (busyWith_handleStreamTransfers r.1).keeps (fun _ s hs => ?_) hs
  refine exists_err_of_keeps (busyWith_setArguments _).keeps (fun _ s hs => ?_) hs
  obtain ⟨e, he⟩ := startPe_of_busy hs.1
  exact ⟨e, by rw [bind_of_err he]⟩

end

variable {s : JobState σ} {args : List PEParameter}

theorem exists_start_err [Allocator σ] (h : Busy s) (args : List PEParameter) :
    ∃ e, (start args s).1 = .err e := by
  rw [start_eq]
  refine exists_err_of_keeps (P := Busy)
    (obeys_collect fun arg _ => obeys_localArg pe_ne_none_of_busy arg).keeps
    (fun args₁ s hs => ?_) h
  exact exists_err_of_keeps (keeps_handleAllocates args₁)
    (fun args₂ s hs => exists_afterAllocates_err hs args₂) hs

/-! ### The registers -/

section

variable {s : JobState σ} {pe : PE} (hpe : s.pe = some pe)

include hpe

theorem launch_registers (ha : pe.active = true) (args : List PEParameter)
    (l : List Buffer) : ∃ regs,
      ((do setArguments 0 args; startPe; pure l : JobM σ (List Buffer)) s).2 =
        { s with world := { s.world with registers := regs } } ∧
      ∀ arg rest v, args = arg :: rest → valueOf pe.svmInUse arg = some v →
        ByteMem.Holds regs (argOffset pe 0) v.bytes := by
  obtain ⟨r, regs, heq, -, hh, -⟩ := setArguments_spec hpe 0 args
  refine ⟨regs, ?_, hh⟩
  cases r with
  | ok u =>
    obtain ⟨e, he⟩ := startPe_of_busy
      (s := { s with world := { s.world with registers := regs } }) ⟨pe, hpe, ha⟩
    rw [bind_of_ok heq, bind_of_err he]
  | err e => rw [bind_of_err heq]
  | panic => rw [bind_of_panic heq]

end

/-! ### Harmless launches -/

/-- The PE of the job, and what is not to be disturbed, are those of `s₀`. -/
def SameAs (s₀ s : JobState σ) : Prop :=
  s.pe = s₀.pe ∧ s.world.registers = s₀.world.registers ∧
    s.world.allocator = s₀.world.allocator ∧ s.world.bytes = s₀.world.bytes

theorem SameAs.undisturbed {s₀ : JobState σ} (h : SameAs s₀ s) : Undisturbed s₀ s :=
  ⟨h.2.1, by rw [h.1], h.2.2.1, h.2.2.2⟩

theorem keeps_copyTo_nil (s₀ : JobState σ) (m : MemId) (addr : DeviceAddress) :
    (Frame.keeping (SameAs s₀)).Obeys (copyTo m [] addr) := by
  intro s
  have hs : (s.world.write m addr []).bytes = s.world.bytes := by
    rw [World.write, ByteMem.writeBytes_nil]
    exact Function.update_eq_self _ _
  cases hr : s.world.env.copyTo s.world.copyTos <;> simp only [copyTo, hr, take_nil] <;>
    exact ⟨fun h => ⟨h.1, h.2.1, h.2.2.1, hs.trans h.2.2.2⟩, fun _ => by simp⟩

section

variable {s₀ : JobState σ} {pe : PE} (hpe : s₀.pe = some pe) (hsvm : pe.svmInUse = false)

include hpe hsvm

theorem keeps_transferArg_of_inert (h : arg.inert = true) :
    (Frame.keeping (SameAs s₀)).Obeys (transferArg arg) := by
  cases arg with
  | dataTransferPrealloc x =>
    simp only [inert, Bool.and_eq_true, Bool.not_eq_true', Bool.or_eq_true,
      List.isEmpty_iff] at h
    obtain ⟨⟨hf, hfr⟩, hd⟩ := h
    have hr : (Frame.keeping (SameAs s₀)).Obeys (do
        let unused ← noteTransfer x
        pure (PEParameter.deviceAddress x.deviceAddress, unused) :
          JobM σ (PEParameter × List Buffer)) := by
      refine obeys_bind (fun s => ⟨fun hs => ?_, fun hs => ?_⟩) fun _ => obeys_pure _
      all_goals rw [noteTransfer_eq (hs.1.trans hpe), hsvm, notesOf, noteOf, hf, hfr]
      · exact ⟨hpe.symm, hs.2⟩
      · simp
    rw [transferArg]
    split
    · rw [hd.resolve_left (by simp [*])]
      exact obeys_bind (keeps_copyTo_nil s₀ _ _) fun _ => hr
    · exact hr
  | dataTransferLocal x => exact absurd h (by simp [inert])
  | dataTransferAlloc x => exact absurd h (by simp [inert])
  | dataTransferStream x => exact absurd h (by simp [inert])
  | _ => exact obeys_pure _

end

theorem handleStreamTransfers_of_none (h : ∀ arg ∈ args, arg.isStream = false) (c2h h2c : Bool)
    (s : JobState σ) : handleStreamTransfers c2h h2c args s = (.ok args, s) := by
  induction args with
  | nil => rfl
  | cons arg args ih =>
    rw [forall_mem_cons] at h
    rw [handleStreamTransfers_cons h.1]
    exact bind_of_ok (ih h.2)

theorem isStream_of_inert (h : arg.inert = true) : arg.isStream = false := by
  cases arg with
  | dataTransferStream x => exact absurd h (by simp [inert])
  | _ => rfl

theorem afterAllocates_of_ok {s' : JobState σ} {r : List (PEParameter × List Buffer)}
    (h : collect transferArg args s = (.ok r, s')) (hr : r.map Prod.fst = args.map toRegister) :
    afterAllocates args s =
      (handleStreamTransfers true true (args.map toRegister) >>= fun transArgs =>
        (do setArguments 0 transArgs; startPe; pure (r.flatMap Prod.snd) :
          JobM σ (List Buffer))) s' := by
  rw [← hr]
  exact bind_of_ok (f := handleTransfersToDevice args) (bind_of_ok h)

theorem afterAllocates_of_err {s' : JobState σ} {e : JobError}
    (h : collect transferArg args s = (.err e, s')) : afterAllocates args s = (.err e, s') :=
  bind_of_err (f := handleTransfersToDevice args) (bind_of_err h)

theorem undisturbed_afterAllocates {pe : PE} (hpe : s.pe = some pe) (hsvm : pe.svmInUse = false)
    (p : ℕ) {rest : List PEParameter} (hr : ∀ arg ∈ rest, arg.inert = true) :
    Undisturbed s (afterAllocates (.virtualAddress p :: rest) s).2 := by
  have hi : ∀ arg ∈ virtualAddress p :: rest, arg.inert = true := forall_mem_cons.mpr ⟨rfl, hr⟩
  have hk := (obeys_collect fun arg ha => keeps_transferArg_of_inert hpe hsvm
    (hi arg ha)).keeps s ⟨rfl, rfl, rfl, rfl⟩
  match h : collect transferArg (.virtualAddress p :: rest) s with
  | (.ok r, s₁) =>
    rw [h] at hk
    obtain ⟨rfl, -⟩ := collect_transferArg_ok hpe h
    have hn : ∀ arg ∈ (virtualAddress p :: rest).map toRegister,
        arg.isStream = false := forall_mem_map.mpr fun arg ha =>
      (isStream_toRegister arg).trans (isStream_of_inert (hi arg ha))
    obtain ⟨e, he⟩ : ∃ e, setArgument 0 (.virtualAddress p) s₁ = (.err e, s₁) := by
      simpa [valueOf, hsvm] using setArgument_cases (hk.2.1.trans hpe) 0 (.virtualAddress p)
    have hs : setArguments 0 ((virtualAddress p :: rest).map toRegister) s₁ =
        (.err e, s₁) := bind_of_err he
    rw [afterAllocates_of_ok h (by rw [map_map]; rfl),
      bind_of_ok (handleStreamTransfers_of_none hn true true s₁), bind_of_err hs]
    exact hk.2.undisturbed
  | (.err e, s₁) =>
    rw [h] at hk
    rw [afterAllocates_of_err h]
    exact hk.2.undisturbed
  | (.panic, s₁) =>
    rw [h] at hk
    exact absurd rfl hk.1

section

variable [Allocator σ]

/-- **The allocation pass** of a busy job gets through a part of the list with exactly the granted
requests, and fails if there are more. -/
theorem handleAllocates_granted [LawfulAllocator σ] {pe : PE} (hpe : s.pe = some pe)
    (hac : pe.active = true) (hsvm : pe.svmInUse = false) (hv : Later s.world s.world)
    (ht : ∀ arg ∈ args, arg.WellTyped) :
    ∃ pre pre' s', (∀ arg ∈ pre, arg.WellTyped) ∧ collect allocateArg pre s = (.ok pre', s') ∧
      requests pre = granted s.world.poisoned s.world.allocator args ∧
      (handleAllocates args s = (.ok pre', s') ∧ requests pre = requests args ∨
        ∃ e, handleAllocates args s = (.err e, s')) := by
  match h : handleAllocates args s with
  | (.ok args', s') =>
    have heq := granted_append_of_collect hpe hsvm h []
    rw [append_nil, granted, add_zero] at heq
    exact ⟨args, args', s', ht, h, heq.symm, .inl ⟨rfl, rfl⟩⟩
  | (.err e, s') =>
    obtain ⟨pre, arg, post, pre', s₁, rfl, hp, ha⟩ := exists_of_collect_eq_err h
    rw [forall_mem_append, forall_mem_cons] at ht
    obtain ⟨hs, hl, -⟩ := placed_of_collect hpe hsvm hv ht.1 hp
    have hpe₁ : s₁.pe = some pe := by rw [hs]; exact hpe
    have hpo : s₁.world.poisoned = s.world.poisoned := by rw [hs]
    obtain rfl := eq_of_allocateArg_err hpe₁ hsvm hl ht.2.1 ha
    refine ⟨pre, pre', s', ht.1, hp, ?_, .inr ⟨e, rfl⟩⟩
    rw [granted_append_of_collect hpe hsvm hp, ← hpo,
      (granted_of_allocateArg_err hpe₁ hsvm ha post).2, add_zero]
  | (.panic, s') =>
    have hk := keeps_handleAllocates args s ⟨pe, hpe, hac⟩
    rw [h] at hk
    exact absurd rfl hk.1

theorem eq_of_requests_eq_zero {s' : JobState σ} {args' : List PEParameter}
    (h : collect allocateArg args s = (.ok args', s')) (hno : requests args = 0) : s' = s := by
  have hn : ∀ arg ∈ args, arg.isAlloc = false := fun arg ha =>
    Bool.eq_false_of_not_eq_true (countP_eq_zero.mp hno arg ha)
  rw [collect_of_reads (g := id) fun arg ha => allocateArg_of_not_isAlloc (hn arg ha) s,
    Prod.mk.injEq] at h
  exact h.2.symm

theorem localize_of_not_isLocal (pe : PE) (h : arg.isLocal = false) : localize pe arg = arg := by
  cases arg with
  | dataTransferLocal x => exact absurd h (by simp [isLocal])
  | _ => rfl

theorem localize_of_inert (pe : PE) (h : arg.inert = true) :
    localize pe arg = arg ∧ arg.isLocal = false ∧ arg.isAlloc = false := by
  cases arg with
  | dataTransferLocal x => exact absurd h (by simp [inert])
  | dataTransferAlloc x => exact absurd h (by simp [inert])
  | _ => exact ⟨rfl, rfl, rfl⟩

theorem refused_of_harmless [LawfulAllocator σ] {pe : PE} (hpe : s.pe = some pe)
    (hac : pe.active = true) (hv : Later s.world s.world) (ht : ∀ arg ∈ args, arg.WellTyped)
    (h : Harmless pe s.world.poisoned s.world.allocator args) : Refused args s := by
  refine ⟨exists_start_err ⟨pe, hpe, hac⟩ args, ?_⟩
  rw [start_eq]
  by_cases hmi : (∃ arg ∈ args, arg.isLocal = true) ∧ pe.localMemory = none
  · rw [bind_of_err (handleLocalMemories_eq_err hpe hmi.1 hmi.2)]
    exact ⟨rfl, rfl, rfl, rfl⟩
  have hme : ∀ arg ∈ args, arg.isLocal = true → pe.localMemory ≠ none :=
    fun arg ha hl hn => hmi ⟨⟨arg, ha, hl⟩, hn⟩
  rw [bind_of_ok (handleLocalMemories_eq_ok hpe hme)]
  obtain hm' | ⟨hsvm, hg, hso⟩ | rfl | ⟨hsvm, p, rest, rfl, hre⟩ := h
  · exact absurd hm' hmi
  · obtain ⟨pre, pre', s', -, hp, hr, hal | ⟨e, he⟩⟩ :=
      handleAllocates_granted hpe hac hsvm hv
        (forall_mem_map.mpr fun arg ha => wellTyped_localize (ht arg ha))
    · exact absurd (hal.2.symm.trans (hr.trans hg)) hso
    · obtain rfl := eq_of_requests_eq_zero hp (hr.trans hg)
      rw [bind_of_err he]
      exact ⟨rfl, rfl, rfl, rfl⟩
  · obtain ⟨e, he⟩ := startPe_of_busy ⟨pe, hpe, hac⟩
    have hs : setArguments 0 (List.map toRegister []) s = (.ok (), s) := rfl
    have haf : afterAllocates [] s = (.err e, s) := by
      rw [afterAllocates_of_ok (collect_nil transferArg s) rfl,
        bind_of_ok (handleStreamTransfers_of_none (by simp) true true s), bind_of_ok hs,
        bind_of_err he]
    have hpa : handleAllocates [] s = (.ok [], s) := rfl
    rw [map_nil, bind_of_ok hpa, haf]
    exact ⟨rfl, rfl, rfl, rfl⟩
  · have hi : ∀ arg ∈ virtualAddress p :: rest, arg.inert = true :=
      forall_mem_cons.mpr ⟨rfl, hre⟩
    have hm : (virtualAddress p :: rest).map (localize pe) =
        .virtualAddress p :: rest :=
      (map_congr_left fun arg ha => (localize_of_inert pe (hi arg ha)).1).trans
        (map_id _)
    have hpa : handleAllocates (.virtualAddress p :: rest) s =
        (.ok ((virtualAddress p :: rest).map id), s) :=
      collect_of_reads fun arg ha =>
        allocateArg_of_not_isAlloc (localize_of_inert pe (hi arg ha)).2.2 s
    rw [hm, bind_of_ok hpa, map_id]
    exact undisturbed_afterAllocates hpe hsvm p hre

end

/-! ### Launches with an effect -/

/-- The DMA engine carries out all transfers to the device. -/
def Obliging (w : World σ) : Prop :=
  ∀ i, w.env.copyTo i = .done

section

variable {s : JobState σ} {pe : PE} (hpe : s.pe = some pe)

include hpe

theorem exists_collect_transferArg (ho : Obliging s.world) (args : List PEParameter) :
    ∃ r, collect transferArg args s = (.ok r, { s with
          pe := some (noted pe ((preallocs args).flatMap (notesOf pe.svmInUse)))
          world := (preallocs args).foldl sent s.world }) ∧
      r.map Prod.fst = args.map toRegister := by
  obtain ⟨⟨i, hn⟩, -⟩ | hok := collect_transferArg_cases hpe args
  · exact absurd (ho i) hn
  · exact ⟨_, hok, map_map⟩

end

theorem argOffset_noted (pe : PE) (notes : List CopyBack) (k : ℕ) :
    argOffset (noted pe notes) k = argOffset pe k := by
  rw [argOffset, (noted_eq pe notes).1]
  rfl

/-- **The passes after the allocations**, if no transfer fails: transfers are sent and noted,
streams are noted, and the first value is written. -/
theorem exists_afterAllocates {pe : PE} (hpe : s.pe = some pe) (hac : pe.active = true)
    (ho : Obliging s.world) (args : List PEParameter) :
    ∃ xs : List DataTransferStream, ∃ regs, (afterAllocates args s).2 =
        { s with
          pe := some (noted pe ((preallocs args).flatMap (notesOf pe.svmInUse) ++
            xs.map CopyBack.stream))
          world := { (preallocs args).foldl sent s.world with registers := regs } } ∧
      ((∃ arg ∈ args, arg.isStream = true) → xs ≠ []) ∧
      ((∀ arg ∈ args, arg.isStream = false) → ∀ arg rest v, args = arg :: rest →
        valueOf pe.svmInUse (toRegister arg) = some v →
          ByteMem.Holds regs (argOffset pe 0) v.bytes) := by
  obtain ⟨r, hr, hf⟩ := exists_collect_transferArg hpe ho args
  rw [afterAllocates_of_ok hr hf]
  have hb : ∀ notes, (noted pe notes).active = true := fun notes =>
    (active_noted pe notes).trans hac
  have hst : ∀ arg ∈ args.map toRegister, arg.isStream = true →
      ∃ arg ∈ args, arg.isStream = true :=
    forall_mem_map.mpr fun arg har ht => ⟨arg, har, (isStream_toRegister arg).symm.trans ht⟩
  obtain ⟨r', xs, heq, hr'⟩ := handleStreamTransfers_spec (s := { s with
    pe := some (noted pe ((preallocs args).flatMap (notesOf pe.svmInUse)))
    world := (preallocs args).foldl sent s.world }) rfl true true (args.map toRegister)
  rw [← noted_append] at heq
  refine ⟨xs, ?_⟩
  obtain ⟨rfl, rfl⟩ | ⟨rfl, ⟨arg, har, ht⟩, hne⟩ := hr'
  · obtain ⟨regs, hre, hh⟩ := launch_registers (s := { s with
      pe := some (noted pe ((preallocs args).flatMap (notesOf pe.svmInUse) ++ _))
      world := (preallocs args).foldl sent s.world }) rfl (hb _) _ (r.flatMap Prod.snd)
    rw [bind_of_ok heq]
    refine ⟨regs, hre, ?_, ?_⟩
    · rintro ⟨arg, har, ht⟩ hn
      have ha := filterMap_eq_nil_iff.mp hn _ (mem_map_of_mem har)
      cases arg <;> simp_all [isStream, PEParameter.asStream, toRegister]
    · rintro hno arg rest v rfl hv
      rw [filter_eq_self.mpr ?_, svmInUse_noted, argOffset_noted] at hh
      · exact hh _ _ v rfl hv
      · exact forall_mem_map.mpr fun arg har => by simp [isStream_toRegister, hno arg har]
  · rw [bind_of_err heq]
    refine ⟨_, rfl, fun _ => hne rfl rfl, fun hno => ?_⟩
    obtain ⟨arg, har, ht⟩ := hst arg har ht
    exact absurd ((hno arg har).symm.trans ht) (by simp)

theorem bytes_foldl_sent {xs : List DataTransferPrealloc}
    (h : ∀ x ∈ xs, ¬ (x.toDevice = true ∧ x.data.bytes ≠ [])) (w : World σ) :
    (xs.foldl sent w).bytes = w.bytes := by
  induction xs generalizing w with
  | nil => rfl
  | cons x xs ih =>
    rw [forall_mem_cons] at h
    rw [foldl_cons, ih h.2, sent]
    by_cases ht : x.toDevice = true
    · have hn : x.data.bytes = [] := by_contra fun hne => h.1 ⟨ht, hne⟩
      rw [if_pos ht, hn, World.write, ByteMem.writeBytes_nil]
      exact Function.update_eq_self _ _
    · rw [if_neg ht]

/-- If a transfer has data, then the first byte of the last such transfer does not depend on what
was there before. -/
theorem exists_byte_foldl_sent {xs : List DataTransferPrealloc}
    (h : ∃ x ∈ xs, x.toDevice = true ∧ x.data.bytes ≠ []) :
    ∃ m a d, ∀ w : World σ, (xs.foldl sent w).bytes m a = d := by
  induction xs with
  | nil => simp at h
  | cons x xs ih =>
    by_cases hl : ∃ y ∈ xs, y.toDevice = true ∧ y.data.bytes ≠ []
    · obtain ⟨m, a, d, hd⟩ := ih hl
      exact ⟨m, a, d, fun w => hd (sent w x)⟩
    obtain ⟨ht, hne⟩ : x.toDevice = true ∧ x.data.bytes ≠ [] := by
      obtain ⟨y, hy, hda⟩ := h
      obtain rfl | hy := mem_cons.mp hy
      · exact hda
      · exact absurd ⟨y, hy, hda⟩ hl
    obtain ⟨b, l, hb⟩ := exists_cons_of_ne_nil hne
    refine ⟨x.memory, x.deviceAddress, b, fun w => ?_⟩
    rw [foldl_cons, bytes_foldl_sent (fun y hy hda => hl ⟨y, hy, hda⟩), sent,
      if_pos ht, World.write, hb]
    simp [ByteMem.writeBytes]

theorem Placing.ne {L L' : MemId → List Segment} {args' : List PEParameter}
    (h : Placing L args args' L') (hs : requests args ≠ 0) : L' ≠ L := by
  induction h with
  | nil L => exact absurd rfl hs
  | keep ha _ ih =>
    rw [requests, countP_cons_of_neg (by simp [ha])] at hs
    exact ih hs
  | @place L L' x a k args args' _ _ hr _ =>
    intro heq
    obtain ⟨l, hl⟩ := hr.exists_append x.memory
    have hlen := congrArg List.length hl
    rw [heq, Function.update_self] at hlen
    simp only [length_append, length_singleton] at hlen
    omega

section

variable [Allocator σ]

variable {pe : PE} {arg : PEParameter}

theorem allocator_ne_of_granted [LawfulAllocator σ] (hpe : s.pe = some pe) (ha : pe.active = true)
    (hsvm : pe.svmInUse = false) (hv : Later s.world s.world) (ht : ∀ arg ∈ args, arg.WellTyped)
    (hg : granted s.world.poisoned s.world.allocator args ≠ 0) :
    ((handleAllocates args >>= fun args => afterAllocates args) s).2.world.allocator ≠
      s.world.allocator := by
  obtain ⟨pre, pre', s', hpr, hp, hr, hpa⟩ := handleAllocates_granted hpe ha hsvm hv ht
  obtain ⟨hs, -, hpl⟩ := placed_of_collect hpe hsvm hv hpr hp
  have hk : ((handleAllocates args >>= fun args => afterAllocates args) s).2.world.allocator =
      s'.world.allocator := by
    obtain ⟨hok, -⟩ | ⟨e, he⟩ := hpa
    · have hb : Busy s' := ⟨pe, by rw [hs]; exact hpe, ha⟩
      rw [bind_of_ok hok]
      exact (keeps_afterAllocates pre' s' ⟨hb, rfl⟩).2.2
    · rw [bind_of_err he]
  intro heq
  exact hpl.ne (hr ▸ hg) (liveMap_congr (hk.symm.trans heq))

/-- The parameter after the second pass, if shared virtual memory is used. -/
def atHost : PEParameter → PEParameter
  | .dataTransferAlloc x => .dataTransferPrealloc (x.placedAt x.data.ptr)
  | arg => arg

theorem allocateArg_eq_atHost (hpe : s.pe = some pe)
    (h : pe.svmInUse = true ∨ arg.isAlloc = false) : allocateArg arg s = (.ok (atHost arg), s) := by
  cases arg with
  | dataTransferAlloc x =>
    have hsvm := h.resolve_right (by simp [isAlloc])
    have ha : allocateFor x s = (.ok x.data.ptr, s) := by
      refine (bind_of_ok (thePe_of_some hpe)).trans ?_
      rw [hsvm, if_pos rfl]
      rfl
    exact bind_of_ok ha
  | _ => rfl

/-- Surroundings in which no transfer fails, with the same byte everywhere in the memories and
in the registers. -/
def obliging (allocator : MemId → σ) (poisoned : MemId → Bool) (b ρ : Byte) : World σ where
  allocator
  poisoned
  bytes := fun _ _ => b
  registers := fun _ => ρ
  env := ⟨fun _ => .done, fun _ => .done, fun _ => .finished []⟩
  copyTos := 0
  copyFroms := 0
  joins := 0

omit [Allocator σ] in
/-- **What a launch without side effects is**, after the allocations: nothing is noted and no
data is sent, there are no streams, and the first parameter has no value. -/
theorem silent_of_undisturbed (hac : pe.active = true) (sch : JobScheduler) (al : MemId → σ)
    (po : MemId → Bool) (h : ∀ b ρ, Undisturbed ⟨some pe, sch, obliging al po b ρ⟩
      (afterAllocates args ⟨some pe, sch, obliging al po b ρ⟩).2) :
    (∀ x ∈ preallocs args, notesOf pe.svmInUse x = [] ∧ ¬ (x.toDevice = true ∧ x.data.bytes ≠ [])) ∧
      (∀ arg ∈ args, arg.isStream = false) ∧
      ∀ arg rest, args = arg :: rest → valueOf pe.svmInUse (toRegister arg) = none := by
  have haf := fun b ρ => exists_afterAllocates
    (s := ⟨some pe, sch, obliging al po b ρ⟩) rfl hac (fun _ => rfl) args
  have hq : (preallocs args).flatMap (notesOf pe.svmInUse) = [] ∧
      ∀ arg ∈ args, arg.isStream = false := by
    obtain ⟨xs, regs, heq, hs, -⟩ := haf 0 0
    have hn := (h 0 0).copyBack
    rw [heq] at hn
    have hl := (noted_eq pe ((preallocs args).flatMap (notesOf pe.svmInUse) ++
      xs.map CopyBack.stream)).2
    rw [Option.some.inj hn, self_eq_append_right, append_eq_nil_iff, map_eq_nil_iff] at hl
    refine ⟨hl.1, fun arg ha => Bool.eq_false_of_not_eq_true fun ht => ?_⟩
    exact hs ⟨arg, ha, ht⟩ hl.2
  have hu : ∀ x ∈ preallocs args, ¬ (x.toDevice = true ∧ x.data.bytes ≠ []) := by
    intro x hx hda
    obtain ⟨m, a, d, hd⟩ := exists_byte_foldl_sent (σ := σ) ⟨x, hx, hda⟩
    obtain ⟨xs, regs, heq, -⟩ := haf (d + 1) 0
    have hbyt := congrFun (congrFun (h (d + 1) 0).bytes m) a
    rw [heq] at hbyt
    have hne : d ≠ d + 1 := by simp
    exact hne ((hd _).symm.trans hbyt)
  refine ⟨fun x hx => ⟨flatMap_eq_nil_iff.mp hq.1 x hx, hu x hx⟩, hq.2, ?_⟩
  intro arg rest har
  by_contra hva
  obtain ⟨v, hv⟩ := Option.ne_none_iff_exists'.mp hva
  obtain ⟨b, l, hb⟩ : ∃ b l, v.bytes = b :: l := by
    cases v <;> exact ⟨_, _, rfl⟩
  obtain ⟨xs, regs, heq, -, hh⟩ := haf 0 (b + 1)
  have hr := congrFun (h 0 (b + 1)).registers (argOffset pe 0)
  rw [heq] at hr
  have hby := hh hq.2 arg rest v har hv
  rw [hb] at hby
  have hne : b ≠ b + 1 := by simp
  exact hne (hby.head.symm.trans hr)

theorem isAlloc_of_isLocal (h : arg.isLocal = true) (hme : pe.localMemory ≠ none) :
    (localize pe arg).isAlloc = true := by
  cases arg with
  | dataTransferLocal x =>
    obtain ⟨m, hm⟩ := Option.ne_none_iff_exists'.mp hme
    simp only [localize, hm]
    rfl
  | _ => exact absurd h (by simp [isLocal])

/-- A parameter whose register value is missing after all passes is a virtual address, and those
are not supported. -/
theorem eq_virtualAddress (hme : arg.isLocal = true → pe.localMemory ≠ none)
    (hs : arg.isStream = false)
    (hv : valueOf pe.svmInUse (toRegister (atHost (localize pe arg))) = none) :
    pe.svmInUse = false ∧ ∃ p, arg = .virtualAddress p := by
  cases arg with
  | virtualAddress p =>
    exact ⟨by simpa [localize, atHost, toRegister, valueOf] using hv, p, rfl⟩
  | dataTransferLocal x =>
    obtain ⟨m, hm⟩ := Option.ne_none_iff_exists'.mp (hme rfl)
    simp only [localize, hm] at hv
    exact absurd hv (by simp [atHost, toRegister, valueOf, argValue])
  | dataTransferStream x => exact absurd hs (by simp [isStream])
  | _ => exact absurd hv (by simp [localize, atHost, toRegister, valueOf, argValue])

theorem isStream_passes (pe : PE) (arg : PEParameter) :
    (atHost (localize pe arg)).isStream = arg.isStream := by
  cases arg with
  | dataTransferLocal x =>
    simp only [localize]
    cases pe.localMemory <;> rfl
  | _ => rfl

theorem inert_of_silent (hl : arg.isLocal = false) (ha : arg.isAlloc = false)
    (hst : arg.isStream = false) (hs : ∀ x, arg = .dataTransferPrealloc x → notesOf false x = [] ∧
      ¬ (x.toDevice = true ∧ x.data.bytes ≠ [])) : arg.inert = true := by
  cases arg with
  | dataTransferLocal x => exact absurd hl (by simp [isLocal])
  | dataTransferAlloc x => exact absurd ha (by simp [isAlloc])
  | dataTransferStream x => exact absurd hst (by simp [isStream])
  | dataTransferPrealloc x =>
    obtain ⟨hno, hd⟩ := hs x rfl
    have hfr : x.fromDevice = false := by
      cases hfr : x.fromDevice with
      | false => rfl
      | true => exact absurd hno (by simp [notesOf, noteOf, hfr])
    have hf : x.free = false := by
      cases hf : x.free with
      | false => rfl
      | true => exact absurd hno (by simp [notesOf, noteOf, hfr, hf])
    cases ht : x.toDevice with
    | false => simp [inert, hfr, hf, ht]
    | true =>
      have hn : x.data.bytes = [] := by_contra fun hne => hd ⟨ht, hne⟩
      simp [inert, hfr, hf, hn]
  | _ => rfl

/-- **A launch of a busy job that has no side effects**, whatever the memories and registers
contain, is harmless. -/
theorem harmless_of_refused [LawfulAllocator σ] (hac : pe.active = true) (sch : JobScheduler)
    {al : MemId → σ} {po : MemId → Bool} (hva : ∀ m, LawfulAllocator.Later (al m) (al m))
    (hty : ∀ arg ∈ args, arg.WellTyped) (h : ∀ w : World σ, w.allocator = al → w.poisoned = po →
      Refused args ⟨some pe, sch, w⟩) : Harmless pe po al args := by
  by_cases hmi : (∃ arg ∈ args, arg.isLocal = true) ∧ pe.localMemory = none
  · exact .inl hmi
  have hm : ∀ arg ∈ args, arg.isLocal = true → pe.localMemory ≠ none :=
    fun arg ha hl hno => hmi ⟨⟨arg, ha, hl⟩, hno⟩
  have hq : ∀ b ρ, Undisturbed ⟨some pe, sch, obliging al po b ρ⟩
      ((handleAllocates (args.map (localize pe)) >>= fun args => afterAllocates args)
        ⟨some pe, sch, obliging al po b ρ⟩).2 := by
    intro b ρ
    have hw := (h (obliging al po b ρ) rfl rfl).2
    rwa [start_eq, bind_of_ok (handleLocalMemories_eq_ok rfl hm)] at hw
  by_cases hso : pe.svmInUse = false ∧ requests (args.map (localize pe)) ≠ 0
  · refine .inr (.inl ⟨hso.1, ?_, hso.2⟩)
    by_contra hg
    exact allocator_ne_of_granted (s := ⟨some pe, sch, obliging al po 0 0⟩) rfl
      hac hso.1 hva
      (forall_mem_map.mpr fun arg ha => wellTyped_localize (hty arg ha)) hg
      (hq 0 0).allocator
  have hn : pe.svmInUse = false → ∀ arg ∈ args.map (localize pe), arg.isAlloc = false := by
    intro hsvm arg ha
    have hz := Classical.not_not.mp fun hne => hso ⟨hsvm, hne⟩
    exact Bool.eq_false_of_not_eq_true (countP_eq_zero.mp hz arg ha)
  have hpa : ∀ b ρ, handleAllocates (args.map (localize pe))
      ⟨some pe, sch, obliging al po b ρ⟩ =
        (.ok ((args.map (localize pe)).map atHost),
          ⟨some pe, sch, obliging al po b ρ⟩) := by
    refine fun b ρ => collect_of_reads fun arg ha => allocateArg_eq_atHost rfl ?_
    cases hsvm : pe.svmInUse with
    | true => exact .inl rfl
    | false => exact .inr (hn hsvm arg ha)
  have haf : ∀ b ρ, Undisturbed ⟨some pe, sch, obliging al po b ρ⟩
      (afterAllocates ((args.map (localize pe)).map atHost)
        ⟨some pe, sch, obliging al po b ρ⟩).2 := by
    intro b ρ
    have hb := hq b ρ
    rwa [bind_of_ok (hpa b ρ)] at hb
  obtain ⟨hp, hs, hv⟩ := silent_of_undisturbed hac sch al po haf
  cases args with
  | nil => exact .inr (.inr (.inl rfl))
  | cons arg rest =>
    have hst : ∀ arg' ∈ arg :: rest, arg'.isStream = false := by
      intro arg' ha'
      rw [← isStream_passes pe]
      exact hs _ (mem_map_of_mem (mem_map_of_mem ha'))
    rw [forall_mem_cons] at hst hm
    obtain ⟨hsvm, p, rfl⟩ := eq_virtualAddress hm.1 hst.1 (hv _ _ rfl)
    refine .inr (.inr (.inr ⟨hsvm, p, rest, rfl, fun arg ha => ?_⟩))
    have hal := hn hsvm _ (mem_map_of_mem (mem_cons_of_mem _ ha))
    have hl : arg.isLocal = false := Bool.eq_false_of_not_eq_true fun ht =>
      absurd (hal.symm.trans (isAlloc_of_isLocal ht (hm.2 arg ha ht))) (by simp)
    rw [localize_of_not_isLocal pe hl] at hal
    refine inert_of_silent hl hal (hst.2 arg ha) ?_
    rintro x rfl
    rw [hsvm] at hp
    refine hp x (mem_filterMap.mpr ⟨.dataTransferPrealloc x, ?_, rfl⟩)
    exact mem_map.mpr ⟨_, mem_map.mpr ⟨_, mem_cons_of_mem _ ha, rfl⟩, rfl⟩

/-- **A busy job refuses a launch without side effects exactly if the launch is harmless.** The
registers, the memories and the answers of the DMA engine are arbitrary. -/
theorem start_refused_iff [LawfulAllocator σ] {pe : PE} (hactive : pe.active = true)
    (scheduler : JobScheduler) (allocator : MemId → σ) (poisoned : MemId → Bool)
    (hvalid : ∀ m, LawfulAllocator.Later (allocator m) (allocator m)) (args : List PEParameter)
    (htyped : ∀ arg ∈ args, arg.WellTyped) :
    (∀ w : World σ, w.allocator = allocator → w.poisoned = poisoned →
      Refused args ⟨some pe, scheduler, w⟩) ↔ Harmless pe poisoned allocator args := by
  refine ⟨harmless_of_refused hactive scheduler hvalid htyped, ?_⟩
  rintro hharmless w rfl rfl
  exact refused_of_harmless (s := ⟨some pe, scheduler, w⟩) rfl hactive hvalid htyped hharmless

end

def runningJob : JobState GenericAllocator :=
  (start [.single32 7] sharedMemoryJob).2

/-- A virtual address is refused, a value is not. -/
theorem start_refused_running :
    (runningJob.pe.map PE.active = some true ∧
      ∀ w : World GenericAllocator, w.allocator = sharedMemoryJob.world.allocator →
        w.poisoned = sharedMemoryJob.world.poisoned →
        Refused [.virtualAddress 0x8000, .single32 5]
          ⟨some { sharedMemoryPe with active := true }, sharedMemoryJob.scheduler, w⟩) ∧
      ¬ ∀ w : World GenericAllocator, w.allocator = sharedMemoryJob.world.allocator →
        w.poisoned = sharedMemoryJob.world.poisoned →
        Refused [.single32 5]
          ⟨some { sharedMemoryPe with active := true }, sharedMemoryJob.scheduler, w⟩ := by
  have hactive : ({ sharedMemoryPe with active := true } : PE).active = true := rfl
  have hiff := start_refused_iff hactive sharedMemoryJob.scheduler sharedMemoryJob.world.allocator
    sharedMemoryJob.world.poisoned later_sharedMemoryJob
  refine ⟨⟨rfl, (hiff _ (by simp [PEParameter.WellTyped])).mpr ?_⟩,
    fun h => absurd ((hiff _ (by simp [PEParameter.WellTyped])).mp h) ?_⟩
  · exact .inr (.inr (.inr ⟨rfl, 0x8000, [.single32 5], rfl, by simp [inert]⟩))
  · simp [Harmless, isLocal, requests, localize, isAlloc]

/-- **A second start overwrites the argument of the running execution**, and then returns the
error. -/
theorem busy_job_disturbed :
    (start [.single32 7] sharedMemoryJob).1 = .ok [] ∧
      (start [.single32 5] runningJob).1 = .err (.peError (.peAlreadyActive 0)) ∧
      runningJob.world.registers (argOffset sharedMemoryPe 0) = 7 ∧
      (start [.single32 5] runningJob).2.world.registers (argOffset sharedMemoryPe 0) = 5 ∧
      ¬ Refused [.single32 5] runningJob := by
  have hbefore : runningJob.world.registers (argOffset sharedMemoryPe 0) = 7 := by decide
  have hafter : (start [.single32 5] runningJob).2.world.registers
      (argOffset sharedMemoryPe 0) = 5 := by decide
  refine ⟨rfl, rfl, hbefore, hafter, fun h => ?_⟩
  have hsame := congrFun h.2.registers (argOffset sharedMemoryPe 0)
  rw [hbefore, hafter] at hsame
  exact absurd hsame (by decide)

end Job

end Tapasco
