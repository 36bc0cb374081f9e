import Tapasco.JobHandOver
import Tapasco.JobLaunch

/-!
# The Buffers of a Launch

A launch takes the ownership of the buffers in its arguments, and hands them back in two
portions: some are returned by `start`, and the others by the release that follows. The
second portion travels in the list of work that is left for the time after the execution.
`ledger` is the part of a job that matters here: whether the PE uses shared virtual memory,
and the buffers in this list. Each pass of a launch says what it appends to it.

Buffers are named by their addresses on the host.
-/

open Exec List

namespace Tapasco

open Buffer PEParameter

/-- The buffer that comes back when this work is done. -/
def CopyBack.buffer : CopyBack → Option ℕ
  | .transfer x | .returned x => some x.data.ptr
  | .stream x => some x.data.ptr
  | .free _ _ => none

namespace PEParameter

/-- The buffer of a transfer that is no stream, and whether it is copied back. -/
def transfer : PEParameter → Option (Buffer × Bool)
  | .dataTransferLocal x => some (x.data, x.fromDevice)
  | .dataTransferAlloc x => some (x.data, x.fromDevice)
  | .dataTransferPrealloc x => some (x.data, x.fromDevice)
  | _ => none

def stream : PEParameter → Option Buffer
  | .dataTransferStream x => some x.data
  | _ => none

def buffer : PEParameter → Option Buffer
  | .dataTransferLocal x => some x.data
  | .dataTransferAlloc x => some x.data
  | .dataTransferPrealloc x => some x.data
  | .dataTransferStream x => some x.data
  | _ => none

/-- The buffer of a transfer that `start` has to return: nothing is copied back, and the
memory is not shared. -/
def returnedByStart (svm : Bool) (arg : PEParameter) : Option Buffer :=
  match arg.transfer with
  | some (b, fromDevice) => if svm || fromDevice then none else some b
  | none => none

/-- The buffer of a transfer that the release has to return. -/
def returnedByRelease (svm : Bool) (arg : PEParameter) : Option Buffer :=
  match arg.transfer with
  | some (b, fromDevice) => if svm || fromDevice then some b else none
  | none => none

/-- The data buffer, unless `start` returns it. -/
def keptForRelease (svm : Bool) (arg : PEParameter) : Option Buffer :=
  (arg.returnedByRelease svm).or arg.stream

end PEParameter

namespace Job

open PEParameter

variable {σ : Type} {args args' : List PEParameter} {svm : Bool}

/-- Whether the PE of a job uses shared virtual memory, and the buffers that are left for the
release. -/
def ledger (s : JobState σ) : Option (Bool × List ℕ) :=
  s.pe.map fun pe => (pe.svmInUse, (pe.copyBack.getD []).filterMap CopyBack.buffer)

/-- The addresses of the buffers that a function finds in the arguments, in their order. -/
def addresses (f : PEParameter → Option Buffer) (args : List PEParameter) : List ℕ :=
  args.filterMap fun arg => (f arg).map ptr

theorem addresses_cons (f : PEParameter → Option Buffer) (arg : PEParameter)
    (args : List PEParameter) :
    addresses f (arg :: args) = ((f arg).map ptr).toList ++ addresses f args := by
  rw [addresses, filterMap_cons]
  cases f arg <;> rfl

theorem exists_of_ledger {s : JobState σ} {l : List ℕ}
    (h : ledger s = some (svm, l)) : ∃ pe, s.pe = some pe ∧ pe.svmInUse = svm ∧
      (pe.copyBack.getD []).filterMap CopyBack.buffer = l := by
  obtain ⟨pe, hpe, heq⟩ := Option.map_eq_some_iff.mp h
  exact ⟨pe, hpe, congrArg Prod.fst heq, congrArg Prod.snd heq⟩

/-! ### The passes of a launch -/

section

variable {s s' : JobState σ} {svm : Bool} {l : List ℕ} (hs : ledger s = some (svm, l))

include hs

theorem ledger_noted {pe : PE} (hpe : s.pe = some pe) (notes : List CopyBack)
    (hs' : s'.pe = some (noted pe notes)) :
    ledger s' = some (svm, l ++ notes.filterMap CopyBack.buffer) := by
  obtain ⟨pe', hp', rfl, rfl⟩ := exists_of_ledger hs
  obtain rfl : pe' = pe := Option.mem_unique hp' hpe
  rw [ledger, hs', Option.map_some, svmInUse_noted, (noted_eq pe' notes).2, filterMap_append]

omit hs in
/-- **The notes of the third pass** have the buffers that the release has to return. -/
theorem filterMap_buffer_notes (ha : ∀ arg ∈ args, arg.isLocal = false ∧ arg.isAlloc = false) :
    ((preallocs args).flatMap (notesOf svm)).filterMap CopyBack.buffer =
        addresses (returnedByRelease svm) args ∧
      (args.map (registered svm)).flatMap Prod.snd = args.filterMap (returnedByStart svm) := by
  induction args with
  | nil => exact ⟨rfl, rfl⟩
  | cons arg args ih =>
    rw [forall_mem_cons] at ha
    obtain ⟨hr, hst⟩ := ih ha.2
    rw [addresses_cons, ← hr, map_cons, flatMap_cons, hst, filterMap_cons]
    cases arg with
    | dataTransferPrealloc x =>
      rw [preallocs_cons_prealloc, flatMap_cons, filterMap_append]
      cases svm <;> cases hf : x.fromDevice <;> cases hfr : x.free <;>
        simp [registered, unusedOf, notesOf, noteOf, CopyBack.buffer, returnedByStart,
          returnedByRelease, transfer, hf, hfr]
    | dataTransferLocal x => simp [isLocal] at ha
    | dataTransferAlloc x => simp [isAlloc] at ha
    | _ => cases svm <;> exact ⟨rfl, rfl⟩

theorem handleTransfersToDevice_ledger
    (ha : ∀ arg ∈ args, arg.isLocal = false ∧ arg.isAlloc = false)
    {r : List PEParameter × List Buffer} (h : handleTransfersToDevice args s = (.ok r, s')) :
    r = (args.map toRegister, args.filterMap (returnedByStart svm)) ∧
      ledger s' = some (svm, l ++ addresses (returnedByRelease svm) args) := by
  obtain ⟨pe, hpe, rfl, -⟩ := exists_of_ledger hs
  obtain ⟨rs, s₁, hc, hp⟩ := bind_eq_ok_iff.mp h
  obtain ⟨rfl, rfl⟩ := collect_transferArg_ok hpe hc
  obtain ⟨rfl, rfl⟩ := ok_inj hp
  obtain ⟨hr, hst⟩ := @filterMap_buffer_notes args pe.svmInUse ha
  rw [ledger_noted hs hpe _ rfl, hr, hst]
  exact ⟨congrArg (·, _) map_map, rfl⟩

omit hs in
theorem handleStreamTransfers_ledger (hs : ledger s = some (svm, l)) {c2h h2c : Bool}
    (h : handleStreamTransfers c2h h2c args s = (.ok args', s')) :
    ledger s' = some (svm, l ++ addresses stream args) := by
  obtain ⟨pe, hpe, -⟩ := exists_of_ledger hs
  obtain ⟨r, xs, heq, hr⟩ := handleStreamTransfers_spec hpe c2h h2c args
  obtain ⟨rfl, rfl⟩ := Prod.mk.inj (heq.symm.trans h)
  obtain ⟨-, rfl⟩ : args' = _ ∧ xs = _ := by simpa using hr
  rw [ledger_noted hs hpe _ rfl, map_filterMap, filterMap_filterMap, addresses]
  refine congrArg (fun k => some (svm, l ++ k)) (filterMap_congr fun arg _ => ?_)
  cases arg <;> rfl

end

/-! ### Who returns a buffer -/

theorem transfer_or_stream (svm : Bool) (arg : PEParameter) :
    (arg.returnedByRelease svm).map ptr = none ∨ arg.stream.map ptr = none := by
  cases arg <;> simp [returnedByRelease, transfer, stream]

theorem stream_ne_none_iff (arg : PEParameter) : arg.stream ≠ none ↔ arg.isStream = true := by
  cases arg <;> simp [stream, isStream]

theorem addresses_keptForRelease (svm : Bool) (args : List PEParameter) :
    addresses (keptForRelease svm) args = args.filterMap (Lists.either
      (fun arg => (arg.returnedByRelease svm).map ptr)
      fun arg => arg.stream.map ptr) := by
  refine filterMap_congr fun arg _ => ?_
  rw [keptForRelease, Lists.either]
  cases arg.returnedByRelease svm <;> rfl

theorem addresses_keptForRelease_perm (svm : Bool) (args : List PEParameter) :
    (addresses (returnedByRelease svm) args ++ addresses stream args).Perm
        (addresses (keptForRelease svm) args) := by
  rw [addresses_keptForRelease]
  exact Lists.filterMap_append_perm (transfer_or_stream svm) args

theorem addresses_buffer_perm (svm : Bool) (args : List PEParameter) :
    (addresses (returnedByStart svm) args ++
      addresses (keptForRelease svm) args).Perm
        (addresses buffer args) := by
  have hex : ∀ arg : PEParameter, (arg.returnedByStart svm).map ptr = none ∨
      (arg.keptForRelease svm).map ptr = none := by
    intro arg
    cases arg with
    | dataTransferLocal x | dataTransferAlloc x | dataTransferPrealloc x =>
      cases h : svm || x.fromDevice <;>
        simp [returnedByStart, keptForRelease, stream, returnedByRelease, transfer, h]
    | _ => exact .inl rfl
  have hb : addresses buffer args = args.filterMap (Lists.either
      (fun arg => (arg.returnedByStart svm).map ptr)
      fun arg => (arg.keptForRelease svm).map ptr) := by
    refine filterMap_congr fun arg _ => ?_
    cases arg with
    | dataTransferLocal x | dataTransferAlloc x | dataTransferPrealloc x =>
      cases h : svm || x.fromDevice <;>
        simp [returnedByStart, keptForRelease, stream, returnedByRelease, transfer, buffer,
          Lists.either, h]
    | _ => rfl
  rw [hb]
  exact Lists.filterMap_append_perm hex args

/-! ### A launch -/

theorem ledger_world (s : JobState σ) (w : World σ) : ledger { s with world := w } = ledger s :=
  rfl

/-- What the first two passes keep of a parameter. -/
def SameBuffer (arg arg' : PEParameter) : Prop :=
  arg'.transfer = arg.transfer ∧ arg'.stream = arg.stream

theorem sameBuffer_localize (pe : PE) (arg : PEParameter) : SameBuffer arg (localize pe arg) := by
  cases arg with
  | dataTransferLocal x =>
    rw [localize]
    split <;> exact ⟨rfl, rfl⟩
  | _ => exact ⟨rfl, rfl⟩

theorem filterMap_congr_of_sameBuffer {α : Type} {f : PEParameter → Option α}
    (hf : ∀ arg arg', SameBuffer arg arg' → f arg' = f arg)
    (h : List.Forall₂ SameBuffer args args') : args'.filterMap f = args.filterMap f := by
  induction h with
  | nil => rfl
  | cons hab _ ih => rw [filterMap_cons, filterMap_cons, hf _ _ hab, ih]

theorem returnedByStart_congr (arg arg' : PEParameter) (h : SameBuffer arg arg') :
    arg'.returnedByStart svm = arg.returnedByStart svm := by
  rw [returnedByStart, returnedByStart, h.1]

theorem returnedByRelease_congr (arg arg' : PEParameter) (h : SameBuffer arg arg') :
    arg'.returnedByRelease svm = arg.returnedByRelease svm := by
  rw [returnedByRelease, returnedByRelease, h.1]

theorem startPe_ledger {s s' : JobState σ} (h : startPe s = (.ok (), s')) :
    ledger s' = ledger s ∧ s'.pe ≠ none := by
  cases hpe : s.pe with
  | none =>
    have hp : thePe s = (.panic, s) := by rw [thePe, hpe]
    have hstart : startPe s = (.panic, s) := bind_of_panic hp
    exact absurd (hstart.symm.trans h) (by simp)
  | some pe =>
    rw [startPe_eq hpe] at h
    split at h
    · simp at h
    · obtain ⟨-, rfl⟩ := Prod.mk.inj h
      refine ⟨?_, by simp⟩
      rw [ledger, ledger, hpe]
      rfl

theorem addresses_stream_map_toRegister (args : List PEParameter) :
    addresses stream (args.map toRegister) = addresses stream args := by
  rw [addresses, filterMap_map]
  refine filterMap_congr fun arg _ => ?_
  cases arg <;> rfl

section

variable [Allocator σ]

variable {s s' : JobState σ}

theorem forall₂_of_handleAllocates (h : handleAllocates args s = (.ok args', s')) :
    List.Forall₂ SameBuffer args args' ∧
      ((∀ arg ∈ args, arg.isLocal = false) →
        ∀ arg ∈ args', arg.isLocal = false ∧ arg.isAlloc = false) := by
  rw [handleAllocates] at h
  induction args generalizing s args' with
  | nil =>
    obtain ⟨rfl, rfl⟩ := ok_inj h
    exact ⟨.nil, by simp⟩
  | cons arg args ih =>
    obtain ⟨arg', s₁, rest, ha, hr, rfl⟩ := collect_eq_ok_cons.mp h
    obtain ⟨hs, hk⟩ := ih hr
    have ho : SameBuffer arg arg' ∧
        (arg.isLocal = false → arg'.isLocal = false ∧ arg'.isAlloc = false) := by
      cases arg with
      | dataTransferAlloc x =>
        obtain ⟨a, s₂, -, hp⟩ := bind_eq_ok_iff.mp ha
        obtain ⟨rfl, rfl⟩ := ok_inj hp
        exact ⟨⟨rfl, rfl⟩, fun _ => ⟨rfl, rfl⟩⟩
      | _ =>
        obtain ⟨rfl, rfl⟩ := ok_inj ha
        exact ⟨⟨rfl, rfl⟩, fun hl => ⟨hl, rfl⟩⟩
    refine ⟨.cons ho.1 hs, fun hl => ?_⟩
    rw [forall_mem_cons] at hl ⊢
    exact ⟨ho.2 hl.1, hk hl.2⟩

/-- **A launch**: `start` returns the buffers of the transfers that are not copied back, and
leaves the other transfers and then the streams for the release. -/
theorem start_ledger {r : List Buffer} (h : start args s = (.ok r, s')) :
    ∃ svm l, ledger s = some (svm, l) ∧ r = args.filterMap (returnedByStart svm) ∧
      ledger s' = some (svm, l ++ (addresses (returnedByRelease svm) args ++
        addresses stream args)) := by
  obtain ⟨s₅, hprep, h₆⟩ := exists_prepare_of_start h
  obtain ⟨args₁, s₁, args₂, s₂, args₃, s₃, args₄, s₄, h₁, h₂, h₃, h₄, h₅⟩ :=
    exists_passes_of_prepare hprep
  obtain ⟨hl, hso⟩ := startPe_ledger h₆
  have hc : custody s' = custody s := by
    have := custody_start args s
    rwa [h] at this
  obtain ⟨pe, hpe⟩ : ∃ pe, s.pe = some pe := by
    refine Option.ne_none_iff_exists'.mp fun hn => hso ?_
    have := congrArg Prod.fst hc
    rwa [custody, custody, hn, Option.map_none, Option.map_eq_none_iff] at this
  obtain ⟨svm, l, hs⟩ : ∃ svm l, ledger s = some (svm, l) := by
    rw [ledger, hpe]
    exact ⟨_, _, rfl⟩
  have hlo := not_isLocal_of_handleLocalMemories hpe h₁
  obtain ⟨rfl, rfl⟩ := map_localize_of_handleLocalMemories hpe h₁
  obtain ⟨hsa, hk⟩ := forall₂_of_handleAllocates h₂
  have hb : List.Forall₂ SameBuffer args args₂ := by
    rw [forall₂_map_left_iff] at hsa
    exact hsa.imp fun arg arg' h =>
      ⟨h.1.trans (sameBuffer_localize pe arg).1, h.2.trans (sameBuffer_localize pe arg).2⟩
  have hs₂ : ledger s₂ = some (svm, l) := by
    have hf : ledger (handleAllocates (args.map (localize pe)) s₁).2 = ledger s₁ :=
      (obeys_collect (F := .same ledger) (fun arg _ => obeys_allocateArg (fun _ => False.elim)
        ledger_world arg) s₁).1
    rwa [h₂, hs] at hf
  obtain ⟨hr, hs₃⟩ := handleTransfersToDevice_ledger hs₂ (hk hlo) h₃
  obtain ⟨rfl, rfl⟩ := Prod.mk.inj hr
  have hs₄ := handleStreamTransfers_ledger hs₃ h₄
  have hs₅ : ledger s₅ = ledger s₄ := by
    have := (obeys_setArguments (F := .same ledger) (fun _ => False.elim)
      (fun s w _ => ledger_world s w) 0 args₄ s₄).1
    rwa [h₅] at this
  refine ⟨svm, l, hs, filterMap_congr_of_sameBuffer returnedByStart_congr hb, ?_⟩
  have hre : addresses (returnedByRelease svm) args₂ =
      addresses (returnedByRelease svm) args :=
    filterMap_congr_of_sameBuffer
      (fun arg arg' h => congrArg (Option.map ptr) (returnedByRelease_congr arg arg' h))
      hb
  have hst : addresses stream args₂ = addresses stream args :=
    filterMap_congr_of_sameBuffer
      (fun arg arg' h => congrArg (Option.map ptr) h.2) hb
  rw [hl, hs₅, hs₄, addresses_stream_map_toRegister, append_assoc, hre, hst]

/-! ### A release -/

theorem copyBackOne_buffer {c : CopyBack} {bs : List Buffer} (h : copyBackOne c s = (.ok bs, s')) :
    bs.map ptr = c.buffer.toList := by
  cases c with
  | transfer x =>
    obtain ⟨bytes, s₁, -, h⟩ := bind_eq_ok_iff.mp h
    split at h
    · obtain ⟨_, s₂, -, h⟩ := bind_eq_ok_iff.mp h
      obtain ⟨rfl, -⟩ := ok_inj h
      rfl
    · obtain ⟨rfl, -⟩ := ok_inj h
      rfl
  | free addr mem =>
    obtain ⟨_, s₁, -, h⟩ := bind_eq_ok_iff.mp h
    obtain ⟨rfl, -⟩ := ok_inj h
    rfl
  | stream x =>
    obtain ⟨y, s₁, hj, h⟩ := bind_eq_ok_iff.mp h
    obtain ⟨rfl, -⟩ := ok_inj h
    have hp : y.data.ptr = x.data.ptr := by
      rw [joinStream] at hj
      split at hj
      · obtain ⟨rfl, -⟩ := ok_inj hj
        dsimp only
        split <;> rfl
      · simp at hj
      · simp at hj
    rw [map_cons, map_nil, hp]
    rfl
  | returned x =>
    obtain ⟨rfl, -⟩ := ok_inj h
    rfl

theorem collect_copyBackOne_buffer {cs : List CopyBack} {res : List (List Buffer)}
    (h : collect copyBackOne cs s = (.ok res, s')) :
    res.flatten.map ptr = cs.filterMap CopyBack.buffer := by
  induction cs generalizing s res with
  | nil =>
    obtain ⟨rfl, -⟩ := ok_inj h
    rfl
  | cons c cs ih =>
    obtain ⟨bs, s₁, rest, hc, hr, rfl⟩ := collect_eq_ok_cons.mp h
    rw [flatten_cons, map_append, copyBackOne_buffer hc, ih hr, filterMap_cons]
    cases c.buffer <;> rfl

variable {r : ℕ × List Buffer}

theorem handleCopyback_buffer {rv : ℕ} {cb : Option (List CopyBack)}
    (h : handleCopyback rv cb s = (.ok r, s')) :
    r.2.map ptr = (cb.getD []).filterMap CopyBack.buffer := by
  cases cb with
  | none =>
    obtain ⟨rfl, -⟩ := ok_inj h
    rfl
  | some cs =>
    obtain ⟨res, s₁, hr, h⟩ := bind_eq_ok_iff.mp h
    obtain ⟨rfl, -⟩ := ok_inj h
    exact collect_copyBackOne_buffer hr

theorem copyBack_waitForCompletion (pe : PE) (irq : InterruptReply) (regs : ByteMem) :
    (pe.waitForCompletion irq regs).2.1.copyBack = pe.copyBack := by
  simp only [PE.waitForCompletion]
  split
  · cases irq <;> rfl
  · rfl

variable {returnValue : Bool} {irq : InterruptReply}

theorem copyBack_of_release {pe pe' : PE} {regs regs' : ByteMem} {work : ℕ × Option (List CopyBack)}
    (h : pe.release returnValue irq regs = (.ok work, pe', regs')) : work.2 = pe.copyBack := by
  have hwa := copyBack_waitForCompletion pe irq regs
  rw [PE.release] at h
  rcases hw : pe.waitForCompletion irq regs with ⟨e | _, pe₁, r₁⟩ <;> rw [hw] at h hwa
  · simp at h
  · obtain ⟨hwo, -⟩ := Prod.mk.inj h
    obtain rfl := Except.ok.inj hwo
    exact hwa

variable {releasePe : Bool}

omit [Allocator σ] in
theorem exists_of_giveBack_then {α : Type} {k : JobM σ α} {a : α} (h : (do
      if releasePe then giveBack
      k : JobM σ α) s = (.ok a, s')) : ∃ s₁, k s₁ = (.ok a, s') := by
  cases releasePe with
  | false => exact ⟨s, h⟩
  | true =>
    obtain ⟨_, s₁, -, h⟩ := bind_eq_ok_iff.mp h
    exact ⟨s₁, h⟩

theorem release_ledger {l : List ℕ} (hs : ledger s = some (svm, l))
    (h : release irq releasePe returnValue s = (.ok r, s')) : r.2.map ptr = l := by
  obtain ⟨pe, hpe, -, rfl⟩ := exists_of_ledger hs
  obtain ⟨work, s₁, hh, hc⟩ := bind_eq_ok_iff.mp h
  simp only [handOver, hpe] at hh
  rcases hr : pe.release returnValue irq s.world.registers with ⟨e | work', pe', regs⟩ <;>
    rw [hr] at hh
  · simp at hh
  · obtain ⟨_, hp⟩ := exists_of_giveBack_then hh
    obtain ⟨rfl, -⟩ := ok_inj hp
    rw [← copyBack_of_release hr]
    exact handleCopyback_buffer hc

theorem tryRelease_ledger {l : List ℕ} (hs : ledger s = some (svm, l))
    (h : tryRelease irq releasePe returnValue s = (.ok (some r), s')) : r.2.map ptr = l := by
  obtain ⟨-, ht⟩ | ht := tryRelease_cases irq releasePe returnValue s <;> rw [ht] at h
  · simp at h
  · obtain ⟨r', s₂, hr, hp⟩ := bind_eq_ok_iff.mp h
    obtain ⟨hr', -⟩ := Prod.mk.inj hp
    obtain rfl := Option.some.inj (Outcome.ok.inj hr')
    exact release_ledger hs hr

/-! ### Ownership -/

/-- A release, or an attempt that succeeds, with its result. -/
def Released (irq : InterruptReply) (releasePe returnValue : Bool) (s : JobState σ)
    (r : ℕ × List Buffer) : Prop :=
  (∃ s', release irq releasePe returnValue s = (.ok r, s')) ∨
    ∃ s', tryRelease irq releasePe returnValue s = (.ok (some r), s')

theorem released_of_fst (h : (release irq releasePe returnValue s).1 = .ok r) :
    Released irq releasePe returnValue s r :=
  .inl ⟨(release irq releasePe returnValue s).2, Prod.ext h rfl⟩

section

variable {s s₁ s₂ : JobState σ} {pe : PE} {args : List PEParameter} {unused : List Buffer}
  {irq : InterruptReply} {releasePe returnValue : Bool} {r : ℕ × List Buffer}
  (hpe : s.pe = some pe) (hstart : start args s = (.ok unused, s₁))
  (hnotes : s₂.pe.map PE.copyBack = s₁.pe.map PE.copyBack)
  (hreleased : Released irq releasePe returnValue s₂ r)

include hpe hstart hnotes hreleased

/-- **A launch and the release**: the buffers that were left before, then those of the transfers,
then those of the streams. -/
theorem released_eq :
    unused = args.filterMap (returnedByStart pe.svmInUse) ∧
      r.2.map ptr = (pe.copyBack.getD []).filterMap CopyBack.buffer ++
        (addresses (returnedByRelease pe.svmInUse) args ++
          addresses stream args) := by
  obtain ⟨svm, l, hs, hu, hs₁⟩ := start_ledger hstart
  rw [ledger, hpe] at hs
  obtain ⟨rfl, rfl⟩ := Prod.mk.inj (Option.some.inj hs)
  refine ⟨hu, ?_⟩
  obtain ⟨pe₁, hp, -, hl⟩ := exists_of_ledger hs₁
  obtain ⟨pe₂, hpe₂, hc⟩ : ∃ pe₂, s₂.pe = some pe₂ ∧ pe₂.copyBack = pe₁.copyBack := by
    rw [hp] at hnotes
    exact Option.map_eq_some_iff.mp hnotes
  have hs₂ : ledger s₂ = some (pe₂.svmInUse, (pe₁.copyBack.getD []).filterMap CopyBack.buffer) := by
    rw [ledger, hpe₂, ← hc]
    rfl
  rw [← hl]
  rcases hreleased with ⟨s', hr⟩ | ⟨s', ht⟩
  · exact release_ledger hs₂ hr
  · exact tryRelease_ledger hs₂ ht

/-- **Ownership is linear**: every buffer that was passed in comes back exactly once. `start`
returns those of the transfers that are neither streams nor copied back nor shared, and the release,
after what was left before, all others. -/
theorem buffers_returned_once :
    ∃ later, r.2.map ptr =
        (pe.copyBack.getD []).filterMap CopyBack.buffer ++ later ∧
      unused = args.filterMap (returnedByStart pe.svmInUse) ∧
      later.Perm (addresses (keptForRelease pe.svmInUse) args) ∧
      (unused.map ptr ++ later).Perm (addresses buffer args) := by
  obtain ⟨hunused, hr⟩ := released_eq hpe hstart hnotes hreleased
  have hkept := addresses_keptForRelease_perm pe.svmInUse args
  refine ⟨_, hr, hunused, hkept, ?_⟩
  rw [hunused, map_filterMap]
  exact (hkept.append_left _).trans (addresses_buffer_perm pe.svmInUse args)

end

end

theorem buffers_returned_once_shared_memory :
    ∃ later, [0x7000, 0x6000] = [] ++ later ∧
      [⟨0x5000, [1, 2, 3]⟩] = sharedMemoryArgs.filterMap (returnedByStart false) ∧
      later.Perm (addresses (keptForRelease false) sharedMemoryArgs) ∧
      ([0x5000] ++ later).Perm (addresses buffer sharedMemoryArgs) := by
  have hstart : (start sharedMemoryArgs sharedMemoryJob).1 = .ok [⟨0x5000, [1, 2, 3]⟩] := rfl
  have hrelease : (release (.ok 1) true false (start sharedMemoryArgs sharedMemoryJob).2).1 =
        .ok (0, [⟨0x7000, [4, 5]⟩, ⟨0x6000, [9]⟩]) := by decide +kernel
  have hpe : sharedMemoryJob.pe = some sharedMemoryPe := rfl
  have hreleased : Released (.ok 1) true false (start sharedMemoryArgs sharedMemoryJob).2
      (0, [⟨0x7000, [4, 5]⟩, ⟨0x6000, [9]⟩]) := released_of_fst hrelease
  exact buffers_returned_once hpe (Prod.ext hstart rfl) rfl hreleased

section

variable [Allocator σ] {s s₁ s₂ : JobState σ} {pe : PE} {args : List PEParameter}
  {unused : List Buffer} {irq : InterruptReply} {releasePe returnValue : Bool}
  {r : ℕ × List Buffer}

/-- **The order of the results** is the one of the arguments if no stream stands before a
transfer that the release returns, and for distinct buffers only then. -/
theorem released_in_order_iff (hpe : s.pe = some pe) (hstart : start args s = (.ok unused, s₁))
    (hnotes : s₂.pe.map PE.copyBack = s₁.pe.map PE.copyBack)
    (hreleased : Released irq releasePe returnValue s₂ r) :
    (args.Pairwise (fun x y => x.isStream = true → y.returnedByRelease pe.svmInUse = none) →
      r.2.map ptr = (pe.copyBack.getD []).filterMap CopyBack.buffer ++
        addresses (keptForRelease pe.svmInUse) args) ∧
    ((addresses (keptForRelease pe.svmInUse) args).Nodup →
      r.2.map ptr = (pe.copyBack.getD []).filterMap CopyBack.buffer ++
        addresses (keptForRelease pe.svmInUse) args →
      args.Pairwise (fun x y => x.isStream = true → y.returnedByRelease pe.svmInUse = none)) := by
  obtain ⟨-, hr⟩ := released_eq hpe hstart hnotes hreleased
  have hexcl := transfer_or_stream pe.svmInUse
  have hstep : ∀ x y : PEParameter,
      (x.stream.map ptr ≠ none → (y.returnedByRelease pe.svmInUse).map ptr = none) ↔
      (x.isStream = true → y.returnedByRelease pe.svmInUse = none) := by
    intro x y
    rw [Option.map_eq_none_iff, ne_eq, Option.map_eq_none_iff, ← ne_eq, stream_ne_none_iff]
  rw [hr, addresses_keptForRelease]
  refine ⟨fun h => ?_, fun hnodup heq => ?_⟩
  · rw [← Lists.filterMap_append_eq hexcl (h.imp fun hxy => (hstep _ _).mpr hxy)]
    rfl
  · exact (Lists.pairwise_of_filterMap_append_eq hexcl hnodup
      (append_cancel_left heq)).imp fun hxy => (hstep _ _).mp hxy

end

/-- The arguments of the shared memory launch without the stream before the transfer. -/
theorem released_in_order_shared_memory :
    [0x7000] = [] ++
      addresses (keptForRelease false) (sharedMemoryArgs.filter (!·.isStream)) := by
  have hstart : (start (sharedMemoryArgs.filter (!·.isStream)) sharedMemoryJob).1 =
      .ok [⟨0x5000, [1, 2, 3]⟩] := rfl
  have hrelease : (release (.ok 1) true false
      (start (sharedMemoryArgs.filter (!·.isStream)) sharedMemoryJob).2).1 =
        .ok (0, [⟨0x7000, [4, 5]⟩]) := by decide +kernel
  have hpe : sharedMemoryJob.pe = some sharedMemoryPe := rfl
  have hreleased : Released (.ok 1) true false
      (start (sharedMemoryArgs.filter (!·.isStream)) sharedMemoryJob).2
      (0, [⟨0x7000, [4, 5]⟩]) := released_of_fst hrelease
  refine (released_in_order_iff hpe (Prod.ext hstart rfl) rfl hreleased).1 ?_
  simp [sharedMemoryArgs, isStream]

/-- **A stream comes back last**: of a stream and a transfer after it, the release returns the
transfer first. -/
theorem stream_returned_after_transfer :
    (start sharedMemoryArgs sharedMemoryJob).1 = .ok [⟨0x5000, [1, 2, 3]⟩] ∧
      (release (.ok 1) true false (start sharedMemoryArgs sharedMemoryJob).2).1 =
        .ok (0, [⟨0x7000, [4, 5]⟩, ⟨0x6000, [9]⟩]) ∧
      addresses (keptForRelease false) sharedMemoryArgs = [0x6000, 0x7000] :=
  ⟨rfl, by decide +kernel, rfl⟩

end Job

end Tapasco
