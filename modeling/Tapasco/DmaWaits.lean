import Tapasco.UserSpaceDma

/-!
# What a DMA Call Waits For

A call of `copy_to` ends with a wait for the transfer `highest_used`, and a call of `copy_from`
waits for the transfers in `used_buffers`. A call that reads has issued all transfers that it
waits for. A call that writes has the number from the counter of transfers if it has issued
any; if its data are empty it has the number 0, and waits for the first transfer of the
channel, whether there is one or not.
-/

open Threads List

namespace Tapasco

namespace CopyTo

/-- The call is in the loop of `wait_for_write` for its last transfer. -/
def Pc.inLastWait : Pc → Bool
  | .waitCheck next | .waitRead next | .waitCount next _ | .waitPop next _ => !next
  | .waitPush next _ _ => !next
  | _ => false

def Pc.issuedAll : Pc → Bool
  | .waitEnter next => !next
  | pc => pc.inLastWait

def awaited (c : CopyTo) : List ℕ :=
  if c.pc.inLastWait then [c.highestUsed] else []

/-- `highest_used`, where `n` transfers were issued: the number of one of them as soon as the call
has issued any, and 0 before. -/
structure Waitable (n : ℕ) (c : CopyTo) : Prop where
  started : c.btt = c.data.length ∨ c.highestUsed < n
  initial : c.highestUsed = 0 ∨ c.highestUsed < n
  issuedAll : c.pc.issuedAll = true → c.btt = 0

theorem Waitable.mono {n n' : ℕ} {c : CopyTo} (h : Waitable n c) (hle : n ≤ n') :
    Waitable n' c where
  started := h.started.imp_right fun hlt => lt_of_lt_of_le hlt hle
  initial := h.initial.imp_right fun hlt => lt_of_lt_of_le hlt hle
  issuedAll := h.issuedAll

section

variable (t : ℕ) (reply : Reply) (s : Shared) (c : CopyTo)

theorem btt_step (h : c.pc ≠ .count) : (step t reply s c).2.btt = c.btt := by
  fun_cases step t reply s c <;> first | rfl | exact absurd ‹_› h

theorem issuedAll_step (h : c.pc.issuedAll = true → c.btt = 0) :
    (step t reply s c).2.pc.issuedAll = true → (step t reply s c).2.btt = 0 := by
  fun_cases step t reply s c <;>
    simp_all [goto, dropBuffer, Pc.issuedAll, Pc.inLastWait]

theorem inLastWait_step (h : (step t reply s c).2.pc.inLastWait = true) :
    c.pc.inLastWait = true ∨ c.pc = .waitEnter false ∧ (c.stream = true → s.isVersal = true) := by
  revert h
  fun_cases step t reply s c <;> simp_all [goto, dropBuffer, Pc.inLastWait]

theorem inLastWait_of_waitEnter (hpc : c.pc = .waitEnter false)
    (hs : c.stream = true → s.isVersal = true) : (step t reply s c).2.pc.inLastWait = true := by
  have hsu : ¬ (c.stream = true ∧ s.isVersal = false) := fun h => by
    rw [hs h.1] at h
    exact absurd h.2 (by decide)
  simp [step, hpc, hsu, goto, Pc.inLastWait]

theorem length_issued_le_step (st : Bool) : (s.channel st).engine.issued.length ≤
    ((step t reply s c).1.channel st).engine.issued.length := by
  by_cases hs : st = c.stream
  · subst hs
    obtain ⟨a, -, -, hi⟩ | hi := issued_step_cases t reply s c <;> rw [hi]
    rw [length_append]
    exact Nat.le_add_right _ _
  · rw [channel_step_of_ne t reply s c hs]

theorem Waitable.step {n : ℕ} (h : Waitable n c)
    (hc : c.pc = .count → (s.channel c.stream).cntr < n) : Waitable n (step t reply s c).2 := by
  refine ⟨?_, ?_, issuedAll_step t reply s c h.issuedAll⟩
  all_goals obtain ⟨hpc, hh⟩ | ⟨hpc, hh⟩ := highestUsed_step t reply s c
  · exact .inr (by rw [hh]; exact hc hpc)
  · rw [hh, btt_step t reply s c hpc, data_step]
    exact h.started
  · exact .inr (by rw [hh]; exact hc hpc)
  · rw [hh]
    exact h.initial

end

namespace System

/-- The number of transfers that were issued on the channel of a call. -/
def issuedFor (s : System) (c : CopyTo) : ℕ :=
  (s.engine c.stream).issued.length

/-- What is known of `highest_used` of all calls. -/
def AllWaitable (s : System) : Prop :=
  ∀ c ∈ s.calls, Waitable (s.issuedFor c) c

/-- All writes wait for transfers that were scheduled. -/
def WaitsForScheduled (s : System) : Prop :=
  ∀ c ∈ s.calls, ∀ n ∈ c.awaited, n < s.issuedFor c

/-- A call with empty data begins to wait on a channel that was used. -/
def FindsTransfer (s : System) : Action → Prop
  | .step t _ => ∀ c, s.calls[t]? = some c → c.pc = .waitEnter false →
      (c.stream = true → s.shared.isVersal = true) → c.data = [] → 0 < s.issuedFor c
  | _ => True

theorem issuedFor_le_afterCall (s : System) (t : ℕ) (reply : Reply) (c : CopyTo) {d d' : CopyTo}
    (hs : d'.stream = d.stream) : s.issuedFor d ≤ (s.afterCall t reply c).issuedFor d' := by
  rw [issuedFor, issuedFor, hs]
  exact length_issued_le_step t reply s.shared c d.stream

theorem issuedFor_onEngine (s : System) (st : Bool)
    {f : Engine (List Byte) → Engine (List Byte)} (hf : ∀ e, Engine.Works e (f e))
    (c : CopyTo) : (s.onEngine st f).issuedFor c = s.issuedFor c := by
  obtain ⟨e, he, hw⟩ := s.channel_onEngine st hf c.stream
  rw [issuedFor, engine, he, hw.issued, issuedFor]

variable {s : System}

theorem allWaitable_step (h : s.AllWaitable) (hq : s.Queued) (a : Action) :
    (s.step a).AllWaitable := by
  refine step_rule h (fun stream data ptr => ?_) (fun t reply c hc d hd => ?_)
    (fun stream f hf c hc => ?_) a
  · exact forall_concat h ⟨.inl rfl, .inl rfl, fun hpc => absurd hpc Bool.false_ne_true⟩
  · obtain ho | rfl := mem_or_eq_of_mem_set hd
    · exact (h d ho).mono (issuedFor_le_afterCall s t reply c rfl)
    · have hs : Waitable (s.issuedFor c) (CopyTo.step t reply s.shared c).2 :=
        Waitable.step t reply s.shared c (h c (mem_of_getElem? hc)) fun hpc =>
          Nat.lt_of_succ_le (hq.cntr_of_count hc hpc).le
      exact hs.mono (issuedFor_le_afterCall s t reply c (stream_step t reply s.shared c))
  · rw [issuedFor_onEngine s stream hf]
    exact h c hc

theorem highestUsed_lt {c : CopyTo} (h : Waitable (s.issuedFor c) c) (hpc : c.pc.issuedAll = true)
    (he : c.data = [] → 0 < s.issuedFor c) : c.highestUsed < s.issuedFor c := by
  have hb := h.issuedAll hpc
  by_cases hd : c.data = []
  · obtain hz | hlt := h.initial
    · rw [hz]
      exact he hd
    · exact hlt
  · have hp := length_pos_of_ne_nil hd
    exact h.started.resolve_left (by omega)

theorem waitsForScheduled_afterCall_iff (ha : s.AllWaitable) (h : s.WaitsForScheduled) {t : ℕ}
    {c : CopyTo} (hc : s.calls[t]? = some c) (reply : Reply) :
    (s.afterCall t reply c).WaitsForScheduled ↔ s.FindsTransfer (.step t reply) := by
  have hm := mem_of_getElem? hc
  have hst := stream_step t reply s.shared c
  constructor
  · intro haf d hd hpc hs _
    obtain rfl : c = d := Option.mem_unique hc hd
    have hwa := inLastWait_of_waitEnter t reply s.shared c hpc hs
    have hlt := haf _ (mem_of_getElem? (getElem?_afterCall_self hc reply))
      (CopyTo.step t reply s.shared c).2.highestUsed (by rw [awaited, if_pos hwa]; simp)
    obtain ⟨a, hsc, -⟩ | hi := issued_step_cases t reply s.shared c
    · exact absurd (hpc.symm.trans hsc) (by simp)
    · rw [issuedFor, hst, afterCall, hi] at hlt
      exact Nat.zero_lt_of_lt hlt
  · intro hf d hd n hn
    obtain ho | rfl := mem_or_eq_of_mem_set hd
    · exact (h d ho n hn).trans_le (issuedFor_le_afterCall s t reply c rfl)
    refine lt_of_lt_of_le ?_ (issuedFor_le_afterCall s t reply c hst)
    rw [awaited] at hn
    split at hn
    swap
    · exact absurd hn not_mem_nil
    rename_i hwa
    obtain ⟨hpc, -⟩ | ⟨-, hh⟩ := highestUsed_step t reply s.shared c
    · simp [CopyTo.step, hpc, Pc.inLastWait] at hwa
    rw [mem_singleton.mp hn, hh]
    obtain hw | ⟨hpc, hs⟩ := inLastWait_step t reply s.shared c hwa
    · exact h c hm _ (by rw [awaited, if_pos hw]; simp)
    · exact highestUsed_lt (ha c hm) (by rw [hpc]; rfl) (hf c hc hpc hs)

theorem waitsForScheduled_step_iff (ha : s.AllWaitable) (h : s.WaitsForScheduled) (a : Action) :
    (s.step a).WaitsForScheduled ↔ s.FindsTransfer a := by
  have he : ∀ stream f, (∀ e, Engine.Works e (f e)) →
      (s.onEngine stream f).WaitsForScheduled := by
    intro stream f hf c hc n hn
    rw [issuedFor_onEngine s stream hf]
    exact h c hc n hn
  cases a with
  | call stream data ptr =>
    exact iff_of_true (forall_concat h fun n hn => absurd hn not_mem_nil) trivial
  | complete stream => exact iff_of_true (he stream _ (Engine.works_complete _)) trivial
  | raise stream => exact iff_of_true (he stream _ Engine.works_raise) trivial
  | step t reply =>
    cases hc : s.calls[t]? with
    | none =>
      rw [step, hc]
      exact iff_of_true h fun c hc' => absurd (hc.symm.trans hc') (by simp)
    | some c =>
      rw [step, hc]
      exact waitsForScheduled_afterCall_iff ha h hc reply

theorem Inv.not_returned_of_unused {bufs : List DMABuffer} (h : s.Inv bufs) {t : ℕ}
    {c : CopyTo} (hc : s.calls[t]? = some c)
    (hu : (s.engine c.stream).issued = []) : c.pc ≠ .returned (.ok ()) := by
  intro hr
  have hlt := h.awaited.returned t c hc hr
  obtain ⟨-, hd, hi⟩ := h.counts.popped_le c.stream
  rw [hu, length_nil] at hi
  omega

end System

end CopyTo

namespace CopyFrom

def awaited (c : CopyFrom) : List ℕ :=
  c.numbers

/-- **A call that reads** waits for transfers that were scheduled. -/
theorem System.waitsForScheduled {s : System} (hi : s.Indexed) (ht : s.AllTidy) :
    ∀ c ∈ s.calls, ∀ n ∈ c.awaited, n < (s.engine c.stream).issued.length := by
  intro c hc n hn
  have hb := (ht c hc).below n hn
  have hcn := hi.indexed c.stream
  omega

end CopyFrom

namespace UserSpaceDMA

/-- Every completion that a call waits for belongs to a transfer that was scheduled. -/
structure WaitsForScheduled (s : UserSpaceDMA) : Prop where
  writes : s.writes.WaitsForScheduled
  reads : ∀ c ∈ s.reads.calls, ∀ n ∈ c.awaited,
    n < (s.reads.engine c.stream).issued.length

/-- No call with empty data begins to wait on a channel that was never used. -/
def FindsTransfer (s : UserSpaceDMA) : Action → Prop
  | .write a => s.writes.FindsTransfer a
  | .read _ => True

/-- What the numbers of transfers depend on. -/
structure Numbers (s : UserSpaceDMA) : Prop where
  counts : s.writes.Counts
  queued : s.writes.Queued
  waitable : s.writes.AllWaitable
  indexed : s.reads.Indexed
  tidy : s.reads.AllTidy

theorem numbers_step {s : UserSpaceDMA} (h : s.Numbers) (a : Action) : (s.step a).Numbers := by
  have hw : (s.step a).writes.Counts ∧ (s.step a).writes.Queued ∧
      (s.step a).writes.AllWaitable := by
    obtain heq | ⟨b, heq⟩ := writes_step_cases s a <;> rw [heq]
    · exact ⟨h.counts, h.queued, h.waitable⟩
    · exact ⟨CopyTo.System.counts_step h.counts h.queued b,
        CopyTo.System.queued_step h.queued h.counts b,
        CopyTo.System.allWaitable_step h.waitable h.queued b⟩
  have hr : (s.step a).reads.Indexed ∧ (s.step a).reads.AllTidy := by
    obtain heq | ⟨b, heq⟩ := reads_step_cases s a <;> rw [heq]
    · exact ⟨h.indexed, h.tidy⟩
    · exact ⟨CopyFrom.System.indexed_step h.indexed b, CopyFrom.System.allTidy_step h.tidy b⟩
  exact ⟨hw.1, hw.2.1, hw.2.2, hr.1, hr.2⟩

theorem numbers_new (toDev fromDev : List DMABuffer) (ver : Bool)
    (mt : ℕ → List Byte) (mf : ℕ → ByteMem) (mem : ByteMem) :
    (new toDev fromDev ver mt mf mem).Numbers where
  counts := ⟨fun _ => Engine.inOrder_idle, fun _ => rfl, fun _ => rfl⟩
  queued := ⟨fun _ _ hc => absurd hc (by simp [new, CopyTo.System.new]), fun _ => rfl, fun _ => rfl⟩
  waitable := fun _ hc => absurd hc not_mem_nil
  indexed := ⟨fun _ _ hc => absurd hc (by simp [new, CopyFrom.System.new]), fun _ => rfl⟩
  tidy := fun _ hc => absurd hc not_mem_nil

theorem findsTransfer_of_writeWaits {s : UserSpaceDMA} {a : CopyTo.Action}
    (h : s.writeWaits a = true) : s.writes.FindsTransfer a := by
  cases a with
  | step t reply =>
    intro c hc hpc
    rw [writeWaits, hc, Option.any_some, hpc] at h
    exact absurd h Bool.false_ne_true
  | _ => trivial

theorem waitsForScheduled_step_iff {s : UserSpaceDMA} (hnu : s.Numbers)
    (h : s.WaitsForScheduled) (a : Action) : (s.step a).WaitsForScheduled ↔ s.FindsTransfer a := by
  have hn := numbers_step hnu a
  have hr := CopyFrom.System.waitsForScheduled hn.indexed hn.tidy
  have hw : (s.step a).writes.WaitsForScheduled ↔ s.FindsTransfer a := by
    cases a with
    | write b =>
      rw [step]
      split
      · exact iff_of_true h.writes (findsTransfer_of_writeWaits ‹_›)
      · exact CopyTo.System.waitsForScheduled_step_iff hnu.waitable h.writes b
    | read b =>
      rw [step]
      split <;> exact iff_of_true h.writes trivial
  rw [← hw]
  exact ⟨fun ha => ha.writes, fun ha => ⟨ha, hr⟩⟩

/-- **What calls wait for**: in a run every completion that a call waits for belongs to a
scheduled transfer exactly if no call with empty data begins to wait on an unused channel. -/
theorem waitsForScheduled_iff (toDev fromDev : List DMABuffer) (isVersal : Bool)
    (mappedTo : ℕ → List Byte) (mappedFrom : ℕ → ByteMem) (memory : ByteMem)
    (actions : List Action) :
    (∀ s ∈ Runs.trace step (new toDev fromDev isVersal mappedTo mappedFrom memory) actions,
        s.WaitsForScheduled) ↔
      Runs.AllSteps step FindsTransfer (new toDev fromDev isVersal mappedTo mappedFrom memory)
        actions :=
  Runs.forall_mem_trace_iff (I := Numbers) (fun _ a h => numbers_step h a)
    (fun _ a hnumbers h => waitsForScheduled_step_iff hnumbers h a)
    (numbers_new toDev fromDev isVersal mappedTo mappedFrom memory)
    ⟨fun _ hc => absurd hc not_mem_nil, fun _ hc => absurd hc not_mem_nil⟩ actions

/-- A write of no bytes on a new device. -/
def emptyWrite : List Action :=
  [.write (.call false [] 0x40), .write (.step 0 .ok), .write (.step 0 .ok)]

/-- **A write of no bytes waits for a transfer that does not exist.** -/
theorem empty_write_waits :
    ∃ s ∈ Runs.trace step (new [⟨0, 4, 0x1000⟩] [⟨1, 4, 0x2000⟩] false (fun _ => []) (fun _ _ => 0)
        fun _ => 0) emptyWrite,
      (s.writes.shared.channel false).engine.issued = [] ∧
        s.writes.calls.map CopyTo.awaited = [[0]] ∧ ¬ s.WaitsForScheduled := by
  refine ⟨_, Runs.run_mem_trace _ _, rfl, rfl, fun h => ?_⟩
  exact absurd (h.writes _ (mem_singleton_self _) 0 (mem_singleton_self 0))
    (Nat.not_lt_zero 0)

end UserSpaceDMA

end Tapasco
