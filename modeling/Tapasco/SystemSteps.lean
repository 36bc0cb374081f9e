import Tapasco.System

/-!
# What the Actions Do

One lemma for each action of the transition system: what it does to the places where PEs
are. Later proofs use these descriptions instead of the definitions.
-/

open Function

namespace Tapasco.System

/-- Where a PE can be. -/
inductive Place where
  | pool (t : PEId)
  | job (j : ℕ)
  | handler (h : ℕ)
  | handlerRelease (h : ℕ)
  | reset (r : ℕ)
  deriving DecidableEq

/-- The PE that a handler's `release_pe` has in its hands. -/
def inHands : SinglePEHandler → List PE
  | .putting pe => [pe]
  | _ => []

/-- The PEs at a place. -/
def contents (s : System) : Place → List PE
  | .pool t => (s.scheduler.pes t).getD []
  | .job j => (s.jobs j).elim [] fun slot => slot.pe.toList
  | .handler h => (s.singles h).pe
  | .handlerRelease h => (s.handlers h).elim [] inHands
  | .reset r => (s.resets r).elim [] Reset.removePes

/-! ### Contents after an update -/

/-- The queue of a type is replaced. -/
def setPool (s : System) (t : PEId) (l : List PE) : System :=
  { s with scheduler := { s.scheduler with pes := Function.update s.scheduler.pes t (some l) } }

variable (s : System) (t : PEId) (h j r : ℕ)

@[simp] theorem pes_setPool (l : List PE) :
    (s.setPool t l).scheduler.pes = update s.scheduler.pes t (some l) := rfl

@[simp] theorem jobs_setJob (slot : JobSlot) :
    (s.setJob j slot).jobs = update s.jobs j (some slot) := rfl

@[simp] theorem singles_setSingle (q : SinglePEScheduler) :
    (s.setSingle h q).singles = update s.singles h q := rfl

@[simp] theorem handlers_setHandler (hd : SinglePEHandler) :
    (s.setHandler h hd).handlers = update s.handlers h (some hd) := rfl

@[simp] theorem resets_setReset (x : Option Reset) :
    (s.setReset r x).resets = update s.resets r x := rfl

/-- A queue of the scheduler is one place. -/
theorem contents_setPool (l : List PE) :
    (s.setPool t l).contents = update s.contents (.pool t) l := by
  funext p
  cases p with
  | pool t' =>
    by_cases ht : t' = t <;> simp [contents, setPool, ht]
  | _ => rfl

/-- The PE of a job is in one place. -/
theorem contents_setJob (slot : JobSlot) :
    (s.setJob j slot).contents = update s.contents (.job j) slot.pe.toList := by
  funext p
  cases p with
  | job j' =>
    by_cases hj : j' = j <;> simp [contents, setJob, hj]
  | _ => rfl

/-- The queue of a handler is one place. -/
theorem contents_setSingle (q : SinglePEScheduler) :
    (s.setSingle h q).contents = update s.contents (.handler h) q.pe := by
  funext p
  cases p with
  | handler h' =>
    by_cases hh : h' = h <;> simp [contents, setSingle, hh]
  | _ => rfl

/-- What a handler's release has in its hands is in one place. -/
theorem contents_setHandler (hd : SinglePEHandler) :
    (s.setHandler h hd).contents = update s.contents (.handlerRelease h) (inHands hd) := by
  funext p
  cases p with
  | handlerRelease h' =>
    by_cases hh : h' = h <;> simp [contents, setHandler, hh]
  | _ => rfl

/-- What a reset took out is in one place. -/
theorem contents_setReset (x : Option Reset) :
    (s.setReset r x).contents = update s.contents (.reset r) (x.elim [] Reset.removePes) := by
  funext p
  cases p with
  | reset r' =>
    by_cases hr : r' = r <;> simp [contents, setReset, hr]
  | _ => rfl

variable {s} {σ : Type}

/-- A PE that is acquired was the first of its queue. -/
theorem doAcquirePe_eq_some {t : PEId} {pe : PE} {q : Scheduler}
    (h : s.scheduler.doAcquirePe t = (.ok (some pe), q)) :
    ∃ l, s.contents (.pool t) = pe :: l ∧ { s with scheduler := q } = s.setPool t l := by
  rw [Scheduler.doAcquirePe] at h
  match hq : s.scheduler.pes t with
  | none =>
    rw [hq] at h
    simp at h
  | some [] =>
    rw [hq] at h
    simp at h
  | some (b :: l) =>
    simp only [hq, Prod.mk.injEq, Except.ok.injEq, Option.some.injEq] at h
    obtain ⟨rfl, rfl⟩ := h
    exact ⟨l, by simp [contents, hq], rfl⟩

/-- An idle PE of a known type goes to the end of its queue. -/
theorem releasePe_of_resting {pe : PE} (hi : pe.active = false)
    (hk : (s.scheduler.pes pe.typeId).isSome = true) :
    ∃ q, s.scheduler.releasePe pe = (.ok (), q) ∧
      { s with scheduler := q } = s.setPool pe.typeId (s.contents (.pool pe.typeId) ++ [pe]) := by
  obtain ⟨l, hl⟩ := Option.isSome_iff_exists.mp hk
  refine ⟨s.scheduler.push pe.typeId pe, ?_, rfl⟩
  simp only [Scheduler.releasePe, hi, Bool.false_eq_true, if_false, hl]

/-- A PE that the queue of a handler yields was its first. -/
theorem acquirePe_eq_some {h : ℕ} {pe : PE} {q : SinglePEScheduler}
    (hq : (s.singles h).acquirePe = (some pe, q)) : s.contents (.handler h) = pe :: q.pe := by
  rw [SinglePEScheduler.acquirePe] at hq
  match hl : (s.singles h).pe with
  | [] =>
    simp only [hl, Prod.mk.injEq] at hq
    exact absurd hq.1 (by simp)
  | b :: l =>
    simp only [hl, Prod.mk.injEq, Option.some.injEq] at hq
    obtain ⟨rfl, rfl⟩ := hq
    exact hl

theorem setJob_self {j : ℕ} {slot : JobSlot} (h : s.jobs j = some slot) : s.setJob j slot = s := by
  rw [setJob, ← h, update_eq_self]

/-! ### Taking PEs out of queues -/

variable (s)

/-- A new job gets the first PE of the type, or nothing happens. -/
theorem acquirePe_cases :
    s.acquirePe t j = s ∨ ∃ pe l, s.jobs j = none ∧ s.contents (.pool t) = pe :: l ∧
      s.acquirePe t j = (s.setPool t l).setJob j ⟨some pe, .main, [], 0⟩ := by
  rw [acquirePe]
  split
  · rename_i pe q hj hq
    obtain ⟨l, hl, hs⟩ := doAcquirePe_eq_some hq
    exact .inr ⟨pe, l, hj, hl, by rw [hs]⟩
  · exact .inl rfl

/-- A new handler gets the first PE of the type, or nothing happens. -/
theorem acquireSinglePe_cases :
    s.acquireSinglePe t h = s ∨ ∃ pe l, s.handlers h = none ∧ s.contents (.pool t) = pe :: l ∧
      s.acquireSinglePe t h =
        ((s.setPool t l).setSingle h (SinglePEScheduler.new pe)).setHandler h .inUse := by
  rw [acquireSinglePe]
  split
  · rename_i pe q hh hq
    obtain ⟨l, hl, hs⟩ := doAcquirePe_eq_some hq
    exact .inr ⟨pe, l, hh, hl, by rw [hs]⟩
  · exact .inl rfl

/-- A new job gets the PE of a handler in use, or nothing happens. -/
theorem createJob_cases :
    s.createJob h j = s ∨ ∃ pe q, s.jobs j = none ∧ s.handlers h = some .inUse ∧
      s.contents (.handler h) = pe :: q.pe ∧
      s.createJob h j = (s.setSingle h q).setJob j ⟨some pe, .single h, [], 0⟩ := by
  rw [createJob]
  split
  · rename_i pe q hh hj hq
    exact .inr ⟨pe, q, hj, hh, acquirePe_eq_some hq, rfl⟩
  · exact .inl rfl

/-! ### Releasing a handler -/

/-- A handler in use starts to take its PE, or nothing happens. -/
theorem releaseHandler_cases :
    s.releaseHandler h = s ∨
      s.handlers h = some .inUse ∧ s.releaseHandler h = s.setHandler h .taking := by
  rw [releaseHandler]
  split
  · rename_i hh
    exact .inr ⟨hh, rfl⟩
  · exact .inl rfl

/-- A released handler takes the PE into its hands, or nothing happens. -/
theorem takeFromHandler_cases :
    s.takeFromHandler h = s ∨ ∃ pe q, s.handlers h = some .taking ∧
      s.contents (.handler h) = pe :: q.pe ∧
      s.takeFromHandler h = (s.setSingle h q).setHandler h (.putting pe) := by
  rw [takeFromHandler]
  split
  · rename_i pe q hh hq
    exact .inr ⟨pe, q, hh, acquirePe_eq_some hq, rfl⟩
  · exact .inl rfl

/-- A PE in the hands of a handler goes to the queue of its type, or nothing happens. -/
theorem putFromHandler_cases (hok : ∀ pe, s.handlers h = some (.putting pe) →
      pe.active = false ∧ (s.scheduler.pes pe.typeId).isSome = true) :
    s.putFromHandler h = s ∨ ∃ pe, s.handlers h = some (.putting pe) ∧
      s.putFromHandler h =
        (s.setPool pe.typeId (s.contents (.pool pe.typeId) ++ [pe])).setHandler h .done := by
  rw [putFromHandler]
  split
  · rename_i pe hh
    obtain ⟨q, hq, hs⟩ := releasePe_of_resting (hok pe hh).1 (hok pe hh).2
    refine .inr ⟨pe, hh, ?_⟩
    simp only [hq]
    rw [hs]
  · exact .inl rfl

/-! ### Methods of jobs -/

variable {s} in
/-- A call on a job acts on its slot, or nothing happens. -/
theorem onJob_rule {j : ℕ} {f : JobSlot → System} {P : System → Prop} (hs : P s)
    (hf : ∀ slot, s.jobs j = some slot → P (f slot)) : P (s.onJob j f) := by
  rw [onJob]
  split
  next slot hj =>
    split
    · exact hf slot hj
    · exact hs
  · exact hs

/-- A start keeps the identity of the PE. -/
theorem start_cases [Allocator σ] (args : List PEParameter) (w : World σ) :
    s.start j args w = s ∨ ∃ slot pe, s.jobs j = some slot ∧
      pe.map PE.ident = slot.pe.map PE.ident ∧ s.start j args w = s.setJob j { slot with pe } := by
  rw [start]
  refine onJob_rule (P := fun s' => s' = s ∨ ∃ slot pe, s.jobs j = some slot ∧
    pe.map PE.ident = slot.pe.map PE.ident ∧ s' = s.setJob j { slot with pe }) (.inl rfl)
    fun slot hj => .inr ⟨slot, _, hj, ?_, rfl⟩
  exact congrArg Prod.fst (Job.custody_start args (s.jobState slot w))

/-- The system when the PE of a job has been handed over. -/
def handedOver (s : System) (j : ℕ) (slot : JobSlot) (pe : PE) (releasePe : Bool) : System :=
  let slot' := { slot with notes := pe.copyBack.getD [], notesOf := pe.id }
  let s := s.owe pe.id (pe.copyBack.getD [])
  if releasePe then
    match slot.home with
    | .main =>
      (s.setPool pe.typeId (s.contents (.pool pe.typeId) ++ [pe.rested])).setJob j
        { slot' with pe := none }
    | .single h =>
      (s.setSingle h { s.singles h with pe := s.contents (.handler h) ++ [pe.rested] }).setJob j
        { slot' with pe := none }
  else s.setJob j { slot' with pe := some pe.rested }

/-- The scheduler of a job puts an idle PE at the end of the job's home. -/
theorem jobState_releasePe (slot : JobSlot) (w : World σ) (pe : PE)
    (hi : pe.active = false) (hk : (s.scheduler.pes pe.typeId).isSome = true) :
    ∃ q, (s.jobState slot w).scheduler.releasePe pe = (.ok (), q) ∧
      s.setQueue slot.home q =
        match slot.home with
        | .main => s.setPool pe.typeId (s.contents (.pool pe.typeId) ++ [pe])
        | .single h =>
          s.setSingle h { s.singles h with pe := s.contents (.handler h) ++ [pe] } := by
  cases hh : slot.home with
  | main =>
    obtain ⟨q, hq, hs⟩ := releasePe_of_resting hi hk
    refine ⟨.main q, ?_, hs⟩
    simp only [jobState, hh, JobScheduler.releasePe, hq]
  | single h =>
    refine ⟨.single { s.singles h with pe := s.contents (.handler h) ++ [pe] }, ?_, rfl⟩
    simp only [jobState, hh, JobScheduler.releasePe]
    rfl

/-- The scheduler of a job is the queue of its home. -/
theorem setQueue_jobState (slot : JobSlot) (w : World σ) :
    s.setQueue slot.home (s.jobState slot w).scheduler = s := by
  cases hh : slot.home with
  | main => simp only [jobState, hh, setQueue]
  | single h => simp only [jobState, hh, setQueue, setSingle, update_eq_self]

/-- The end of a hand-over, when the PE is at rest. -/
theorem afterHandOver_rested {slot : JobSlot} {pe : PE}
    (hp : slot.pe = some pe) (hk : (s.scheduler.pes pe.typeId).isSome = true) (rp : Bool)
    (rv : ℕ) (w : World σ) :
    s.afterHandOver j slot ((do
      if rp then Job.giveBack
      pure (some (rv, pe.copyBack)) : JobM σ (Option (ℕ × Option (List CopyBack))))
        { s.jobState slot w with pe := some pe.rested }) =
      s.handedOver j slot pe rp := by
  cases rp with
  | false =>
    have hr : (do
        if false = true then Job.giveBack
        pure (some (rv, pe.copyBack)) : JobM σ (Option (ℕ × Option (List CopyBack))))
          { s.jobState slot w with pe := some pe.rested } =
        (.ok (some (rv, pe.copyBack)), { s.jobState slot w with pe := some pe.rested }) := rfl
    rw [hr, afterHandOver, handedOver]
    simp only [setQueue_jobState, hp, Option.map_some, Option.getD_some, Bool.false_eq_true,
      if_false]
  | true =>
    obtain ⟨q, hq, hs⟩ := jobState_releasePe s slot w pe.rested rfl hk
    have hg : Job.giveBack { s.jobState slot w with pe := some pe.rested } =
        (.ok (), { s.jobState slot w with pe := none, scheduler := q }) :=
      Job.giveBack_of_ok rfl hq
    have hr : (do
        if true = true then Job.giveBack
        pure (some (rv, pe.copyBack)) : JobM σ (Option (ℕ × Option (List CopyBack))))
          { s.jobState slot w with pe := some pe.rested } =
        (.ok (some (rv, pe.copyBack)), { s.jobState slot w with pe := none, scheduler := q }) :=
      Exec.bind_of_ok hg
    rw [hr, afterHandOver, handedOver]
    simp only [hs, hp, Option.map_some, Option.getD_some, if_true]
    cases slot.home <;> rfl

/-- The PE of a job is of a type that the scheduler has a queue for. -/
def JobsKnown (s : System) : Prop :=
  ∀ j slot pe, s.jobs j = some slot → slot.pe = some pe →
    (s.scheduler.pes pe.typeId).isSome = true

variable {s}

/-- Without a PE, or without an interrupt, nothing is handed over. -/
theorem afterHandOver_same {j : ℕ} {slot : JobSlot} (hj : s.jobs j = some slot) (w : World σ)
    {r : Outcome JobError (Option (ℕ × Option (List CopyBack)))}
    (hr : r = .err .noPEtoRelease ∨ r = .ok none) :
    s.afterHandOver j slot (r, s.jobState slot w) = s := by
  have hs : (s.setQueue slot.home (s.jobState slot w).scheduler).setJob j
      { slot with pe := (s.jobState slot w).pe } = s := by
    rw [setQueue_jobState]
    exact setJob_self hj
  rcases hr with rfl | rfl <;> exact hs

/-- Nothing has happened, or the PE of the job was handed over. -/
def Released (s : System) (j : ℕ) (releasePe : Bool) (s' : System) : Prop :=
  s' = s ∨ ∃ slot pe, s.jobs j = some slot ∧ slot.pe = some pe ∧
    s' = s.handedOver j slot pe releasePe

/-- The hand-over of a release that has its interrupt. -/
theorem released_afterHandOver (hk : s.JobsKnown) {j : ℕ} {slot : JobSlot}
    (hj : s.jobs j = some slot) (irq : ℕ) (releasePe returnValue : Bool) (w : World σ) :
    s.Released j releasePe (s.afterHandOver j slot ((do
      let work ← Job.handOver (.ok irq) releasePe returnValue
      pure (some work)) (s.jobState slot w))) := by
  cases hp : slot.pe with
  | none =>
    have he : Job.handOver (.ok irq) releasePe returnValue (s.jobState slot w) =
        (.err .noPEtoRelease, s.jobState slot w) := by
      rw [Job.handOver, jobState, hp]
    rw [Exec.bind_of_err he]
    exact .inl (afterHandOver_same hj w (.inl rfl))
  | some pe =>
    obtain ⟨rv, r, hh⟩ := Job.handOver_of_some (s := s.jobState slot w) hp irq releasePe
      returnValue
    rw [Exec.bind_congr_apply hh, Job.giveBack_then]
    exact .inr ⟨slot, pe, hj, hp, afterHandOver_rested s j hp (hk j slot pe hj hp) releasePe rv
      { w with registers := r }⟩

/-- **A release** does nothing, or hands the PE of the job over. -/
theorem released_release (hk : s.JobsKnown) (j irq : ℕ) (releasePe returnValue : Bool)
    (w : World σ) : s.Released j releasePe (s.release j irq releasePe returnValue w) :=
  onJob_rule (.inl rfl) fun _ hj => released_afterHandOver hk hj irq releasePe returnValue w

/-- **An attempt to release** does the same. -/
theorem released_tryRelease (hk : s.JobsKnown) (j irq : ℕ) (releasePe returnValue : Bool)
    (w : World σ) : s.Released j releasePe (s.tryRelease j irq releasePe returnValue w) := by
  refine onJob_rule (.inl rfl) fun slot hj => ?_
  obtain ⟨-, h⟩ | h :=
    Job.tryHandOver_cases (.ok irq) releasePe returnValue (s.jobState slot w) <;> rw [h]
  · exact .inl (afterHandOver_same hj w (.inr rfl))
  · exact released_afterHandOver hk hj irq releasePe returnValue w

variable (s)

/-- A piece of a copy-back takes a note away from its job, or all of them if it fails. -/
theorem copyBack_cases [Allocator σ] (w : World σ) :
    s.copyBack j w = s ∨ ∃ slot note rest, s.jobs j = some slot ∧ slot.notes = note :: rest ∧
      (s.copyBack j w = { s with outstanding := s.outstanding.erase (slot.notesOf, note) }.setJob j
          { slot with notes := rest } ∨ s.copyBack j w = s.setJob j { slot with notes := [] }) := by
  rw [copyBack]
  split
  · rename_i slot hj
    split
    · rename_i note rest hn
      refine .inr ⟨slot, note, rest, hj, hn, ?_⟩
      split
      · exact .inl rfl
      · exact .inr rfl
    · exact .inl rfl
  · exact .inl rfl

/-! ### Resetting interrupts -/

/-- A new reset starts with the first type, or nothing happens. -/
theorem resetInterrupts_cases (order : List PEId) :
    s.resetInterrupts r order = s ∨ s.resets r = none ∧
      s.resetInterrupts r order = s.setReset r (some ⟨order, [], true⟩) := by
  rw [resetInterrupts]
  split
  · rename_i hr
    exact .inr ⟨hr, rfl⟩
  · exact .inl rfl

/-- A reset takes the first PE of its type, or stops taking. -/
theorem resetSteal_cases (retry : Bool) (registers : ByteMem)
    (hi : ∀ t, ∀ pe ∈ s.contents (.pool t), pe.active = false) :
    s.resetSteal r retry registers = s ∨ ∃ t ts removePes,
      s.resets r = some ⟨t :: ts, removePes, true⟩ ∧
      (s.resetSteal r retry registers = s.setReset r (some ⟨t :: ts, removePes, false⟩) ∨
        ∃ pe l, s.contents (.pool t) = pe :: l ∧
          s.resetSteal r retry registers =
            (s.setPool t l).setReset r (some ⟨t :: ts, removePes ++ [pe], true⟩)) := by
  rw [resetSteal]
  split
  · rename_i t ts removePes hr
    refine .inr ⟨t, ts, removePes, hr, ?_⟩
    split
    · rename_i pe q hq
      obtain ⟨l, hl, hs⟩ := doAcquirePe_eq_some hq
      have he : (pe.enableInterrupt registers).1 = .ok () := by
        rw [PE.enableInterrupt, hi t pe (hl ▸ List.mem_cons_self)]
        rfl
      refine .inr ⟨pe, l, hl, ?_⟩
      rw [he, hs]
    · exact .inl rfl
  · exact .inl rfl

/-- A reset puts a PE back, goes on to the next type, or ends. -/
theorem resetReturn_cases :
    s.resetReturn r = s ∨
      (∃ t ts pe removePes, s.resets r = some ⟨t :: ts, pe :: removePes, false⟩ ∧
        s.resetReturn r = (s.setPool t (s.contents (.pool t) ++ [pe])).setReset r
          (some ⟨t :: ts, removePes, false⟩)) ∨
      (∃ t ts, s.resets r = some ⟨t :: ts, [], false⟩ ∧
        s.resetReturn r = s.setReset r (some ⟨ts, [], true⟩)) ∨
      ∃ removePes draining, s.resets r = some ⟨[], removePes, draining⟩ ∧
        s.resetReturn r = s.setReset r none := by
  rw [resetReturn]
  split
  · rename_i t ts pe removePes hr
    exact .inr (.inl ⟨t, ts, pe, removePes, hr, rfl⟩)
  · rename_i t ts hr
    exact .inr (.inr (.inl ⟨t, ts, hr, rfl⟩))
  · rename_i removePes draining hr
    exact .inr (.inr (.inr ⟨removePes, draining, hr, rfl⟩))
  · exact .inl rfl

end Tapasco.System
