import Tapasco.JobHandOver
import Tapasco.Placement

/-!
# The Work Left for the Release of a Job

A launch notes at the PE what is left to do: copy results back, free buffers, join
streams. `handle_copyback` carries the notes out in order and stops at the first one that
fails. This module says what that does to the allocators: the buffers in front of the
first note that fails are freed, and nothing else changes.
-/

open Exec FreeList List

namespace Tapasco.Job

/-! ### Freed buffers -/

/-- The live segments that are left when buffers were freed. -/
def without (xs : List DataTransferPrealloc) (L : MemId → List Segment) :
    MemId → List Segment := fun m =>
  (L m).filter fun s => xs.all fun x => decide (x.memory = m → s.base ≠ x.deviceAddress)

theorem mem_without {xs : List DataTransferPrealloc} {L : MemId → List Segment} {m : MemId}
    {s : Segment} : s ∈ without xs L m ↔
      s ∈ L m ∧ ∀ x ∈ xs, x.memory = m → s.base ≠ x.deviceAddress := by
  rw [without, mem_filter, all_eq_true]
  simp only [decide_eq_true_eq]

theorem without_nil (L : MemId → List Segment) : without [] L = L :=
  funext fun _ => filter_eq_self.mpr fun _ _ => rfl

theorem without_cons (x : DataTransferPrealloc) (xs : List DataTransferPrealloc)
    (L : MemId → List Segment) : without (x :: xs) L = without xs (without [x] L) := by
  funext m
  rw [without, without, without, filter_filter]
  refine filter_congr fun s _ => ?_
  rw [all_cons, all_cons, all_nil, Bool.and_true, Bool.and_comm]

theorem without_singleton {L : MemId → List Segment} (hb : DistinctBases L)
    {x : DataTransferPrealloc} {pre post : List Segment} {s : Segment}
    (hL : L x.memory = pre ++ s :: post) (hs : s.base = x.deviceAddress) :
    without [x] L = Function.update L x.memory (pre ++ post) := by
  funext m
  by_cases hm : m = x.memory
  · subst hm
    have hd := hb x.memory
    rw [hL, pairwise_append, pairwise_cons] at hd
    rw [without, hL, Function.update_self]
    refine Lists.filter_append_cons (fun t ht => ?_) ?_ fun t ht => ?_
    · simpa [← hs] using hd.2.2 t ht s mem_cons_self
    · simp [hs]
    · simpa [← hs] using (hd.2.1.1 t ht).symm
  · rw [Function.update_of_ne hm, without]
    refine filter_eq_self.mpr fun t _ => ?_
    rw [all_cons, all_nil, Bool.and_true, decide_eq_true_eq]
    exact fun h => absurd h.symm hm

/-! ### Carrying out the notes -/

/-- The copy from the device, if one is made, and the lock of the allocator succeed; `j`
copies from the device were made before. -/
def ReturnOk (env : Env) (poisoned : MemId → Bool) (j : ℕ) (x : DataTransferPrealloc) : Prop :=
  (x.fromDevice = true → env.copyFrom j = .done) ∧ poisoned x.memory = false

instance (env : Env) (poisoned : MemId → Bool) (j : ℕ) (x : DataTransferPrealloc) :
    Decidable (ReturnOk env poisoned j x) := by
  rw [ReturnOk]
  infer_instance

/-- How many buffers are returned before the first one that fails. -/
def returnable (env : Env) (poisoned : MemId → Bool) : ℕ → List DataTransferPrealloc → ℕ
  | _, [] => 0
  | j, x :: xs =>
    if ReturnOk env poisoned j x then
      returnable env poisoned (j + x.fromDevice.toNat) xs + 1
    else 0

variable {σ : Type} {x : DataTransferPrealloc} {s : JobState σ}

section

variable [Allocator σ]

theorem allocator_copyBackOne_stream (x : DataTransferStream) :
    (Frame.same fun s : JobState σ => s.world.allocator).Obeys (copyBackOne (.stream x)) := by
  refine obeys_bind (fun s => ⟨?_, False.elim⟩) fun _ => obeys_pure _
  cases hr : s.world.env.stream s.world.joins with
  | finished received => simp only [Frame.same, joinStream, hr]
  | failed => simp only [Frame.same, joinStream, hr]
  | panicked => simp only [Frame.same, joinStream, hr]

theorem allocator_collect_streams (xs : List DataTransferStream) (s : JobState σ) :
    (collect copyBackOne (xs.map CopyBack.stream) s).2.world.allocator = s.world.allocator := by
  refine (obeys_collect (F := .same fun s : JobState σ => s.world.allocator) (fun c hc => ?_) s).1
  obtain ⟨x, -, rfl⟩ := mem_map.mp hc
  exact allocator_copyBackOne_stream x

variable [LawfulAllocator σ]

theorem withAllocator_free {w₀ : World σ} (hl : Later w₀ s.world)
    (hli : LiveIn (liveMap s.world) x) :
    if s.world.poisoned x.memory then
      withAllocator x.memory (fun a => Allocator.free a x.deviceAddress) s = (.err .mutexError, s)
    else ∃ b, withAllocator x.memory (fun a => Allocator.free a x.deviceAddress) s =
        (.ok (), { s with world := s.world.setAllocator x.memory b }) ∧
      LawfulAllocator.Later (w₀.allocator x.memory) b ∧
      liveMap (s.world.setAllocator x.memory b) = without [x] (liveMap s.world) := by
  split
  · rename_i hp
    exact if_pos hp
  · rename_i hp
    obtain ⟨t, ht, hba, -⟩ := hli
    obtain ⟨pre, post, hs⟩ := append_of_mem ht
    obtain ⟨b, hf, hb, hl'⟩ := LawfulAllocator.free (hl x.memory) hs
    refine ⟨b, ?_, hl', ?_⟩
    · rw [hba] at hf
      simp only [withAllocator, if_neg hp, hf]
    · have hbas := distinctBases_liveMap hl
      rw [liveMap_setAllocator, hb, without_singleton hbas hs hba]

/-- The surroundings after a buffer was returned and freed. -/
def afterReturn (w : World σ) (x : DataTransferPrealloc) (b : σ) : World σ :=
  { w.setAllocator x.memory b with copyFroms := w.copyFroms + x.fromDevice.toNat }

theorem copyBackOne_note {w₀ : World σ} (hl : Later w₀ s.world) (hf : x.free = true)
    (hli : LiveIn (liveMap s.world) x) :
    ∃ c, noteOf x = [c] ∧
      if ReturnOk s.world.env s.world.poisoned s.world.copyFroms x then
        ∃ r b, copyBackOne c s = (.ok r, { s with world := afterReturn s.world x b }) ∧
          Later w₀ (afterReturn s.world x b) ∧
          liveMap (afterReturn s.world x b) = without [x] (liveMap s.world)
      else ∃ e s', copyBackOne c s = (.err e, s') ∧ s'.world.allocator = s.world.allocator := by
  cases hfr : x.fromDevice with
  | false =>
    refine ⟨.free x.deviceAddress x.memory, by simp [noteOf, hfr, hf], ?_⟩
    have hc := withAllocator_free hl hli
    split
    · rename_i hok
      rw [hok.2, if_neg Bool.false_ne_true] at hc
      obtain ⟨b, hb, hb', hw⟩ := hc
      refine ⟨[], b, ?_, hl.setAllocator hb', hw⟩
      rw [afterReturn, hfr]
      exact bind_of_ok hb
    · rename_i hn
      have hp : s.world.poisoned x.memory = true := by
        simpa [ReturnOk, hfr] using hn
      rw [if_pos hp] at hc
      exact ⟨.mutexError, s, bind_of_err hc, rfl⟩
  | true =>
    refine ⟨.transfer x, by simp [noteOf, hfr], ?_⟩
    let s₁ := { s with world := { s.world with copyFroms := s.world.copyFroms + 1 } }
    have hc := withAllocator_free (s := s₁) hl hli
    cases hr : s.world.env.copyFrom s.world.copyFroms with
    | done =>
      have hco : copyFrom x.memory x.deviceAddress x.data.bytes.length s =
          (.ok ((s.world.bytes x.memory).readBytes x.deviceAddress x.data.bytes.length),
            s₁) := by
        simp only [copyFrom, hr, s₁]
      rw [copyBackOne, hf]
      split
      · rename_i hok
        rw [show s₁.world.poisoned x.memory = false from hok.2, if_neg Bool.false_ne_true] at hc
        obtain ⟨b, hb, hb', hw⟩ := hc
        refine ⟨[{ x.data with
          bytes := (s.world.bytes x.memory).readBytes x.deviceAddress x.data.bytes.length }],
          b, (bind_of_ok hco).trans ?_, hl.setAllocator hb', hw⟩
        exact (bind_of_ok hb).trans (by rw [afterReturn, hfr]; rfl)
      · rename_i hn
        have hp : s₁.world.poisoned x.memory = true := by
          simpa [ReturnOk, hr] using hn
        rw [if_pos hp] at hc
        exact ⟨.mutexError, s₁, (bind_of_ok hco).trans (bind_of_err hc), rfl⟩
    | failed n =>
      have hco : copyFrom x.memory x.deviceAddress x.data.bytes.length s =
          (.err .dmaError, s₁) := by
        simp only [copyFrom, hr, s₁]
      rw [if_neg fun hok => absurd (hr.symm.trans (hok.1 hfr)) (by simp)]
      exact ⟨.dmaError, s₁, bind_of_err hco, rfl⟩

/-- **Carrying out the notes** frees the buffers in front of the first one that fails, and changes
nothing else in the allocators. -/
theorem collect_copyBackOne_spec {w₀ : World σ} (hla : Later w₀ s.world)
    {xs : List DataTransferPrealloc} (hfr : ∀ x ∈ xs, x.free = true)
    (hli : ∀ x ∈ xs, LiveIn (liveMap s.world) x) (hd : Distinct xs)
    (sts : List DataTransferStream) :
    let s' := (collect copyBackOne (xs.flatMap noteOf ++ sts.map CopyBack.stream) s).2
    Later w₀ s'.world ∧ liveMap s'.world =
      without (xs.take (returnable s.world.env s.world.poisoned s.world.copyFroms xs))
        (liveMap s.world) := by
  induction xs generalizing s with
  | nil =>
    have hf := allocator_collect_streams sts s
    rw [take_nil, without_nil, flatMap_nil, nil_append]
    exact ⟨hla.congr hf, liveMap_congr hf⟩
  | cons x xs ih =>
    rw [forall_mem_cons] at hfr hli
    obtain ⟨hx, hxs⟩ := pairwise_cons.mp hd
    obtain ⟨c, hc, hs⟩ := copyBackOne_note hla hfr.1 hli.1
    rw [flatMap_cons, hc, append_assoc, singleton_append, returnable]
    split at hs
    · rename_i hok
      obtain ⟨r, b, heq, hl', hw⟩ := hs
      have hli' : ∀ y ∈ xs, LiveIn (liveMap (afterReturn s.world x b)) y := by
        intro y hy
        obtain ⟨t, ht, hb, hl⟩ := hli.2 y hy
        refine ⟨t, ?_, hb, hl⟩
        rw [hw, mem_without]
        refine ⟨ht, fun z hz hm => ?_⟩
        obtain rfl := mem_singleton.mp hz
        rw [hb]
        exact (hx y hy hm).symm
      have hr := ih (s := { s with world := afterReturn s.world x b }) hl' hfr.2
        hli' hxs
      rw [if_pos hok, take_succ_cons, without_cons, ← hw, collect_cons_snd_of_ok heq]
      exact hr
    · rename_i hn
      obtain ⟨e, s', heq, hf⟩ := hs
      rw [if_neg hn, take_zero, without_nil, collect_eq_err_cons.mpr (.inl heq)]
      exact ⟨hla.congr hf, liveMap_congr hf⟩

end

/-! ### Ending a job -/

/-- The calls that end a job. -/
inductive Ending where
  | release (releasePe returnValue : Bool)
  | tryRelease (releasePe returnValue : Bool)
  | drop

/-- The scheduler of a job has a place for its PE. -/
def Knows (pe : PE) : JobScheduler → Prop
  | .main s => (s.pes pe.typeId).isSome
  | .single _ => True

section

variable [Allocator σ]

/-- The state that an ending leaves. -/
def Ending.state (irq : InterruptReply) (s : JobState σ) : Ending → JobState σ
  | .release releasePe returnValue => (Job.release irq releasePe returnValue s).2
  | .tryRelease releasePe returnValue => (Job.tryRelease irq releasePe returnValue s).2
  | .drop => (Job.drop irq s).2

omit [Allocator σ] in
theorem giveBack_of_knows {pe : PE} (hpe : s.pe = some pe) (hidle : pe.active = false)
    (hknows : Knows pe s.scheduler) :
    ∃ sched, giveBack s = (.ok (), { s with pe := none, scheduler := sched }) := by
  have hok : (s.scheduler.releasePe pe).1 = .ok () := by
    cases hs : s.scheduler with
    | single q => rfl
    | main q =>
      rw [hs, Knows] at hknows
      obtain ⟨l, hl⟩ := Option.isSome_iff_exists.mp hknows
      simp only [JobScheduler.releasePe, Scheduler.releasePe, hidle, hl, Bool.false_eq_true,
        if_false]
  exact ⟨(s.scheduler.releasePe pe).2, giveBack_of_ok hpe (Prod.ext hok rfl)⟩

theorem handleCopyback_snd (rv : ℕ) (cb : Option (List CopyBack)) (s : JobState σ) :
    (handleCopyback rv cb s).2 = (collect copyBackOne (cb.getD []) s).2 := by
  cases cb with
  | none => rfl
  | some copybacks => exact bind_pure_snd (collect copyBackOne copybacks) _ s

section

variable {s : JobState σ} {pe : PE} (hpe : s.pe = some pe) (hidle : pe.active = false)
  (hknows : Knows pe s.scheduler) (irq : InterruptReply)

include hidle hknows

omit [Allocator σ] in
theorem exists_giveBack_then {α : Type} (rp : Bool) (k : JobM σ α) :
    ∃ s₁ : JobState σ, s₁.world = s.world ∧
      (do
        if rp then giveBack
        k) { s with pe := some { pe with copyBack := none } } = k s₁ := by
  cases rp with
  | false => exact ⟨{ s with pe := some { pe with copyBack := none } }, rfl, rfl⟩
  | true =>
    obtain ⟨sched, hg⟩ := giveBack_of_knows
      (s := { s with pe := some { pe with copyBack := none } }) rfl hidle hknows
    exact ⟨{ s with pe := none, scheduler := sched }, rfl, bind_of_ok hg⟩

include hpe

theorem exists_release (rp returnValue : Bool) :
    ∃ s₁ : JobState σ, s₁.world = s.world ∧ ∃ rv, Job.release irq rp returnValue s =
      handleCopyback rv pe.copyBack s₁ := by
  let rv := if returnValue then pe.returnValue s.world.registers else 0
  have hr : pe.release returnValue irq s.world.registers =
      (.ok (rv, pe.copyBack), { pe with copyBack := none }, s.world.registers) := by
    simp only [PE.release, PE.waitForCompletion, hidle, Bool.false_eq_true, if_false,
      PE.getCopyback, rv]
  obtain ⟨s₁, hw, heq⟩ := exists_giveBack_then hidle hknows rp (pure (rv, pe.copyBack))
  refine ⟨s₁, hw, rv, bind_of_ok (a := (rv, pe.copyBack)) ?_⟩
  rw [handOver, hpe]
  simp only [hr]
  exact heq

/-- **Ending a job whose PE is idle** carries out its notes. -/
theorem ending_of_idle (ending : Ending) :
    ∃ s₁ : JobState σ, s₁.world = s.world ∧
      (ending.state irq s).world = (collect copyBackOne (pe.copyBack.getD []) s₁).2.world := by
  cases ending with
  | release releasePe returnValue =>
    obtain ⟨s₁, hw, rv, heq⟩ := exists_release hpe hidle hknows irq releasePe returnValue
    refine ⟨s₁, hw, ?_⟩
    rw [Ending.state, heq, handleCopyback_snd]
  | tryRelease releasePe returnValue =>
    obtain ⟨⟨pe', hp, ha, -⟩, -⟩ | h := tryRelease_cases irq releasePe returnValue s
    · obtain rfl := Option.some.inj (hpe.symm.trans hp)
      exact absurd (ha.symm.trans hidle) (by simp)
    obtain ⟨s₁, hw, rv, heq⟩ := exists_release hpe hidle hknows irq releasePe returnValue
    refine ⟨s₁, hw, ?_⟩
    rw [Ending.state, h, bind_pure_snd, heq, handleCopyback_snd]
  | drop =>
    obtain ⟨s₁, hw, rv, heq⟩ := exists_release hpe hidle hknows irq true false
    refine ⟨s₁, hw, ?_⟩
    have hd : (Job.drop irq s).2 = (Job.release irq true false s).2 := by
      rw [Job.drop, hpe]
      generalize Job.release irq true false s = r
      rcases r with ⟨_ | _ | _, _⟩ <;> rfl
    rw [Ending.state, hd, heq, handleCopyback_snd]

end

end

end Tapasco.Job
