import Tapasco.DmaWaits

/-!
# A Single Caller Copies to the Device

When a call of `copy_to` is alone on the engine, it returns under every fair schedule of its own
steps and of the engine's, unless its data are empty and the channel was never used.

In every wait the call can go on, or the engine still has to complete a transfer or to raise an
interrupt.
-/

open Threads List

namespace Tapasco.CopyTo

open Pc Engine

/-! ### Pieces and buffers -/

def Pc.issuing : Pc → Bool
  | .steal | .fromDev _ | .fill _ | .toDev _ | .lock _ | .push _ | .schedule _ | .count => true
  | .waitEnter next | .waitCheck next | .waitRead next | .waitCount next _ => next
  | .waitPop next _ | .waitPush next _ _ => next
  | _ => false

/-- The address of the buffer for the piece whose size has been chosen. -/
def Pc.target : Pc → Option ℕ
  | .fill b | .toDev b | .lock b | .push b => some b.addr
  | .schedule a => some a
  | _ => none

/-- The next piece of a call is not empty, and not larger than its buffer. -/
structure Sized (buffers : List DMABuffer) (c : CopyTo) : Prop where
  issuing : c.pc.issuing = true → 0 < c.btt
  chosen : c.pc.chosen = true → 0 < c.bttThis
  fits : ∀ a, c.pc.target = some a → ∃ b ∈ buffers, b.addr = a ∧ c.bttThis ≤ b.size

theorem sized_call {buffers : List DMABuffer} (hs : ∀ b ∈ buffers, 0 < b.size) {c : CopyTo}
    (h : Sized buffers c) (hk : ∀ b ∈ c.pc.holding, b ∈ buffers) (t : ℕ) (reply : Reply)
    (s : Shared) : Sized buffers (step t reply s c).2 := by
  obtain ⟨hi, hc, hf⟩ := h
  fun_cases step t reply s c
  case case7 b hpc hr =>
    have hb : b ∈ buffers := hk b (by rw [hpc]; exact mem_singleton_self b)
    have hbt : 0 < c.btt := hi (by rw [hpc]; rfl)
    have hp := hs b hb
    refine ⟨fun _ => hbt, fun _ => ?_, ?_⟩
    · simp only
      split <;> omega
    · rintro a ha
      refine ⟨b, hb, Option.some.inj ha, ?_⟩
      simp only
      split <;> omega
  all_goals
    constructor <;>
      simp_all [goto, dropBuffer, issuing, chosen, target]

theorem lock_step_cases (t : ℕ) (reply : Reply) (s : Shared) (c : CopyTo) :
    (step t reply s c).1.lock = none ∨
      (step t reply s c).1.lock = some t ∧ (step t reply s c).2.pc.hasLock = true ∨
      (step t reply s c).1.lock = s.lock ∧ (step t reply s c).2.pc.hasLock = c.pc.hasLock := by
  fun_cases step t reply s c <;>
    simp_all [Shared.onChannel, goto, dropBuffer, hasLock]

def Pc.failed : Pc → Bool
  | .returned (.error _) => true
  | _ => false

theorem failed_step (t : ℕ) (reply : Reply) (s : Shared) {c : CopyTo} (h : c.pc.failed = true) :
    (step t reply s c).2.pc.failed = true := by
  fun_cases step t reply s c <;> simp_all [failed]

theorem failed_of_lost_step (t : ℕ) (reply : Reply) (s : Shared) (c : CopyTo) :
    (step t reply s c).1.lost = s.lost ∨ (step t reply s c).2.pc.failed = true := by
  fun_cases step t reply s c <;>
    simp_all [Shared.onChannel, goto, dropBuffer, failed]

namespace System

variable {s : System}

/-- Transfers are not empty, and not larger than their buffers. -/
structure Bounded (buffers : List DMABuffer) (s : System) : Prop where
  sized : ∀ c ∈ s.calls, Sized buffers c
  issued : ∀ st, ∀ x ∈ (s.engine st).issued,
    0 < x.desc.size ∧ ∃ b ∈ buffers, b.addr = x.desc.addrHost ∧ x.desc.size ≤ b.size

/-- The one that has the lock is at work with it. -/
def LockHeld (s : System) : Prop :=
  ∀ t, s.shared.lock = some t → ∃ c, s.calls[t]? = some c ∧ c.pc.hasLock = true

/-- If a buffer was dropped, a call has failed. -/
def LostByFailed (s : System) : Prop :=
  s.shared.lost ≠ [] → ∃ c ∈ s.calls, c.pc.failed = true

theorem Owned.mem_of_holding {buffers : List DMABuffer} (h : s.Owned buffers) {t : ℕ} {c : CopyTo}
    (hc : s.calls[t]? = some c) : ∀ b ∈ c.pc.holding, b ∈ buffers := by
  intro b hb
  refine h.known (.call t) b (Multiset.mem_coe.mpr ?_)
  rw [contents, hc]
  exact hb

theorem bounded_step {buffers : List DMABuffer} (hsi : ∀ b ∈ buffers, 0 < b.size)
    (how : s.Owned buffers) (h : s.Bounded buffers) (a : Action) : (s.step a).Bounded buffers := by
  refine ⟨forall_calls_step (fun _ _ _ => ?_) (fun t reply c hc hs => ?_) h.sized a, ?_⟩
  · exact ⟨fun hpc => absurd hpc Bool.false_ne_true, fun hpc => absurd hpc Bool.false_ne_true,
      fun _ ha => absurd ha (by simp [CopyTo.new, target])⟩
  · exact sized_call hsi hs (how.mem_of_holding hc) t reply s.shared
  refine step_rule (P := fun s => ∀ st, ∀ x ∈ (s.engine st).issued,
    0 < x.desc.size ∧ ∃ b ∈ buffers, b.addr = x.desc.addrHost ∧ x.desc.size ≤ b.size) h.issued
    (fun _ _ _ => h.issued) (fun t reply c hc st x hx => ?_) (fun stream f hf st => ?_) a
  · obtain ⟨i, hi⟩ := getElem?_of_mem hx
    obtain ho | ⟨a, hpc, -, -, rfl⟩ := issued_afterCall reply hi
    · exact h.issued st x (mem_of_getElem? ho)
    · have hs := h.sized c (mem_of_getElem? hc)
      exact ⟨hs.chosen (by rw [hpc]; rfl), hs.fits a (by rw [hpc]; rfl)⟩
  · obtain ⟨e, he, hw⟩ := s.channel_onEngine stream hf st
    simp only [engine, he, hw.issued]
    exact h.issued st

theorem lockHeld_step (h : s.LockHeld) (a : Action) : (s.step a).LockHeld :=
  step_rule h (fun _ _ _ => held_concat h _)
    (fun t reply c hc => held_set (f := fun c : CopyTo => c.pc.hasLock) h hc
      (lock_step_cases t reply s.shared c)) (fun _ _ _ => h) a

theorem lostByFailed_step (h : s.LostByFailed) (a : Action) : (s.step a).LostByFailed := by
  refine step_rule h (fun stream data ptr hl => ?_) (fun t reply c hc hl => ?_)
    (fun _ _ _ => h) a
  · obtain ⟨c, hc, hf⟩ := h hl
    exact ⟨c, mem_append_left _ hc, hf⟩
  have hs := mem_of_getElem? (getElem?_afterCall_self hc reply)
  obtain hsa | hf := failed_of_lost_step t reply s.shared c
  · rw [afterCall, hsa] at hl
    obtain ⟨d, hd, hf⟩ := h hl
    obtain ⟨u, hu⟩ := getElem?_of_mem hd
    by_cases hut : u = t
    · subst hut
      obtain rfl : c = d := Option.mem_unique hc hu
      exact ⟨_, hs, failed_step u reply s.shared hf⟩
    · exact ⟨d, mem_of_getElem? ((getElem?_afterCall_of_ne s reply c hut).trans hu), hf⟩
  · exact ⟨_, hs, hf⟩

end System

/-! ### The rank of a state -/

/-- How much a call has to do for the next piece. -/
def Pc.stage : Pc → ℕ
  | .loop => 9
  | .steal => 8
  | .fromDev _ => 7
  | .fill _ => 6
  | .toDev _ => 5
  | .lock _ => 4
  | .push _ => 3
  | .schedule _ => 2
  | .count => 1
  | .waitEnter next | .waitCheck next | .waitRead next | .waitCount next _ => if next then 8 else 0
  | .waitPop next _ | .waitPush next _ _ => if next then 8 else 0
  | .returned _ => 0

/-- How much a call has to do for the interrupts it has read. -/
def Pc.unhandled : Pc → ℕ
  | .waitCount _ n => 3 * n
  | .waitPop _ n => 3 * n + 2
  | .waitPush _ n _ => 3 * n + 1
  | _ => 0

/-- The call does not change anything when there is nothing to see. -/
def Pc.polls : Pc → Bool
  | .steal | .waitEnter _ | .waitCheck _ | .waitRead _ | .waitCount _ 0 => true
  | _ => false

/-- The steps up to the point in the waiting loop at which the wait ends. -/
def Pc.toEnd : Pc → ℕ
  | .waitCheck _ => 1
  | .waitEnter _ | .waitCount _ 0 => 2
  | .waitRead _ => 3
  | _ => 0

/-- The steps up to the point in the waiting loop at which the interrupts are read. -/
def Pc.toRead : Pc → ℕ
  | .waitCheck _ => 1
  | .waitEnter _ | .waitCount _ 0 => 2
  | .steal => 3
  | _ => 0

/-- What the call waits for is there: a buffer, or the interrupt of its last transfer. -/
def ready (s : Shared) (c : CopyTo) : Bool :=
  if c.pc.issuing then !s.toDevBuffer.isEmpty
  else decide (c.highestUsed < (s.channel c.stream).intCntr)

/-- The call waits, and there is nothing to see. -/
def stalled (s : Shared) (c : CopyTo) : Bool :=
  c.pc.polls && !ready s c && decide ((s.channel c.stream).engine.pending = 0)

/-- What is to be done for the transfers that were issued. -/
def backlog (s : Shared) (c : CopyTo) : ℕ :=
  let e := (s.channel c.stream).engine
  e.issued.length - e.done + 5 * (e.issued.length - e.raised) + 4 * e.pending + c.pc.unhandled

/-- The steps of the call up to the point at which it sees something. -/
def distance (s : Shared) (c : CopyTo) : ℕ :=
  if ready s c then c.pc.toEnd
  else if (s.channel c.stream).engine.pending = 0 then 0 else c.pc.toRead

/-- **The rank** of a state for a single caller. -/
def rank (s : Shared) (c : CopyTo) : ℕ :=
  32 * (10 * c.btt + c.pc.stage) + 4 * backlog s c + distance s c

theorem distance_le (s : Shared) (c : CopyTo) : distance s c ≤ 3 := by
  have he : c.pc.toEnd ≤ 3 := by
    fun_cases toEnd c.pc <;> decide
  have hr : c.pc.toRead ≤ 3 := by
    fun_cases toRead c.pc <;> decide
  rw [distance]
  split
  · exact he
  · split
    · exact Nat.zero_le 3
    · exact hr

section

variable (t : ℕ) {s : Shared} {c : CopyTo}

variable {reply : Reply}

theorem rank_work_lt (hre : reply = .ok) (hl : ∀ b, c.pc = .lock b → s.lock = none)
    (hou : ∀ next n, c.pc = .waitPop next n → (s.channel c.stream).out ≠ [])
    (hc : c.pc = .count → 0 < c.bttThis ∧ c.bttThis ≤ c.btt)
    (ho : (s.channel c.stream).engine.InOrder) (hr : ∀ r, c.pc ≠ .returned r)
    (hp : c.pc.polls = false) : rank (step t reply s c).1 (step t reply s c).2 < rank s c := by
  obtain ⟨hra, hd⟩ := ho
  rw [done] at hra hd
  have hle := distance_le (step t reply s c).1 (step t reply s c).2
  rw [rank, rank]
  revert hle
  generalize distance (step t reply s c).1 (step t reply s c).2 = d
  intro hle
  fun_cases step t reply s c <;>
    simp_all [backlog, Shared.onChannel, goto, stage, unhandled, polls, issue,
      done]
  all_goals omega

theorem rank_poll_lt_of_ready (hre : reply = .ok)
    (hs : c.stream = true → s.isVersal = true) (hp : c.pc.polls = true) (hr : ready s c = true) :
    (step t reply s c).2.pc = .returned (.ok ()) ∨
      rank (step t reply s c).1 (step t reply s c).2 < rank s c := by
  fun_cases step t reply s c
  case case5 hpc hc hn =>
    obtain ⟨b, rest, hpo⟩ := exists_cons_of_ne_nil (hn hre)
    exact absurd hpo (hc b rest hre)
  all_goals
    simp_all [rank, distance, backlog, ready, Shared.onChannel, goto, stage, unhandled,
      polls, toEnd, toRead, issuing, checkForInterrupt, done]
  all_goals grind

theorem rank_poll_lt_of_pending (hr : reply = .ok)
    (hs : c.stream = true → s.isVersal = true) (hpo : c.pc.polls = true)
    (hre : ready s c = false) (hp : (s.channel c.stream).engine.pending ≠ 0) :
    rank (step t reply s c).1 (step t reply s c).2 < rank s c := by
  fun_cases step t reply s c <;>
  simp_all [rank, distance, backlog, ready, Shared.onChannel, goto, stage, unhandled,
    polls, toEnd, toRead, issuing, checkForInterrupt, done]
  all_goals grind

theorem checkForInterrupt_of_pending {e : Engine (List Byte)} (h : e.pending = 0) :
    e.checkForInterrupt = e := by
  rw [checkForInterrupt, ← h]

theorem stalled_step_cases (hre : reply = .ok) (hsu : c.stream = true → s.isVersal = true)
    (hs : stalled s c = true) :
    ∃ pc, (step t reply s c).2 = c.goto pc ∧ pc.polls = true ∧ pc.issuing = c.pc.issuing ∧
      pc.stage = c.pc.stage ∧ pc.unhandled = c.pc.unhandled ∧
      (step t reply s c).1.toDevBuffer = s.toDevBuffer ∧
      (step t reply s c).1.channel = s.channel := by
  have hst : ∀ ch : Bool → Channel, (ch c.stream).engine.pending = 0 →
      Function.update ch c.stream
        { ch c.stream with engine := (ch c.stream).engine.checkForInterrupt } = ch := by
    intro ch hpe
    rw [checkForInterrupt_of_pending hpe]
    exact Function.update_eq_self _ _
  rw [stalled, Bool.and_eq_true, Bool.and_eq_true, decide_eq_true_iff] at hs
  obtain ⟨⟨hp, hr⟩, hpe⟩ := hs
  fun_cases step t reply s c
  case case5 hpc hc hn =>
    obtain ⟨b, rest, hpo⟩ := exists_cons_of_ne_nil (hn hre)
    exact absurd hpo (hc b rest hre)
  all_goals
    simp_all [ready, Shared.onChannel, goto, stage, unhandled, polls, issuing]

theorem stalled_step (hr : reply = .ok) (hsu : c.stream = true → s.isVersal = true)
    (hs : stalled s c = true) :
    rank (step t reply s c).1 (step t reply s c).2 = rank s c ∧
      stalled (step t reply s c).1 (step t reply s c).2 = true ∧
      (step t reply s c).1.channel = s.channel := by
  obtain ⟨pc, hca, hp, hi, hst, hu, hpo, hc⟩ := stalled_step_cases t hr hsu hs
  rw [stalled, Bool.and_eq_true, Bool.and_eq_true, decide_eq_true_iff] at hs
  obtain ⟨⟨-, hre⟩, hpe⟩ := hs
  have hsa : ready (step t reply s c).1 (c.goto pc) = ready s c := by
    rw [ready, ready, goto, hi, hpo, hc]
  rw [Bool.not_eq_true'] at hre
  rw [hca]
  refine ⟨?_, ?_, hc⟩
  · rw [rank, rank, distance, distance, backlog, backlog, hsa, hre, hc]
    simp only [goto, hst, hu, hpe]
    rfl
  · rw [stalled, hsa, hre, hc]
    simp [goto, hp, hpe]

end

/-! ### A single caller -/

namespace System

/-- A move while call `t` is at work on the channel `st`. -/
def move (t : ℕ) (st : Bool) (s : System) : Move → System
  | .caller => s.step (.step t .ok)
  | .complete => s.step (.complete st)
  | .raise => s.step (.raise st)

def Returned (t : ℕ) (s : System) : Prop :=
  ∃ c, s.calls[t]? = some c ∧ c.pc = .returned (.ok ())

/-- **Call `t` is alone**: it uses the channel `st`, which is supported, has data or a channel
that was used, and did not fail. The other calls have returned, no buffer was dropped, and the
other channel has none. -/
structure Single (buffers : List DMABuffer) (t : ℕ) (st : Bool) (s : System) : Prop where
  inv : s.Inv buffers
  waitable : s.AllWaitable
  bounded : s.Bounded buffers
  lockHeld : s.LockHeld
  call : ∃ c, s.calls[t]? = some c ∧ c.stream = st ∧ (c.data = [] → 0 < s.issuedFor c) ∧
    ∀ e, c.pc ≠ .returned (.error e)
  others : ∀ u d, s.calls[u]? = some d → u ≠ t → ∃ r, d.pc = .returned r
  supported : st = true → s.shared.isVersal = true
  lost : s.shared.lost = []
  drained : ∀ st', st' ≠ st → (s.shared.channel st').out = []

variable {buffers : List DMABuffer} {t : ℕ} {st : Bool} {s : System}

theorem Single.move (hb : (buffers.map DMABuffer.addr).Nodup)
    (hsi : ∀ b ∈ buffers, 0 < b.size) (h : s.Single buffers t st) (m : Move) :
    (s.move t st m).Single buffers t st := by
  obtain ⟨c, hc, hs, hda, her⟩ := h.call
  have hen : ∀ {f : Engine (List Byte) → Engine (List Byte)}, (∀ e, Engine.Works e (f e)) →
      (s.onEngine st f).Inv buffers → (s.onEngine st f).AllWaitable →
      (s.onEngine st f).Bounded buffers → (s.onEngine st f).Single buffers t st := by
    intro f hf hi hw hbo
    refine ⟨hi, hw, hbo, h.lockHeld, ⟨c, hc, hs, fun hn => ?_, her⟩, h.others,
      h.supported, h.lost, fun st' hs' => ?_⟩
    · rw [issuedFor_onEngine s st hf]
      exact hda hn
    · obtain ⟨e, he, -⟩ := s.channel_onEngine st hf st'
      rw [he]
      exact h.drained st' hs'
  cases m with
  | caller =>
    have ho := fun next n hpc => (out_ne_nil h.inv.counts h.inv.queued hc next n hpc).2
    have hsu : c.stream = true → s.shared.isVersal = true := hs ▸ h.supported
    obtain ⟨he', hl⟩ := error_step t .ok s.shared c (by simp) hsu ho her
    refine ⟨inv_step hb h.inv (.step t .ok), allWaitable_step h.waitable h.inv.queued (.step t .ok),
      bounded_step hsi h.inv.owned h.bounded (.step t .ok),
      lockHeld_step h.lockHeld (.step t .ok), ?_, ?_, ?_, ?_, ?_⟩
    all_goals rw [System.move, step_of_call hc]
    · refine ⟨_, getElem?_afterCall_self hc .ok, (stream_step t .ok s.shared c).trans hs,
        fun hn => ?_, he'⟩
      rw [data_step] at hn
      exact (hda hn).trans_le
        (issuedFor_le_afterCall s t .ok c (stream_step t .ok s.shared c))
    · intro u d hd hut
      rw [getElem?_afterCall_of_ne s .ok c hut] at hd
      exact h.others u d hd hut
    · rw [afterCall, isVersal_step]
      exact h.supported
    · exact hl.trans h.lost
    · intro st' hs'
      rw [afterCall, channel_step_of_ne t .ok s.shared c (hs ▸ hs')]
      exact h.drained st' hs'
  | complete =>
    exact hen (works_complete _) (inv_step hb h.inv (.complete st))
      (allWaitable_step h.waitable h.inv.queued (.complete st))
      (bounded_step hsi h.inv.owned h.bounded (.complete st))
  | raise =>
    exact hen works_raise (inv_step hb h.inv (.raise st))
      (allWaitable_step h.waitable h.inv.queued (.raise st))
      (bounded_step hsi h.inv.owned h.bounded (.raise st))

variable {c : CopyTo}

theorem Single.total_share (h : s.Single buffers t st) (hc : s.calls[t]? = some c)
    (hs : c.stream = st) {f : Pc → ℕ} (hf : ∀ r, f (.returned r) = 0) :
    total (share CopyTo.stream st fun c => f c.pc) s.calls = f c.pc := by
  subst hs
  refine total_share_of_unique hc fun u d hut hd => ?_
  obtain ⟨r, hr⟩ := h.others u d hd hut
  rw [hr]
  exact hf r

theorem Single.out_ne_nil (hne : buffers ≠ []) (h : s.Single buffers t st)
    (hc : s.calls[t]? = some c) (hp : s.shared.toDevBuffer = []) (hh : c.pc.holding = []) :
    (s.shared.channel st).out ≠ [] := by
  intro ho
  obtain ⟨b, hb⟩ := exists_mem_of_ne_nil buffers hne
  obtain ⟨p, hco, -⟩ := h.inv.owned.unique b hb
  have hn : s.contents p = [] := by
    cases p with
    | pool => exact hp
    | out st' =>
      by_cases hs : st' = st
      · rw [hs]
        exact ho
      · exact h.drained st' hs
    | lost => exact h.lost
    | call u =>
      cases hd : s.calls[u]? with
      | none => rw [contents, hd]; rfl
      | some d =>
        rw [contents, hd, Option.elim_some]
        by_cases hut : u = t
        · subst hut
          obtain rfl : c = d := Option.mem_unique hc hd
          exact hh
        · obtain ⟨r, hr⟩ := h.others u d hd hut
          rw [hr]
          rfl
  rw [hn] at hco
  simp at hco

theorem Single.length_out (h : s.Single buffers t st) (hc : s.calls[t]? = some c)
    (hun : c.pc.unscheduled = []) :
    (s.shared.channel st).out.length =
      (s.engine st).issued.length - (s.shared.channel st).popped := by
  have hn : s.calls.flatMap (unscheduledOn st) = [] := by
    refine flatMap_eq_nil_iff.mpr fun d hd => ?_
    obtain ⟨u, hu⟩ := getElem?_of_mem hd
    rw [unscheduledOn]
    by_cases hut : u = t
    · subst hut
      obtain rfl : c = d := Option.mem_unique hc hu
      rw [hun, ite_self]
    · obtain ⟨r, hr⟩ := h.others u d hu hut
      rw [hr]
      exact ite_self _
  have hq := congrArg List.length (h.inv.queued.queue st)
  rw [hn, append_nil, length_map, length_map, length_drop] at hq
  exact hq.symm

theorem nothing_of_polls {pc : Pc} (h : pc.polls = true) :
    pc.toCount = 0 ∧ pc.toPop = 0 ∧ pc.unscheduled = [] ∧ pc.holding = [] ∧
      (pc.issuing = false → pc.issuedAll = true) := by
  fun_cases polls pc <;>
    simp_all [toCount, toPop, unscheduled, holding, issuing, issuedAll,
      inLastWait, polls]

theorem Single.raised_lt (hne : buffers ≠ []) (h : s.Single buffers t st)
    (hc : s.calls[t]? = some c) (hs : stalled s.shared c = true) :
    (s.engine st).raised < (s.engine st).issued.length := by
  obtain ⟨d, hd, hst, hda, -⟩ := h.call
  obtain rfl : c = d := Option.mem_unique hc hd
  rw [stalled, Bool.and_eq_true, Bool.and_eq_true, decide_eq_true_iff, Bool.not_eq_true'] at hs
  obtain ⟨⟨hpo, hr⟩, hpe⟩ := hs
  obtain ⟨ht, htoP, hu, hh, hiss⟩ := nothing_of_polls hpo
  have hco := h.inv.counts.counted st
  have hp := h.inv.counts.popped st
  rw [h.total_share hc hst fun _ => rfl, ht] at hco
  rw [h.total_share hc hst fun _ => rfl, htoP] at hp
  have hpe : (s.engine st).pending = 0 := hst ▸ hpe
  rw [ready, hst] at hr
  split at hr
  · -- all buffers are in the queue
    rw [Bool.not_eq_false', List.isEmpty_iff] at hr
    have ho := length_pos_of_ne_nil (h.out_ne_nil hne hc hr hh)
    rw [h.length_out hc hu] at ho
    omega
  · -- the last transfer of the call is not counted
    rename_i hi
    rw [decide_eq_false_iff_not] at hr
    have hlt := highestUsed_lt (h.waitable c (mem_of_getElem? hc))
      (hiss (Bool.eq_false_iff.mpr hi)) hda
    rw [issuedFor, hst] at hlt
    omega

def rankOf (t : ℕ) (s : System) : ℕ :=
  (s.calls[t]?).elim 0 (CopyTo.rank s.shared)

/-- The move that helps the call: its own, unless it is stalled. -/
def helpful (t : ℕ) (st : Bool) (s : System) : Move :=
  if (s.calls[t]?).any (stalled s.shared) then (s.engine st).nextMove else .caller

theorem rankOf_eq (hc : s.calls[t]? = some c) : s.rankOf t = CopyTo.rank s.shared c := by
  rw [rankOf, hc]
  rfl

theorem helpful_of_stalled (st : Bool) (hc : s.calls[t]? = some c)
    (hs : stalled s.shared c = true) : s.helpful t st = (s.engine st).nextMove := by
  rw [helpful, hc, Option.any_some, if_pos hs]

theorem stalled_of_helpful (hc : s.calls[t]? = some c) (hn : s.helpful t st ≠ .caller) :
    stalled s.shared c = true := by
  by_contra hs
  exact hn (by rw [helpful, hc, Option.any_some, if_neg hs])

theorem onEngine_eq_self {f : Engine (List Byte) → Engine (List Byte)}
    (h : f (s.engine st) = s.engine st) : s.onEngine st f = s := by
  rw [onEngine, Shared.onChannel, h]
  simp

theorem rank_onEngine_lt {f : Engine (List Byte) → Engine (List Byte)} (hs : c.stream = st)
    (h : (f (s.engine st)).toDo < (s.engine st).toDo) :
    CopyTo.rank (s.onEngine st f).shared c < CopyTo.rank s.shared c := by
  subst hs
  have hle := distance_le (s.onEngine c.stream f).shared c
  have hb : backlog (s.onEngine c.stream f).shared c < backlog s.shared c := by
    rw [engine, toDo, toDo] at h
    simp only [backlog, onEngine, Shared.onChannel, Function.update_self]
    omega
  rw [CopyTo.rank, CopyTo.rank]
  omega

theorem Single.advances_caller (h : s.Single buffers t st) (hret : ¬ s.Returned t) :
    Progress.Advances (System.move t st) (Returned t) (rankOf t) (helpful t st) s .caller := by
  obtain ⟨c, hc, hst, -, he⟩ := h.call
  have hse := getElem?_afterCall_self hc .ok
  have hsu : c.stream = true → s.shared.isVersal = true := hst ▸ h.supported
  rw [Progress.Advances, System.move, step_of_call hc, rankOf_eq hse, rankOf_eq hc, afterCall]
  cases hp : c.pc.polls with
  | false =>
    refine .inr (.inl (rank_work_lt t rfl (fun b hpc => ?_) (fun next n hpc => ?_) ?_ ?_ ?_ hp))
    · -- the lock is free, because its holder would be at work with it
      have hn : c.pc.hasLock = false := by rw [hpc]; rfl
      refine lock_eq_none_of_others (f := fun c : CopyTo => c.pc.hasLock) h.lockHeld hc hn ?_
      intro u d hd hut
      obtain ⟨r, hr⟩ := h.others u d hd hut
      rw [hr]
      rfl
    · exact (System.out_ne_nil h.inv.counts h.inv.queued hc next n hpc).2
    · intro hpc
      have hm := mem_of_getElem? hc
      exact ⟨(h.bounded.sized c hm).chosen (by rw [hpc]; rfl),
        (h.inv.intact.inRange c hm).2 (by rw [hpc]; rfl)⟩
    · exact h.inv.counts.inOrder c.stream
    · rintro (e | _) hr
      · exact he e hr
      · exact hret ⟨c, hc, hr⟩
  | true =>
    cases hre : ready s.shared c with
    | true =>
      obtain hdon | hlt := rank_poll_lt_of_ready t rfl hsu hp hre
      · exact .inl ⟨_, hse, hdon⟩
      · exact .inr (.inl hlt)
    | false =>
      by_cases hpe : (s.engine c.stream).pending = 0
      · have hs : stalled s.shared c = true := by simp [stalled, hp, hre, hpe]
        obtain ⟨hra, hs', hch⟩ := stalled_step t rfl hsu hs
        refine .inr (.inr ⟨?_, hra, ?_⟩)
        · rw [helpful_of_stalled st hc hs, nextMove]
          split <;> simp
        · have ha := helpful_of_stalled (s := s.afterCall t .ok c) st hse hs'
          rw [System.afterCall, engine, hch] at ha
          rw [ha, helpful_of_stalled st hc hs]
      · exact .inr (.inl (rank_poll_lt_of_pending t rfl hsu hp hre hpe))

theorem Single.advances_engine (hne : buffers ≠ []) (h : s.Single buffers t st) {m : Move}
    (hm : m ≠ .caller) :
    Progress.Advances (System.move t st) (Returned t) (rankOf t) (helpful t st) s m := by
  obtain ⟨c, hc, hst, -, -⟩ := h.call
  have hl : ∀ {f : Engine (List Byte) → Engine (List Byte)},
      (f (s.engine st)).toDo < (s.engine st).toDo →
        (s.onEngine st f).rankOf t < s.rankOf t := by
    intro f hlt
    rw [rankOf_eq hc, rankOf_eq (s := s.onEngine st f) hc]
    exact rank_onEngine_lt hst hlt
  refine advances (h.inv.counts.inOrder st) (fun hn => ?_) (fun hlt => ?_)
    (fun hn => ?_) hl onEngine_eq_self hm
  · have hs := stalled_of_helpful hc hn
    exact ⟨h.raised_lt hne hc hs, helpful_of_stalled st hc hs⟩
  · rw [System.move, step]
    exact hl (toDo_complete_lt hlt _)
  · rw [System.move, step]
    exact onEngine_eq_self (complete_eq_self hn _)

/-- The call returns **if its data are not empty or the channel was used before**. -/
theorem Single.returns (hb : (buffers.map DMABuffer.addr).Nodup)
    (hsi : ∀ b ∈ buffers, 0 < b.size) (hne : buffers ≠ []) (h : s.Single buffers t st)
    {sched : ℕ → Move} (hf : Progress.Fair sched) :
    ∃ n, (Progress.state (System.move t st) s sched n).Returned t := by
  refine Progress.eventually_of_rank (rankOf t) (helpful t st) (I := Single buffers t st)
    (fun s m hs => hs.move hb hsi m) (fun s m hs hr => ?_) h hf
  by_cases hm : m = .caller
  · subst hm
    exact hs.advances_caller hr
  · exact hs.advances_engine hne hm

end System

end Tapasco.CopyTo
