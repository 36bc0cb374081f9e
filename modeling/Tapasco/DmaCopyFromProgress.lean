import Tapasco.UserSpaceDma
import Mathlib.Data.Prod.Lex

/-!
# A Single Caller Copies from the Device

When a call of `copy_from` is alone on the engine, it returns under every fair schedule of its own
steps and of the engine's.

The loop in which the call waits reads the interrupts, copies the pieces back whose transfers are
counted, and looks for a buffer, or for the end. In every round one of these is possible, or the
engine still has to complete a transfer or to raise an interrupt.
-/

open Lists Threads List

namespace Tapasco.CopyFrom

open Pc Engine

/-! ### Pieces and buffers -/

def Pc.issuing : Pc → Bool
  | .update last | .add last _ | .load last | .release last _ _ => !last
  | .copyback last _ _ _ _ | .give last _ _ _ | .retain last _ => !last
  | .steal | .toDev _ | .lock _ | .schedule _ | .count _ => true
  | _ => false

/-- The number of counted interrupts that the pass over `used_buffers` goes by. -/
def Pc.passUsed : Pc → ℕ
  | .release _ used _ | .copyback _ used _ _ _ | .give _ used _ _ | .retain _ used => used
  | _ => 0

/-- The call has bytes to issue where it says so, and entries without a buffer are those that
the present pass has taken care of. -/
structure Fresh (c : CopyFrom) : Prop where
  issuing : c.pc.issuing = true → 0 < c.btt
  spent : ∀ e ∈ c.usedBuffers, e.buf = none → e.cntr < c.pc.passUsed

variable {c : CopyFrom}

theorem fresh_call (h : Fresh c) (t : ℕ) (r : Reply) (s : Shared) : Fresh (step t r s c).2 := by
  obtain ⟨hi, hs⟩ := h
  -- a pass ends with the removal of the entries it has taken care of
  have hr : ∀ used, c.pc.passUsed = used → ∀ e ∈ c.retained used, e.buf ≠ none := by
    intro used hu e he hn
    obtain ⟨hm, hle⟩ := mem_filter.mp he
    have hlt := hs e hm hn
    rw [decide_eq_true_iff] at hle
    omega
  fun_cases step t r s c
  case case9 last used i hpc e he hlt b hb =>
    refine ⟨fun hpc' => hi (by rw [hpc]; exact hpc'), fun x hx hn => ?_⟩
    obtain ho | rfl := mem_or_eq_of_mem_set hx
    · have hx' := hs x ho hn
      rw [hpc] at hx'
      exact hx'
    · exact hlt
  case case16 used hpc =>
    exact ⟨fun hpc' => absurd hpc' Bool.false_ne_true,
      fun e he hn => absurd hn (hr used (by rw [hpc]; rfl) e he)⟩
  case case17 used hpc =>
    exact ⟨fun _ => hi (by rw [hpc]; rfl),
      fun e he hn => absurd hn (hr used (by rw [hpc]; rfl) e he)⟩
  all_goals
    constructor <;>
      simp_all [goto, fail, issuing, passUsed]
  all_goals grind

theorem lock_step_cases (t : ℕ) (r : Reply) (s : Shared) (c : CopyFrom) :
    (step t r s c).1.lock = none ∨
      (step t r s c).1.lock = some t ∧ (step t r s c).2.pc.hasLock = true ∨
      (step t r s c).1.lock = s.lock ∧ (step t r s c).2.pc.hasLock = c.pc.hasLock := by
  fun_cases step t r s c <;>
    simp_all [Shared.onChannel, goto, fail, hasLock]

theorem bttThis_le (c : CopyFrom) (b : DMABuffer) : c.bttThis b ≤ c.btt ∧ c.bttThis b ≤ b.size := by
  rw [bttThis]
  split <;> omega

theorem bttThis_pos {b : DMABuffer} (hbt : 0 < c.btt) (hb : 0 < b.size) : 0 < c.bttThis b := by
  rw [bttThis]
  split <;> omega

namespace System

/-- Transfers are not empty, and not larger than their buffers. -/
structure Bounded (buffers : List DMABuffer) (s : System) : Prop where
  fresh : ∀ c ∈ s.calls, Fresh c
  issued : ∀ st, ∀ x ∈ (s.engine st).issued,
    0 < x.desc.size ∧ ∃ b ∈ buffers, b.addr = x.desc.addrHost ∧ x.desc.size ≤ b.size

/-- The one that has the lock is at work with it. -/
def LockHeld (s : System) : Prop :=
  ∀ t, s.shared.lock = some t → ∃ c, s.calls[t]? = some c ∧ c.pc.hasLock = true

theorem Owned.mem_of_holding {buffers : List DMABuffer} {s : System} (h : s.Owned buffers) {t : ℕ}
    {c : CopyFrom} (hc : s.calls[t]? = some c) : ∀ b ∈ c.holding, b ∈ buffers := by
  intro b hb
  refine h.known (.call t) b (Multiset.mem_coe.mpr ?_)
  rw [contents_call hc]
  exact hb

theorem bounded_step {buffers : List DMABuffer} (hs : ∀ b ∈ buffers, 0 < b.size) {s : System}
    (how : s.Owned buffers) (h : s.Bounded buffers) (a : Action) : (s.step a).Bounded buffers := by
  refine step_rule h (fun stream ptr data => ⟨forall_concat h.fresh ?_, h.issued⟩)
    (fun t reply c hc => ?_) (fun stream f mapped hf => ⟨h.fresh, fun st x hx => ?_⟩) a
  · exact ⟨fun hpc => absurd hpc Bool.false_ne_true, fun e he => absurd he not_mem_nil⟩
  · have hfr := h.fresh c (mem_of_getElem? hc)
    refine ⟨forall_set h.fresh (fresh_call hfr t reply s.shared), fun st x hx => ?_⟩
    obtain ⟨i, hi⟩ := getElem?_of_mem hx
    obtain ho | ⟨b, hpc, -, rfl, -⟩ := getElem?_issued_cases hi
    · exact h.issued st x (mem_of_getElem? ho)
    have hb : b ∈ buffers := how.mem_of_holding hc b (by
      rw [holding, hpc]
      exact mem_cons_self)
    have hbt := hfr.issuing (by rw [hpc]; rfl)
    exact ⟨bttThis_pos hbt (hs b hb), b, hb, rfl, (bttThis_le c b).2⟩
  · rw [issued_afterEngine hf] at hx
    exact h.issued st x hx

theorem lockHeld_step {s : System} (h : s.LockHeld) (a : Action) : (s.step a).LockHeld :=
  step_rule h (fun _ _ _ => held_concat h _)
    (fun t reply c hc => held_set (f := fun c : CopyFrom => c.pc.hasLock) h hc
      (lock_step_cases t reply s.shared c)) (fun _ _ _ _ => h) a

end System

/-! ### The rank of a state -/

/-- How much a call has to do for the next piece. -/
def Pc.stage : Pc → ℕ
  | .loop => 9
  | .toDev _ => 7
  | .lock _ => 6
  | .schedule _ => 5
  | .count _ => 4
  | pc => if pc.issuing then 8 else 0

/-- How much a call has to do for the interrupts it has read and the piece it copies back. -/
def Pc.unhandled : Pc → ℕ
  | .add _ n => 3 * n
  | .copyback _ _ _ _ _ => 2
  | .give _ _ _ _ => 1
  | _ => 0

/-- The call does not change anything when there is nothing to see. -/
def Pc.polls : Pc → Bool
  | .update _ | .add _ 0 | .load _ | .release _ _ _ | .retain _ _ | .steal | .drain => true
  | _ => false

/-- The steps up to the point in the loop at which the interrupts are read, where
`used_buffers` has `len` entries. -/
def Pc.toUpdate (len : ℕ) : Pc → ℕ
  | .steal => 1
  | .retain _ _ => 2
  | .release _ _ i => 3 + (len - i)
  | .load _ => 4 + len
  | .drain => 5 + len
  | .add _ _ => 6 + len
  | _ => 0

/-- The steps up to the point in the loop at which a buffer is taken out of `used_buffers`. -/
def Pc.toTake (len : ℕ) : Pc → ℕ
  | .release _ _ i => len - i
  | .load _ => 1 + len
  | .drain => 2 + len
  | .add _ _ => 3 + len
  | .update _ => 4 + len
  | .steal => 5 + len
  | _ => 0

/-- The steps up to the point in the loop at which a buffer is stolen, or the end is seen. -/
def Pc.toEnd (len : ℕ) : Pc → ℕ
  | .retain last _ => if last then 3 else 1
  | .release last _ i => (if last then 4 else 2) + (len - i)
  | .load last => (if last then 5 else 3) + len
  | .add last _ => if last then 1 else 4 + len
  | .update last => if last then 2 else 5 + len
  | _ => 0

def waiting (c : CopyFrom) : List Piece :=
  c.usedBuffers.filterMap UsedBuffer.piece

/-- A piece can be copied back. -/
def ripe (s : Shared) (c : CopyFrom) : Bool :=
  c.waiting.any fun p => decide (p.number < (s.channel c.stream).intCntr)

/-- What the call waits for is there: a buffer, or the last of its pieces. -/
def ready (s : Shared) (c : CopyFrom) : Bool :=
  if c.pc.issuing then !s.fromDevBuffer.isEmpty else c.waiting.isEmpty

/-- The call waits, and there is nothing to see. -/
def stalled (s : Shared) (c : CopyFrom) : Bool :=
  c.pc.polls && decide ((s.channel c.stream).engine.pending = 0) && !ripe s c && !ready s c

/-- What is to be done for the transfers that were issued. -/
def backlog (s : Shared) (c : CopyFrom) : ℕ :=
  let e := (s.channel c.stream).engine
  e.issued.length - e.done + 5 * (e.issued.length - e.raised) + 4 * e.pending +
    c.pc.unhandled + 3 * c.waiting.length

/-- The steps of the call up to the point at which it sees something. -/
def distance (s : Shared) (c : CopyFrom) : ℕ :=
  if (s.channel c.stream).engine.pending ≠ 0 then c.pc.toUpdate c.usedBuffers.length
  else if ripe s c then c.pc.toTake c.usedBuffers.length
  else if ready s c then c.pc.toEnd c.usedBuffers.length
  else 0

/-- **The rank** of a state for a single caller. -/
def rank (s : Shared) (c : CopyFrom) : ℕ ×ₗ ℕ ×ₗ ℕ :=
  toLex (10 * c.btt + c.pc.stage, toLex (backlog s c, distance s c))

theorem rank_lt_iff {s s' : Shared} {c' : CopyFrom} : rank s' c' < rank s c ↔
    10 * c'.btt + c'.pc.stage < 10 * c.btt + c.pc.stage ∨
      10 * c'.btt + c'.pc.stage = 10 * c.btt + c.pc.stage ∧
        (backlog s' c' < backlog s c ∨
          backlog s' c' = backlog s c ∧ distance s' c' < distance s c) := by
  rw [rank, rank, Prod.Lex.toLex_lt_toLex, Prod.Lex.toLex_lt_toLex]

theorem Pc.polls_add (last : Bool) (n : ℕ) : (add last n).polls = decide (n = 0) := by
  cases n <;> rfl

section

variable (t : ℕ) {s : Shared} {c : CopyFrom}

theorem rank_work_lt {rep : Reply} (hre : rep = .ok) (hl : ∀ b, c.pc = .lock b → s.lock = none)
    (hc : ∀ b, c.pc = .count b → 0 < c.bttThis b) (hr : ∀ r, c.pc ≠ .returned r)
    (hpo : c.pc.polls = false) : rank (step t rep s c).1 (step t rep s c).2 < rank s c := by
  rw [rank_lt_iff]
  fun_cases step t rep s c
  case case6 n hpc =>
    rw [hpc, polls_add, decide_eq_false_iff_not] at hpo
    simp [hpc, backlog, Shared.onChannel, goto, stage, issuing, unhandled, done,
      waiting, Nat.pos_of_ne_zero hpo]
  case case7 n hpc =>
    rw [hpc, polls_add, decide_eq_false_iff_not] at hpo
    simp [hpc, backlog, Shared.onChannel, goto, stage, issuing, unhandled, done,
      waiting, Nat.pos_of_ne_zero hpo]
  case case25 b hpc =>
    have hp := hc b hpc
    have hle := (bttThis_le c b).1
    refine .inl ?_
    simp only [hpc, stage]
    omega
  all_goals
    simp_all [backlog, Shared.onChannel, goto, stage, issuing, unhandled, polls,
      done, waiting]

/-- One step of the waiting loop that finds nothing, from one place to the next. -/
inductive Turn (s : Shared) (c : CopyFrom) : Pc → Pc → Prop
  | update (last : Bool) (h : (s.channel c.stream).engine.pending = 0) :
      Turn s c (.update last) (.add last 0)
  | add : Turn s c (.add false 0) (.load false)
  | addLast : Turn s c (.add true 0) .drain
  | load (last : Bool) : Turn s c (.load last) (.release last (s.channel c.stream).intCntr 0)
  | skip (last : Bool) (used i : ℕ) (h : i < c.usedBuffers.length) :
      Turn s c (.release last used i) (.release last used (i + 1))
  | pass (last : Bool) (used i : ℕ) (h : ∀ e, c.usedBuffers[i]? = some e → used ≤ e.cntr) :
      Turn s c (.release last used i) (.retain last used)
  | retain (used : ℕ) : Turn s c (.retain false used) .steal
  | retainLast (used : ℕ) : Turn s c (.retain true used) (.update true)
  | steal (h : s.fromDevBuffer = []) : Turn s c .steal (.update false)
  | drain (h : c.usedBuffers ≠ []) : Turn s c .drain (.load true)

/-- What is asked of a step of a poll that finds nothing. -/
structure Turns (s : Shared) (c : CopyFrom) (s' : Shared) (c' : CopyFrom) : Prop where
  turn : Turn s c c.pc c'.pc
  same : c' = { c with usedBuffers := c'.usedBuffers, pc := c'.pc }
  channel : s'.channel = s.channel
  pool : s'.fromDevBuffer = s.fromDevBuffer
  waiting : c'.waiting = c.waiting
  usedBuffers : c'.usedBuffers.length = c.usedBuffers.length ∨
    ∃ last used, c.pc = .retain last used

theorem turns_goto {pc pc' : Pc} (hpc : c.pc = pc) (h : Turn s c pc pc') :
    Turns s c s (c.goto pc') :=
  ⟨hpc.symm ▸ h, rfl, rfl, rfl, rfl, .inl rfl⟩

theorem turns_onChannel {pc pc' : Pc} (hpc : c.pc = pc) (h : Turn s c pc pc')
    {f : Channel → Channel} (hf : f (s.channel c.stream) = s.channel c.stream) :
    Turns s c (s.onChannel c.stream f) (c.goto pc') :=
  ⟨hpc.symm ▸ h, rfl, by rw [Shared.onChannel, hf]; exact Function.update_eq_self _ _, rfl, rfl,
    .inl rfl⟩

/-- **What a step of a poll does**: it ends the call, lowers the rank, or finds nothing and
goes on. -/
theorem poll_step_cases {r : Reply} (hr : r = .ok) (ht : Tidy s c)
    (hsu : c.stream = true → s.isVersal = true) (hp : c.pc.polls = true) :
    (step t r s c).2.pc = .returned (.ok ()) ∨
      rank (step t r s c).1 (step t r s c).2 < rank s c ∨
      Turns s c (step t r s c).1 (step t r s c).2 := by
  fun_cases step t r s c
  case case5 last hpc hs hf =>
    by_cases hpe : (s.channel c.stream).engine.pending = 0
    · refine .inr (.inr (turns_onChannel (f := fun ch =>
        { ch with engine := ch.engine.checkForInterrupt }) hpc ?_ ?_))
      · rw [hpe]
        exact .update last hpe
      · rw [checkForInterrupt, ← hpe]
    · refine .inr (.inl (rank_lt_iff.mpr (.inr ⟨?_, .inl ?_⟩)))
      · simp [hpc, goto, stage, issuing]
      · simp [hpc, backlog, Shared.onChannel, goto, unhandled, checkForInterrupt,
          done, waiting]
        omega
  case case6 n hpc =>
    rw [hpc, polls_add, decide_eq_true_iff] at hp
    subst hp
    exact .inr (.inr (turns_onChannel (f := fun ch => { ch with intCntr := ch.intCntr + 0 }) hpc
      .addLast rfl))
  case case7 n hpc =>
    rw [hpc, polls_add, decide_eq_true_iff] at hp
    subst hp
    exact .inr (.inr (turns_onChannel (f := fun ch => { ch with intCntr := ch.intCntr + 0 }) hpc
      .add rfl))
  case case8 last hpc => exact .inr (.inr (turns_goto hpc (.load last)))
  case case9 last used i hpc e he hlt b hb =>
    obtain ⟨pre, post, hl, rfl⟩ := exists_append_of_getElem? he
    have hpr : ∀ e ∈ pre, e.buf = none := by simpa [hpc, hl, scanned] using ht.scanned
    have hpi := congrArg List.length (filterMap_piece_release post hpr hb)
    rw [length_cons] at hpi
    refine .inr (.inl (rank_lt_iff.mpr (.inr ⟨?_, .inl ?_⟩)))
    · simp [hpc, stage, issuing]
    · simp only [backlog, waiting, hpc, hl, set_append_cons, unhandled, ← hpi]
      omega
  case case10 last used i hpc e he hlt hb =>
    exact .inr (.inr (turns_goto hpc (.skip last used i (lt_of_getElem? he))))
  case case11 last used i hpc e he hlt =>
    refine .inr (.inr (turns_goto hpc (.pass last used i fun e' he' => ?_)))
    obtain rfl : e = e' := Option.mem_unique he he'
    exact not_lt.mp hlt
  case case12 last used i hpc hno =>
    exact .inr (.inr (turns_goto hpc
      (.pass last used i fun e he => absurd (hno.symm.trans he) (by simp))))
  case case16 used hpc =>
    exact .inr (.inr ⟨hpc.symm ▸ .retainLast used, rfl, rfl, rfl,
      filterMap_piece_retained (ht.passed true used hpc), .inr ⟨true, used, hpc⟩⟩)
  case case17 used hpc =>
    exact .inr (.inr ⟨hpc.symm ▸ .retain used, rfl, rfl, rfl,
      filterMap_piece_retained (ht.passed false used hpc), .inr ⟨false, used, hpc⟩⟩)
  case case18 hpc b rest hpo =>
    exact .inr (.inl (rank_lt_iff.mpr (.inl (by simp [hpc, goto, stage, issuing]))))
  case case19 hpc hc =>
    have hn : s.fromDevBuffer = [] := by
      by_contra hne
      obtain ⟨b, rest, hpo⟩ := exists_cons_of_ne_nil hne
      exact hc b rest hr hpo
    exact .inr (.inr (turns_goto hpc (.steal hn)))
  case case26 hpc hn => exact .inl rfl
  case case27 hpc hne => exact .inr (.inr (turns_goto hpc (.drain hne)))
  all_goals simp_all [polls]

theorem not_ripe_of_pass (ht : Tidy s c) {last : Bool} {used i : ℕ}
    (hpc : c.pc = .release last used i) (hu : used = (s.channel c.stream).intCntr)
    (hen : ∀ e, c.usedBuffers[i]? = some e → used ≤ e.cntr) : ripe s c = false := by
  rw [ripe, any_eq_false]
  intro p hp hr
  obtain ⟨e, he, hpi⟩ := mem_filterMap.mp hp
  obtain ⟨b, hb, rfl⟩ := Option.map_eq_some_iff.mp hpi
  replace hr : e.cntr < used := hu ▸ decide_eq_true_iff.mp hr
  obtain ⟨j, hj⟩ := getElem?_of_mem he
  have hlt := lt_of_getElem? hj
  -- the entries before `i` have no buffers
  have hij : i ≤ j := by
    by_contra hji
    have hta : e ∈ c.usedBuffers.take c.pc.scanned := by
      rw [hpc, scanned]
      refine mem_of_getElem? (i := j) ?_
      rw [getElem?_take_of_lt (not_le.mp hji)]
      exact hj
    exact absurd (hb.symm.trans (ht.scanned e hta)) (by simp)
  -- and those from `i` on have numbers that are too large
  obtain ⟨first, hf⟩ : ∃ first, c.usedBuffers[i]? = some first :=
    ⟨_, getElem?_eq_getElem (lt_of_le_of_lt hij hlt)⟩
  have hle := hen first hf
  obtain rfl | hlt' := eq_or_lt_of_le hij
  · obtain rfl : e = first := Option.mem_unique hj hf
    omega
  have ha := pairwise_iff_getElem.mp (pairwise_map.mp ht.ascending) i j
    (lt_of_le_of_lt hij hlt) hlt hlt'
  rw [← (List.getElem?_eq_some_iff.mp hj).2] at hr
  rw [← (List.getElem?_eq_some_iff.mp hf).2] at hle
  omega

theorem not_ripe_of_retain (ht : Tidy s c) {last : Bool} {used : ℕ}
    (hpc : c.pc = .retain last used) (hu : used = (s.channel c.stream).intCntr) :
    ripe s c = false := by
  rw [ripe, any_eq_false]
  intro p hp hr
  obtain ⟨e, he, hpi⟩ := mem_filterMap.mp hp
  obtain ⟨b, hb, rfl⟩ := Option.map_eq_some_iff.mp hpi
  rw [decide_eq_true_iff, ← hu] at hr
  exact absurd (hb.symm.trans (ht.passed last used hpc e he hr)) (by simp)

theorem usedBuffers_eq_nil (hf : Fresh c) (hpa : c.pc.passUsed = 0)
    (hw : c.waiting = []) : c.usedBuffers = [] := by
  refine eq_nil_iff_forall_not_mem.mpr fun e he => ?_
  have hp := filterMap_eq_nil_iff.mp hw e he
  have hlt := hf.spent e he (Option.map_eq_none_iff.mp hp)
  omega

theorem Turn.same {pc pc' : Pc} (h : Turn s c pc pc') : pc'.polls = true ∧ pc'.stage = pc.stage ∧
    pc'.issuing = pc.issuing ∧ pc'.unhandled = pc.unhandled := by
  cases h <;> simp [polls, stage, issuing, unhandled]

/-- The pass over `used_buffers` goes by the present number of counted interrupts. -/
def Current (s : Shared) (c : CopyFrom) : Prop :=
  match c.pc with
  | .release _ used _ | .copyback _ used _ _ _ | .give _ used _ _ | .retain _ used =>
    used = (s.channel c.stream).intCntr
  | _ => True

section

variable {pc' : Pc} (h : Turn s c c.pc pc') {len : ℕ}
  (hlen : len = c.usedBuffers.length ∨ ∃ last used, c.pc = .retain last used)

include h hlen

theorem Turn.toUpdate_lt (hp : (s.channel c.stream).engine.pending ≠ 0) :
    pc'.toUpdate len < c.pc.toUpdate c.usedBuffers.length := by
  generalize c.pc = pc at h hlen
  cases h with
  | update last hn => exact absurd hn hp
  | skip last used i hi =>
    obtain rfl : len = _ := hlen.resolve_right (by simp)
    simp only [toUpdate]
    omega
  | retain | retainLast => simp [toUpdate]
  | _ =>
    obtain rfl : len = _ := hlen.resolve_right (by simp)
    simp only [toUpdate]
    omega

theorem Turn.toTake_lt (ht : Tidy s c) (hc : Current s c) (hr : ripe s c = true) :
    pc'.toTake len < c.pc.toTake c.usedBuffers.length := by
  rw [Current] at hc
  generalize hpc : c.pc = pc at h hlen hc
  cases h with
  | pass last used i he =>
    exact absurd (not_ripe_of_pass ht hpc hc he) (by rw [hr]; simp)
  | retain used | retainLast used =>
    exact absurd (not_ripe_of_retain ht hpc hc) (by rw [hr]; simp)
  | _ =>
    obtain rfl : len = _ := hlen.resolve_right (by simp)
    simp only [toTake]
    omega

theorem Turn.toEnd_lt (hf : Fresh c) (hr : ready s c = true) :
    pc'.toEnd len < c.pc.toEnd c.usedBuffers.length := by
  rw [ready] at hr
  generalize hpc : c.pc = pc at h hlen hr
  cases h with
  | steal hn =>
    rw [hn] at hr
    exact absurd hr Bool.false_ne_true
  | drain hne =>
    exact absurd (usedBuffers_eq_nil hf (by rw [hpc]; rfl) (List.isEmpty_iff.mp hr)) hne
  | retain | retainLast => simp [toEnd]
  | _ =>
    obtain rfl : len = _ := hlen.resolve_right (by simp)
    simp only [toEnd]
    grind

end

section

variable {s' : Shared} {c' : CopyFrom} (h : Turns s c s' c')

include h

theorem Turns.frame : 10 * c'.btt + c'.pc.stage = 10 * c.btt + c.pc.stage ∧
    backlog s' c' = backlog s c ∧ ripe s' c' = ripe s c ∧ ready s' c' = ready s c ∧
    (s'.channel c'.stream).engine.pending = (s.channel c.stream).engine.pending := by
  obtain ⟨-, hst, hi, hu⟩ := h.turn.same
  have hb : c'.btt = c.btt := by rw [h.same]
  have hs : c'.stream = c.stream := by rw [h.same]
  refine ⟨by rw [hb, hst], ?_, ?_, ?_, by rw [hs, h.channel]⟩
  · rw [backlog, backlog, hs, h.channel, h.waiting, hu]
  · rw [ripe, ripe, hs, h.channel, h.waiting]
  · rw [ready, ready, hi, h.pool, h.waiting]

/-- **A turn brings the call closer** to what there is to see. -/
theorem Turns.distance_lt (ht : Tidy s c) (hf : Fresh c) (hc : Current s c)
    (hs : (s.channel c.stream).engine.pending ≠ 0 ∨ ripe s c = true ∨ ready s c = true) :
    distance s' c' < distance s c := by
  obtain ⟨-, -, hri, hr, hp⟩ := h.frame
  rw [distance, distance, hri, hr, hp]
  split
  · exact h.turn.toUpdate_lt h.usedBuffers ‹_›
  rename_i hno
  split
  · exact h.turn.toTake_lt h.usedBuffers ht hc ‹_›
  rename_i hn
  obtain hr := (hs.resolve_left hno).resolve_left hn
  rw [if_pos hr, if_pos hr]
  exact h.turn.toEnd_lt h.usedBuffers hf hr

theorem Turns.rank_eq (hs : stalled s c = true) : rank s' c' = rank s c ∧ stalled s' c' = true := by
  obtain ⟨hf, hb, hri, hr, hp⟩ := h.frame
  simp only [stalled, Bool.and_eq_true, decide_eq_true_iff, Bool.not_eq_true'] at hs
  obtain ⟨⟨⟨-, hno⟩, hn⟩, hn'⟩ := hs
  constructor
  · rw [rank, rank, hf, hb, distance, distance, hri, hr, hp]
    simp [hno, hn, hn']
  · simp [stalled, h.turn.same.1, hri, hr, hp, hno, hn, hn']

end

end

theorem current_call {s : Shared} (h : Current s c) (t : ℕ) (r : Reply) :
    Current (step t r s c).1 (step t r s c).2 := by
  fun_cases step t r s c <;>
    simp_all [Current, goto, fail]

theorem error_step {r : Reply} (hr : r = .ok) (t : ℕ) {s : Shared}
    (hs : c.stream = true → s.isVersal = true) (h : c.pc.failed = false) :
    (step t r s c).2.pc.failed = false ∧ (step t r s c).1.lost = s.lost := by
  fun_cases step t r s c <;>
    simp_all [Shared.onChannel, goto, failed]

/-! ### A single caller -/

namespace System

/-- A move while call `t` is at work on the channel `st` and the device has the given
memory. -/
def move (t : ℕ) (st : Bool) (device : ByteMem) (s : System) : Move → System
  | .caller => s.step (.step t .ok)
  | .complete => s.step (.complete st device)
  | .raise => s.step (.raise st)

def Returned (t : ℕ) (s : System) : Prop :=
  ∃ c, s.calls[t]? = some c ∧ c.pc = .returned (.ok ())

/-- **Call `t` is alone**: it uses the channel `st`, which is supported, and did not fail. The
other calls have returned, and no buffer was dropped. -/
structure Single (buffers : List DMABuffer) (t : ℕ) (st : Bool) (s : System) : Prop where
  inv : s.Inv buffers
  bounded : s.Bounded buffers
  lockHeld : s.LockHeld
  call : ∃ c, s.calls[t]? = some c ∧ c.stream = st ∧ c.pc.failed = false ∧ Current s.shared c
  others : ∀ u d, s.calls[u]? = some d → u ≠ t → d.pc = .returned (.ok ())
  supported : st = true → s.shared.isVersal = true
  lost : s.shared.lost = []

variable {buffers : List DMABuffer} {t : ℕ} {st : Bool} {s : System}

theorem Single.afterEngine (h : s.Single buffers t st) {f : Engine ByteMem → Engine ByteMem}
    {mp : ℕ → ByteMem} (hinv : (s.afterEngine st f mp).Inv buffers)
    (hb : (s.afterEngine st f mp).Bounded buffers) :
    (s.afterEngine st f mp).Single buffers t st := by
  obtain ⟨c, hc, hs, hf, hcu⟩ := h.call
  refine ⟨hinv, hb, h.lockHeld, ⟨c, hc, hs, hf, ?_⟩, h.others, h.supported, h.lost⟩
  have hi : ∀ st', ((s.afterEngine st f mp).shared.channel st').intCntr =
      (s.shared.channel st').intCntr :=
    forall_channel_afterEngine (P := fun st' ch => ch.intCntr = (s.shared.channel st').intCntr)
      (fun _ => rfl) rfl
  rw [Current, hi]
  exact hcu

theorem Single.move (hbu : (buffers.map DMABuffer.addr).Nodup)
    (hs : ∀ b ∈ buffers, 0 < b.size) (dev : ByteMem) (h : s.Single buffers t st) (m : Move) :
    (s.move t st dev m).Single buffers t st := by
  cases m with
  | caller =>
    obtain ⟨c, hc, hst, hf, hcu⟩ := h.call
    have hsu : c.stream = true → s.shared.isVersal = true := hst ▸ h.supported
    obtain ⟨hf', hl⟩ := error_step rfl t hsu hf
    refine ⟨inv_step hbu h.inv (.step t .ok), bounded_step hs h.inv.owned h.bounded (.step t .ok),
      lockHeld_step h.lockHeld (.step t .ok), ?_, ?_, ?_, ?_⟩
    all_goals rw [System.move, step_of_call hc]
    · exact ⟨_, getElem?_afterCall_self hc .ok, (stream_step t .ok s.shared c).trans hst,
        hf', current_call hcu t .ok⟩
    · intro u d hd hut
      rw [getElem?_afterCall_of_ne s .ok c hut] at hd
      exact h.others u d hd hut
    · rw [afterCall, isVersal_step]
      exact h.supported
    · exact hl.trans h.lost
  | complete =>
    have hi := inv_step hbu h.inv (.complete st dev)
    have hb := bounded_step hs h.inv.owned h.bounded (.complete st dev)
    rw [System.move]
    obtain heq | ⟨x, -, heq⟩ := step_complete_cases s st dev <;> rw [heq] at hi hb ⊢
    · exact h
    · exact h.afterEngine hi hb
  | raise =>
    have hi := inv_step hbu h.inv (.raise st)
    have hb := bounded_step hs h.inv.owned h.bounded (.raise st)
    rw [step_raise] at hi hb
    rw [System.move, step_raise]
    exact h.afterEngine hi hb

variable {c : CopyFrom}

theorem Single.holding_ne_nil (hne : buffers ≠ []) (h : s.Single buffers t st)
    (hc : s.calls[t]? = some c) (hp : s.shared.fromDevBuffer = []) : c.holding ≠ [] := by
  intro hh
  obtain ⟨b, hb⟩ := exists_mem_of_ne_nil buffers hne
  obtain ⟨p, hco, -⟩ := h.inv.owned.unique b hb
  have hn : s.contents p = [] := by
    cases p with
    | pool => exact hp
    | lost =>
      rw [contents, h.lost]
      rfl
    | call u =>
      cases hd : s.calls[u]? with
      | none => rw [contents, hd]; rfl
      | some d =>
        rw [contents_call hd]
        by_cases hut : u = t
        · subst hut
          obtain rfl : c = d := Option.mem_unique hc hd
          exact hh
        · exact (h.inv.complete hd (h.others u d hd hut)).holding
  rw [hn] at hco
  simp at hco

theorem holding_of_polls (h : c.pc.polls = true) :
    c.pc.toAdd = 0 ∧ c.holding = c.waiting.map Piece.buffer := by
  rw [holding, pieces]
  revert h
  cases c.pc with
  | add last n => cases n <;> simp [polls, toAdd, inHands, piece, waiting]
  | _ => simp [polls, toAdd, inHands, piece, waiting]

/-- **A call that is stalled** waits for a transfer whose interrupt was not raised. -/
theorem Single.raised_lt (hne : buffers ≠ []) (h : s.Single buffers t st)
    (hc : s.calls[t]? = some c) (hs : stalled s.shared c = true) :
    (s.engine st).raised < (s.engine st).issued.length := by
  obtain ⟨d, hd, hst, -, -⟩ := h.call
  obtain rfl : c = d := Option.mem_unique hc hd
  simp only [stalled, Bool.and_eq_true, decide_eq_true_iff, Bool.not_eq_true'] at hs
  obtain ⟨⟨⟨hpo, hpe⟩, hri⟩, hr⟩ := hs
  change (s.engine c.stream).pending = 0 at hpe
  obtain ⟨ht, hh⟩ := holding_of_polls hpo
  -- the call has a piece, and its transfer is not counted
  have hw : c.waiting ≠ [] := by
    rw [ready] at hr
    split at hr
    · rw [Bool.not_eq_false', List.isEmpty_iff] at hr
      have hso := h.holding_ne_nil hne hc hr
      rw [hh] at hso
      exact fun hn => hso (by rw [hn]; rfl)
    · exact fun hn => absurd hr (by rw [hn]; simp)
  obtain ⟨p, hp⟩ := exists_mem_of_ne_nil _ hw
  have hno : ¬ p.number < (s.shared.channel c.stream).intCntr :=
    fun hlt => absurd (any_eq_false.mp hri p hp) (by simpa using hlt)
  obtain ⟨e, he, hpi⟩ := mem_filterMap.mp hp
  obtain ⟨b, -, rfl⟩ := Option.map_eq_some_iff.mp hpi
  have hb := (h.inv.tidy c (mem_of_getElem? hc)).below e.cntr (mem_map_of_mem he)
  have hi := h.inv.indexed.indexed c.stream
  have hco := h.inv.counts.counted c.stream
  rw [total_share_of_unique hc fun u d hut hd => ?_, ht] at hco
  · rw [← hst]
    simp only at hno
    omega
  · rw [h.others u d hd hut]
    rfl

def rankOf (t : ℕ) (s : System) : ℕ ×ₗ ℕ ×ₗ ℕ :=
  (s.calls[t]?).elim (toLex (0, toLex (0, 0))) (CopyFrom.rank s.shared)

/-- The move that helps the call: its own, unless it is stalled. -/
def helpful (t : ℕ) (st : Bool) (s : System) : Move :=
  if (s.calls[t]?).any (stalled s.shared) then (s.engine st).nextMove else .caller

theorem rankOf_eq (hc : s.calls[t]? = some c) : s.rankOf t = CopyFrom.rank s.shared c := by
  rw [rankOf, hc]
  rfl

theorem helpful_of_stalled (st : Bool) (hc : s.calls[t]? = some c)
    (hs : stalled s.shared c = true) : s.helpful t st = (s.engine st).nextMove := by
  rw [helpful, hc, Option.any_some, if_pos hs]

theorem stalled_of_helpful (hc : s.calls[t]? = some c) (hn : s.helpful t st ≠ .caller) :
    stalled s.shared c = true := by
  by_contra hs
  exact hn (by rw [helpful, hc, Option.any_some, if_neg hs])

theorem afterEngine_eq_self {f : Engine ByteMem → Engine ByteMem}
    (h : f (s.engine st) = s.engine st) : s.afterEngine st f s.shared.mapped = s := by
  rw [afterEngine, Shared.onChannel, h]
  simp

theorem rank_afterEngine_lt {f : Engine ByteMem → Engine ByteMem} {mp : ℕ → ByteMem}
    (hs : c.stream = st) (h : (f (s.engine st)).toDo < (s.engine st).toDo) :
    CopyFrom.rank (s.afterEngine st f mp).shared c < CopyFrom.rank s.shared c := by
  subst hs
  refine rank_lt_iff.mpr (.inr ⟨rfl, .inl ?_⟩)
  rw [engine, toDo, toDo] at h
  simp only [backlog, afterEngine, Shared.onChannel, Function.update_self]
  omega

theorem Single.advances_caller (hsi : ∀ b ∈ buffers, 0 < b.size) (dev : ByteMem)
    (h : s.Single buffers t st) (hre : ¬ s.Returned t) :
    Progress.Advances (System.move t st dev) (Returned t) (rankOf t) (helpful t st) s .caller := by
  obtain ⟨c, hc, hst, hf, hcu⟩ := h.call
  have hm := mem_of_getElem? hc
  have hse := getElem?_afterCall_self hc .ok
  have hsu : c.stream = true → s.shared.isVersal = true := hst ▸ h.supported
  have hfr := h.bounded.fresh c hm
  have hti := h.inv.tidy c hm
  rw [Progress.Advances, System.move, step_of_call hc, rankOf_eq hse, rankOf_eq hc, afterCall]
  cases hp : c.pc.polls with
  | false =>
    refine .inr (.inl (rank_work_lt t rfl (fun b hpc => ?_) (fun b hpc => ?_) ?_ hp))
    · -- the lock is free, because its holder would be at work with it
      have hn : c.pc.hasLock = false := by rw [hpc]; rfl
      refine lock_eq_none_of_others (f := fun c : CopyFrom => c.pc.hasLock) h.lockHeld hc hn ?_
      intro u d hd hut
      rw [h.others u d hd hut]
      rfl
    · have hb : b ∈ buffers := h.inv.owned.mem_of_holding hc b (by
        rw [holding, hpc]
        exact mem_cons_self)
      exact bttThis_pos (hfr.issuing (by rw [hpc]; rfl)) (hsi b hb)
    · rintro (e | _) hr
      · rw [hr] at hf
        exact absurd hf.symm Bool.false_ne_true
      · exact hre ⟨c, hc, hr⟩
  | true =>
    obtain hdon | hlt | ht := poll_step_cases t rfl hti hsu hp
    · exact .inl ⟨_, hse, hdon⟩
    · exact .inr (.inl hlt)
    cases hs : stalled s.shared c with
    | true =>
      obtain ⟨hra, hs'⟩ := ht.rank_eq hs
      refine .inr (.inr ⟨?_, hra, ?_⟩)
      · rw [helpful_of_stalled st hc hs, nextMove]
        split <;> simp
      · have ha := helpful_of_stalled (s := s.afterCall t .ok c) st hse hs'
        rw [System.afterCall, engine, ht.channel] at ha
        rw [ha, helpful_of_stalled st hc hs]
    | false =>
      have hsee : (s.engine c.stream).pending ≠ 0 ∨ ripe s.shared c = true ∨
          ready s.shared c = true := by
        by_contra hno
        push Not at hno
        simp [stalled, hp, hno.1, hno.2.1, hno.2.2] at hs
      obtain ⟨hfi, hba, -⟩ := ht.frame
      exact .inr (.inl (rank_lt_iff.mpr (.inr ⟨hfi, .inr ⟨hba, ht.distance_lt hti hfr hcu hsee⟩⟩)))

theorem Single.advances_engine (hne : buffers ≠ []) (dev : ByteMem)
    (h : s.Single buffers t st) {m : Move} (hm : m ≠ .caller) :
    Progress.Advances (System.move t st dev) (Returned t) (rankOf t) (helpful t st) s m := by
  obtain ⟨c, hc, hst, -, -⟩ := h.call
  have hl : ∀ {f : Engine ByteMem → Engine ByteMem} {mapped : ℕ → ByteMem},
      (f (s.engine st)).toDo < (s.engine st).toDo →
        (s.afterEngine st f mapped).rankOf t < s.rankOf t := by
    intro f mapped hlt
    rw [rankOf_eq hc, rankOf_eq (s := s.afterEngine st f mapped) hc]
    exact rank_afterEngine_lt hst hlt
  refine advances (h.inv.counts.inOrder st) (fun hn => ?_) (fun hlt => ?_)
    (fun hn => ?_) hl afterEngine_eq_self hm
  · have hs := stalled_of_helpful hc hn
    exact ⟨h.raised_lt hne hc hs, helpful_of_stalled st hc hs⟩
  · rw [System.move, step, complete, getElem?_eq_getElem hlt]
    exact hl (f := fun e => e.complete fun _ => dev) (toDo_complete_lt hlt _)
  · rw [System.move, step, complete, getElem?_eq_none (not_lt.mp hn)]

/-- The call returns. -/
theorem Single.returns (hb : (buffers.map DMABuffer.addr).Nodup)
    (hsi : ∀ b ∈ buffers, 0 < b.size) (hne : buffers ≠ []) (dev : ByteMem)
    (h : s.Single buffers t st) {sched : ℕ → Move} (hf : Progress.Fair sched) :
    ∃ n, (Progress.state (System.move t st dev) s sched n).Returned t := by
  refine Progress.eventually_of_rank (rankOf t) (helpful t st) (I := Single buffers t st)
    (fun s m hs => hs.move hb hsi dev m) (fun s m hs hr => ?_) h hf
  by_cases hm : m = .caller
  · subst hm
    exact hs.advances_caller hsi dev hr
  · exact hs.advances_engine hne dev hm

end System

end Tapasco.CopyFrom
