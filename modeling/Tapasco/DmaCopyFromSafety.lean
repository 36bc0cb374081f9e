import Tapasco.DmaCopyFrom
import Tapasco.Lib.Lists
import Tapasco.Lib.Ownership
import Tapasco.Lib.Threads

/-!
# Bounce Buffers of the Read Path

A call of `do_copy_from` knows the numbers of its transfers, and it takes a buffer back when the
shared counter of interrupts has passed the number. This module has the parts of the invariant that
the read path has in common with the write path, and what a step does to the pieces of data in
flight.
-/

open Lists Threads Ownership List

namespace Tapasco.CopyFrom

open UsedBuffer

/-! ### What a call has in its hands -/

/-- A piece of the data whose bytes are to come: the number of its transfer, its buffer, and
its place in the caller's data. -/
structure Piece where
  number : ℕ
  buffer : DMABuffer
  offset : ℕ
  len : ℕ

/-- The piece of an entry of `used_buffers`, if its buffer has not been taken. -/
def UsedBuffer.piece (e : UsedBuffer) : Option Piece :=
  e.buf.map fun b => ⟨e.cntr, b, e.offset, e.len⟩

/-- The piece that is being copied back. -/
def Pc.piece : Pc → List Piece
  | .copyback _ _ _ e b => [⟨e.cntr, b, e.offset, e.len⟩]
  | _ => []

/-- The buffer that a call has in its hands. -/
def Pc.inHands : Pc → List DMABuffer
  | .give _ _ _ b | .toDev b | .lock b | .schedule b | .count b => [b]
  | _ => []

/-- The interrupts that a call has read and not counted. -/
def Pc.toAdd : Pc → ℕ
  | .add _ n => n
  | _ => 0

/-- The transfers that a call has issued and not counted. -/
def Pc.uncounted : Pc → ℕ
  | .count _ => 1
  | _ => 0

def Pc.hasLock : Pc → Bool
  | .schedule _ | .count _ => true
  | _ => false

/-- The number of entries of `used_buffers` that the loop of `release_buffer` has behind it. -/
def Pc.scanned : Pc → ℕ
  | .release _ _ i => i
  | .copyback _ _ i _ _ | .give _ _ i _ => i + 1
  | _ => 0

/-- The number of counted interrupts that `release_buffer` has read. -/
def Pc.used : Pc → ℕ
  | .release _ used _ | .copyback _ used _ _ _ | .give _ used _ _ => used
  | _ => 0

def Pc.issuedAll : Pc → Bool
  | .update last | .add last _ | .load last | .release last _ _ => last
  | .copyback last _ _ _ _ | .give last _ _ _ | .retain last _ => last
  | .drain | .returned (.ok _) => true
  | _ => false

/-- The pieces in flight, in the order of their numbers. -/
def pieces (c : CopyFrom) : List Piece :=
  c.pc.piece ++ c.usedBuffers.filterMap piece

def holding (c : CopyFrom) : List DMABuffer :=
  c.pc.inHands ++ c.pieces.map Piece.buffer

theorem map_buffer_filterMap_piece (l : List UsedBuffer) :
    (l.filterMap piece).map Piece.buffer = l.filterMap buf := by
  rw [map_filterMap]
  congr 1
  funext e
  cases h : e.buf <;> simp [piece, h]

section

variable (t : ℕ) (reply : Reply) (s : Shared) (c : CopyFrom)

theorem stream_step : (step t reply s c).2.stream = c.stream := by
  fun_cases step t reply s c <;> rfl

theorem ptr_step : (step t reply s c).2.ptr = c.ptr := by
  fun_cases step t reply s c <;> rfl

theorem isVersal_step : (step t reply s c).1.isVersal = s.isVersal := by
  fun_cases step t reply s c <;> rfl

theorem mapped_step : (step t reply s c).1.mapped = s.mapped := by
  fun_cases step t reply s c <;> rfl

theorem channel_step_of_ne {st : Bool} (hs : st ≠ c.stream) :
    (step t reply s c).1.channel st = s.channel st := by
  fun_cases step t reply s c <;> first | rfl | exact Function.update_of_ne hs _ _

/-- **What a step does to its channel.** It reads the pending interrupts, counts those it has
read, issues a transfer, counts it, or leaves the channel alone. -/
theorem channel_step_cases :
    (∃ last, c.pc = .update last ∧
      (step t reply s c).2.pc = .add last (s.channel c.stream).engine.pending ∧
      (step t reply s c).1.channel c.stream =
        { s.channel c.stream with engine := (s.channel c.stream).engine.checkForInterrupt }) ∨
    (∃ last n, c.pc = .add last n ∧ (step t reply s c).2.pc.toAdd = 0 ∧
      (step t reply s c).2.pc.uncounted = 0 ∧
      (step t reply s c).1.channel c.stream =
        { s.channel c.stream with intCntr := (s.channel c.stream).intCntr + n }) ∨
    (∃ b, c.pc = .schedule b ∧ (step t reply s c).2 = c.goto (.count b) ∧
      (step t reply s c).1.channel c.stream =
        { s.channel c.stream with
          engine := (s.channel c.stream).engine.issue (c.transfer s t b) }) ∨
    (∃ b, c.pc = .count b ∧ (step t reply s c).2.pc = .loop ∧
      (step t reply s c).1.channel c.stream =
        { s.channel c.stream with cntr := (s.channel c.stream).cntr + 1 }) ∨
    c.pc.toAdd = 0 ∧ (step t reply s c).2.pc.toAdd = 0 ∧ (∀ b, c.pc ≠ .schedule b) ∧
      c.pc.uncounted = 0 ∧ (step t reply s c).2.pc.uncounted = 0 ∧
      (step t reply s c).1.channel c.stream = s.channel c.stream := by
  fun_cases step t reply s c <;>
    simp_all [Shared.onChannel, goto, fail, Pc.toAdd, Pc.uncounted]

theorem counted_step : ((step t reply s c).1.channel c.stream).intCntr +
        (step t reply s c).2.pc.toAdd + ((step t reply s c).1.channel c.stream).engine.pending =
      (s.channel c.stream).intCntr + c.pc.toAdd + (s.channel c.stream).engine.pending := by
  rcases channel_step_cases t reply s c with ⟨last, hpc, hpc', hc⟩ | ⟨last, n, hpc, hpc', -, hc⟩ |
    ⟨b, hpc, hc', hc⟩ | ⟨b, hpc, hpc', hc⟩ | ⟨hpc, hpc', -, -, -, hc⟩
  · rw [hpc, hpc', hc]
    exact add_right_comm _ _ _
  · rw [hpc, hpc', hc]
    exact rfl
  · rw [hpc, hc', hc]
    exact rfl
  · rw [hpc, hpc', hc]
    exact rfl
  · rw [hpc, hpc', hc]

theorem indexed_call :
    ((step t reply s c).1.channel c.stream).cntr + (step t reply s c).2.pc.uncounted +
        (s.channel c.stream).engine.issued.length =
      (s.channel c.stream).cntr + c.pc.uncounted +
        ((step t reply s c).1.channel c.stream).engine.issued.length := by
  rcases channel_step_cases t reply s c with ⟨last, hpc, hpc', hc⟩ | ⟨last, n, hpc, -, hpc', hc⟩ |
    ⟨b, hpc, hc', hc⟩ | ⟨b, hpc, hpc', hc⟩ | ⟨-, -, -, hpc, hpc', hc⟩
  · rw [hpc, hpc', hc]
    exact rfl
  · rw [hpc, hpc', hc]
    exact rfl
  · rw [hpc, hc', hc, Engine.issue, length_append]
    exact add_right_comm _ _ _
  · rw [hpc, hpc', hc]
    exact rfl
  · rw [hpc, hpc', hc]

theorem inOrder_step (h : (s.channel c.stream).engine.InOrder) :
    ((step t reply s c).1.channel c.stream).engine.InOrder := by
  rcases channel_step_cases t reply s c with ⟨_, -, -, hc⟩ | ⟨_, n, -, -, -, hc⟩ |
    ⟨b, -, -, hc⟩ | ⟨b, -, -, hc⟩ | ⟨-, -, -, -, -, hc⟩ <;> rw [hc]
  · exact h.checkForInterrupt
  · exact h
  · exact h.issue _
  · exact h
  · exact h

theorem engine_step : ((step t reply s c).1.channel c.stream).engine.raised =
      (s.channel c.stream).engine.raised ∧
    ((step t reply s c).1.channel c.stream).engine.log = (s.channel c.stream).engine.log := by
  rcases channel_step_cases t reply s c with ⟨_, -, -, hc⟩ | ⟨_, n, -, -, -, hc⟩ |
    ⟨b, -, -, hc⟩ | ⟨b, -, -, hc⟩ | ⟨-, -, -, -, -, hc⟩ <;> rw [hc] <;> exact ⟨rfl, rfl⟩

theorem counters_le_step : (s.channel c.stream).intCntr ≤
      ((step t reply s c).1.channel c.stream).intCntr ∧
    (s.channel c.stream).cntr ≤ ((step t reply s c).1.channel c.stream).cntr := by
  rcases channel_step_cases t reply s c with ⟨_, -, -, hc⟩ | ⟨_, n, -, -, -, hc⟩ |
    ⟨b, -, -, hc⟩ | ⟨b, -, -, hc⟩ | ⟨-, -, -, -, -, hc⟩ <;> rw [hc]
  · exact ⟨le_rfl, le_rfl⟩
  · exact ⟨Nat.le_add_right _ n, le_rfl⟩
  · exact ⟨le_rfl, le_rfl⟩
  · exact ⟨le_rfl, Nat.le_succ _⟩
  · exact ⟨le_rfl, le_rfl⟩

theorem issued_step_cases :
    (∃ b, c.pc = .schedule b ∧ (step t reply s c).2 = c.goto (.count b) ∧
      ((step t reply s c).1.channel c.stream).cntr = (s.channel c.stream).cntr ∧
      ((step t reply s c).1.channel c.stream).engine.issued =
        (s.channel c.stream).engine.issued ++ [c.transfer s t b]) ∨
    (∃ b, c.pc = .count b ∧
      ((step t reply s c).1.channel c.stream).cntr = (s.channel c.stream).cntr + 1 ∧
      ((step t reply s c).1.channel c.stream).engine.issued = (s.channel c.stream).engine.issued) ∨
    (∀ b, c.pc ≠ .schedule b) ∧ (∀ b, c.pc ≠ .count b) ∧
      (∀ b, (step t reply s c).2.pc ≠ .count b) ∧
      ((step t reply s c).1.channel c.stream).cntr = (s.channel c.stream).cntr ∧
      ((step t reply s c).1.channel c.stream).engine.issued =
        (s.channel c.stream).engine.issued := by
  have hco : ∀ {pc : Pc}, pc.uncounted = 0 → ∀ b, pc ≠ .count b := by
    rintro pc hpc b rfl
    exact absurd hpc (by simp [Pc.uncounted])
  rcases channel_step_cases t reply s c with ⟨_, hpc, hpc', hc⟩ | ⟨_, n, hpc, -, hpc', hc⟩ |
    ⟨b, hpc, hc', hc⟩ | ⟨b, hpc, -, hc⟩ | ⟨-, -, hs, hpc, hpc', hc⟩ <;> rw [hc]
  · exact .inr (.inr ⟨by simp [hpc], by simp [hpc], by simp [hpc'], rfl, rfl⟩)
  · exact .inr (.inr ⟨by simp [hpc], by simp [hpc], hco hpc', rfl, rfl⟩)
  · exact .inl ⟨b, hpc, hc', rfl, rfl⟩
  · exact .inr (.inl ⟨b, hpc, rfl, rfl⟩)
  · exact .inr (.inr ⟨hs, hco hpc, hco hpc', rfl, rfl⟩)

theorem lock_step (h : c.pc.hasLock = true → s.lock = some t) :
    ((step t reply s c).2.pc.hasLock = true → (step t reply s c).1.lock = some t) ∧
      ∀ u, u ≠ t → s.lock = some u → (step t reply s c).1.lock = some u := by
  fun_cases step t reply s c <;>
    simp_all [Shared.onChannel, goto, fail, Pc.hasLock]
  exact fun u hu => Ne.symm hu

end

/-! ### The entries of `used_buffers` -/

def numbers (c : CopyFrom) : List ℕ :=
  c.usedBuffers.map cntr

/-- What holds of the local variables of a call. The entries of `used_buffers` are in the
order of their numbers, and those that `release_buffer` has passed are empty. -/
structure Tidy (s : Shared) (c : CopyFrom) : Prop where
  ascending : c.numbers.Pairwise (· < ·)
  below : ∀ n ∈ c.numbers, n < (s.channel c.stream).cntr
  scanned : ∀ e ∈ c.usedBuffers.take c.pc.scanned, e.buf = none
  passed : ∀ last used, c.pc = .retain last used →
    ∀ e ∈ c.usedBuffers, e.cntr < used → e.buf = none
  ready : ∀ last used i e b, c.pc = .copyback last used i e b → e.cntr < used
  used_le : c.pc.used ≤ (s.channel c.stream).intCntr
  inRange : c.ptrBuffer + c.btt = c.data.length
  issuedAll : c.pc.issuedAll = true → c.btt = 0
  returned : c.pc = .returned (.ok ()) → c.usedBuffers = []

theorem length_overwrite (data : List Byte) (off len : ℕ) (bytes : ByteMem) :
    (overwrite data off len bytes).length = data.length :=
  length_mapIdx

section

variable (t : ℕ) (reply : Reply) (s : Shared) (c : CopyFrom)

theorem usedBuffers_step_cases :
    (∃ last used pre e post b, c.pc = .release last used pre.length ∧
      c.usedBuffers = pre ++ e :: post ∧ e.cntr < used ∧ e.buf = some b ∧
      (step t reply s c).2.usedBuffers = pre ++ { e with buf := none } :: post ∧
      (step t reply s c).2.pc = .copyback last used pre.length e b) ∨
    (∃ last used, c.pc = .retain last used ∧ (step t reply s c).2.usedBuffers = c.retained used ∧
      (step t reply s c).2.pc = if last then .update true else .steal) ∨
    (∃ b, c.pc = .count b ∧ (step t reply s c).2.usedBuffers = c.usedBuffers ++
        [⟨(s.channel c.stream).cntr, some b, c.ptrBuffer, c.bttThis b⟩] ∧
      (step t reply s c).2.pc = .loop) ∨
    (∃ e, (step t reply s c).2.usedBuffers = [] ∧ (step t reply s c).2.pc = .returned (.error e)) ∨
    (step t reply s c).2.usedBuffers = c.usedBuffers := by
  fun_cases step t reply s c
  case case9 last used i hpc e he hlt b hb =>
    obtain ⟨pre, post, hl, rfl⟩ := exists_append_of_getElem? he
    refine .inl ⟨last, used, pre, e, post, b, hpc, hl, hlt, hb, ?_, rfl⟩
    rw [hl]
    exact set_append_cons pre post e _
  all_goals simp_all [goto, fail]

theorem numbers_step_cases :
    (step t reply s c).2.numbers.Sublist c.numbers ∨
    ∃ b, c.pc = .count b ∧
      (step t reply s c).2.numbers = c.numbers ++ [(s.channel c.stream).cntr] := by
  rcases usedBuffers_step_cases t reply s c with
    ⟨last, used, pre, e, post, b, -, hl, -, -, hl', -⟩ | ⟨last, used, -, hl', -⟩ |
    ⟨b, hpc, hl', -⟩ | ⟨e, hl', -⟩ | hl'
  · refine .inl ?_
    simp [numbers, hl, hl']
  · refine .inl ?_
    rw [numbers, hl']
    exact filter_sublist.map _
  · refine .inr ⟨b, hpc, ?_⟩
    simp [numbers, hl']
  · refine .inl ?_
    rw [numbers, hl']
    exact nil_sublist _
  · refine .inl ?_
    rw [numbers, hl', numbers]

theorem scanned_step (h : ∀ e ∈ c.usedBuffers.take c.pc.scanned, e.buf = none) :
    ∀ e ∈ (step t reply s c).2.usedBuffers.take (step t reply s c).2.pc.scanned, e.buf = none := by
  fun_cases step t reply s c
  case case9 last used i hpc e he hlt b hb =>
    obtain ⟨pre, post, hl, rfl⟩ := exists_append_of_getElem? he
    simp_all [Pc.scanned, take_append, take_of_length_le, or_imp]
  case case10 last used i hpc e he hlt hb =>
    obtain ⟨pre, post, hl, rfl⟩ := exists_append_of_getElem? he
    simp_all [Pc.scanned, goto, take_append, take_of_length_le, or_imp]
  all_goals simp_all [Pc.scanned, goto, fail]

theorem passed_step (ha : c.numbers.Pairwise (· < ·))
    (hs : ∀ e ∈ c.usedBuffers.take c.pc.scanned, e.buf = none) (last : Bool) (used : ℕ)
    (h : (step t reply s c).2.pc = .retain last used) :
    ∀ e ∈ (step t reply s c).2.usedBuffers, e.cntr < used → e.buf = none := by
  revert h
  fun_cases step t reply s c
  case case11 last' used' i hpc e he hlt =>
    obtain ⟨pre, post, hl, rfl⟩ := exists_append_of_getElem? he
    intro h f hf hlt'
    obtain ⟨rfl, rfl⟩ : last' = last ∧ used' = used := by simpa [goto] using h
    simp only [goto, hl, mem_append, mem_cons] at hf
    simp only [numbers, hl, map_append, map_cons, pairwise_append, pairwise_cons] at ha
    rcases hf with hf | rfl | hf
    · refine hs f ?_
      rw [hpc, hl, Pc.scanned, take_left]
      exact hf
    · exact absurd hlt' hlt
    · have hla := ha.2.1.1 f.cntr (mem_map_of_mem hf)
      omega
  case case12 last' used' i hpc hlen =>
    intro _ e he _
    rw [hpc, Pc.scanned, take_of_length_le (List.getElem?_eq_none_iff.mp hlen)] at hs
    exact hs e he
  all_goals simp_all [goto, fail]

theorem ready_step (last : Bool) (used i : ℕ) (e : UsedBuffer) (b : DMABuffer)
    (hpc : (step t reply s c).2.pc = .copyback last used i e b) : e.cntr < used := by
  revert hpc
  fun_cases step t reply s c
  case case9 last' used' i' hpc e' he hlt b' hb =>
    intro h'
    obtain ⟨-, rfl, -, rfl, -⟩ : last' = last ∧ used' = used ∧ i' = i ∧ e' = e ∧ b' = b := by
      simpa using h'
    exact hlt
  all_goals simp_all [goto, fail]

theorem used_le_step (h : c.pc.used ≤ (s.channel c.stream).intCntr) :
    (step t reply s c).2.pc.used ≤ (s.channel c.stream).intCntr := by
  fun_cases step t reply s c <;> simp_all [goto, fail, Pc.used]

theorem inRange_step (h : c.ptrBuffer + c.btt = c.data.length) :
    (step t reply s c).2.ptrBuffer + (step t reply s c).2.btt =
      (step t reply s c).2.data.length := by
  fun_cases step t reply s c <;> simp_all [goto, fail, length_overwrite]
  rw [bttThis]
  split <;> omega

theorem issuedAll_step (h : c.pc.issuedAll = true → c.btt = 0) :
    (step t reply s c).2.pc.issuedAll = true → (step t reply s c).2.btt = 0 := by
  fun_cases step t reply s c <;> simp_all [goto, fail, Pc.issuedAll]

theorem usedBuffers_of_returned (h : c.pc = .returned (.ok ()) → c.usedBuffers = []) :
    (step t reply s c).2.pc = .returned (.ok ()) → (step t reply s c).2.usedBuffers = [] := by
  fun_cases step t reply s c <;> simp_all [goto, fail]

end

variable {c : CopyFrom}

theorem Tidy.step {s : Shared} (h : Tidy s c) (t : ℕ) (reply : Reply) :
    Tidy (step t reply s c).1 (step t reply s c).2 where
  ascending := by
    rcases numbers_step_cases t reply s c with hs | ⟨b, -, hnu⟩
    · exact h.ascending.sublist hs
    · rw [hnu, pairwise_append]
      exact ⟨h.ascending, pairwise_singleton _ _, by simpa using h.below⟩
  below := by
    rw [stream_step]
    intro n hn
    rcases numbers_step_cases t reply s c with hs | ⟨b, hpc, hnu⟩
    · exact lt_of_lt_of_le (h.below n (hs.subset hn)) (counters_le_step t reply s c).2
    rw [hnu, mem_append, mem_singleton] at hn
    have hc : (s.channel c.stream).cntr <
        ((CopyFrom.step t reply s c).1.channel c.stream).cntr := by
      simp [CopyFrom.step, hpc, Shared.onChannel]
    rcases hn with hn | rfl
    · exact (h.below n hn).trans hc
    · exact hc
  scanned := scanned_step t reply s c h.scanned
  passed := passed_step t reply s c h.ascending h.scanned
  ready := ready_step t reply s c
  used_le := by
    rw [stream_step]
    exact (used_le_step t reply s c h.used_le).trans (counters_le_step t reply s c).1
  inRange := inRange_step t reply s c h.inRange
  issuedAll := issuedAll_step t reply s c h.issuedAll
  returned := usedBuffers_of_returned t reply s c h.returned

theorem Tidy.mono {s s' : Shared} (h : Tidy s c)
    (hc : (s.channel c.stream).cntr ≤ (s'.channel c.stream).cntr)
    (hi : (s.channel c.stream).intCntr ≤ (s'.channel c.stream).intCntr) : Tidy s' c :=
  { h with
    below := fun n hn => lt_of_lt_of_le (h.below n hn) hc
    used_le := h.used_le.trans hi }

/-! ### The pieces in flight -/

def Pc.failed : Pc → Bool
  | .returned (.error _) => true
  | _ => false

theorem filterMap_piece_eq_nil {l : List UsedBuffer} (h : ∀ e ∈ l, e.buf = none) :
    l.filterMap piece = [] :=
  filterMap_eq_nil_iff.mpr fun e he => by rw [piece, h e he]; rfl

theorem filterMap_piece_release {pre : List UsedBuffer} (post : List UsedBuffer) {e : UsedBuffer}
    {b : DMABuffer} (hp : ∀ e ∈ pre, e.buf = none) (hb : e.buf = some b) :
    ⟨e.cntr, b, e.offset, e.len⟩ ::
        (pre ++ { e with buf := none } :: post).filterMap piece =
      (pre ++ e :: post).filterMap piece := by
  rw [filterMap_append, filterMap_append, filterMap_piece_eq_nil hp,
    filterMap_cons_none rfl, filterMap_cons_some (by rw [piece, hb]; rfl)]
  rfl

theorem filterMap_piece_retained {used : ℕ}
    (h : ∀ e ∈ c.usedBuffers, e.cntr < used → e.buf = none) :
    (c.retained used).filterMap piece = c.usedBuffers.filterMap piece := by
  refine filterMap_filter_of fun e he hlt => ?_
  rw [decide_eq_false_iff_not, not_le] at hlt
  rw [piece, h e he hlt]
  rfl

/-- **What a step does to the pieces.** It issues a piece, copies the first one back, drops all, or
leaves them alone. -/
theorem pieces_step_cases {s : Shared} (h : Tidy s c) (t : ℕ) (reply : Reply) :
    let s' := (step t reply s c).1
    let c' := (step t reply s c).2
    (∃ b, c.pc = .count b ∧ c'.pc = .loop ∧ c'.ptrBuffer = c.ptrBuffer + c.bttThis b ∧
      c'.pieces = c.pieces ++ [⟨(s.channel c.stream).cntr, b, c.ptrBuffer, c.bttThis b⟩] ∧
      c'.copied = c.copied ∧ c'.data = c.data) ∨
    (∃ p rest, c.pieces = p :: rest ∧ p.number < (s.channel c.stream).intCntr ∧
      c.pc.failed = false ∧ c'.pc.failed = false ∧ (∀ b, c.pc ≠ .count b) ∧
      c'.pieces = rest ∧ c'.copied = c.copied ++ [p.number] ∧
      c'.ptrBuffer = c.ptrBuffer ∧
      c'.data = overwrite c.data p.offset p.len (s.mapped p.buffer.addr)) ∨
    (c.pc.failed = false ∧ c'.pc.failed = true ∧ (∀ b, c.pc ≠ .count b) ∧ c'.pieces = [] ∧
      s'.lost = s.lost ++ c.holding.map (fun b => (t, b)) ∧ c'.copied = c.copied ∧
      c'.ptrBuffer = c.ptrBuffer ∧ c'.data = c.data) ∨
    (∀ b, c.pc ≠ .count b) ∧ c'.pc.failed = c.pc.failed ∧ c'.pieces = c.pieces ∧
      c'.copied = c.copied ∧ c'.ptrBuffer = c.ptrBuffer ∧ c'.data = c.data := by
  fun_cases step t reply s c
  case case9 last used i hpc e he hlt b hb =>
    obtain ⟨pre, post, hl, rfl⟩ := exists_append_of_getElem? he
    have hp : ∀ e ∈ pre, e.buf = none := by simpa [hpc, hl, Pc.scanned] using h.scanned
    have hpi := filterMap_piece_release post hp hb
    simp_all [pieces, Pc.piece, Pc.failed]
  case case14 last used i e b hpc hr =>
    have hlt := lt_of_lt_of_le (h.ready last used i e b hpc) (hpc ▸ h.used_le)
    simp_all [pieces, Pc.piece, Pc.failed]
  case case16 used hpc =>
    have hpi := filterMap_piece_retained (h.passed true used hpc)
    simp_all [pieces, Pc.piece, Pc.failed]
  case case17 used hpc =>
    have hpi := filterMap_piece_retained (h.passed false used hpc)
    simp_all [pieces, Pc.piece, Pc.failed]
  case case25 b hpc => simp_all [pieces, Pc.piece, piece, Pc.failed]
  all_goals simp_all [goto, fail, pieces, Pc.piece, Pc.failed, holding,
    map_buffer_filterMap_piece, buffers, Pc.inHands]

/-- What a step does with buffers: it takes one from the pool, gives one back, drops all it
has, or keeps them. -/
theorem holding_step_cases {s : Shared} (h : Tidy s c) (t : ℕ) (reply : Reply) :
    let s' := (step t reply s c).1
    let c' := (step t reply s c).2
    (∃ b, s.fromDevBuffer = b :: s'.fromDevBuffer ∧ s'.lost = s.lost ∧
      c'.holding = b :: c.holding) ∨
    (∃ b, s'.fromDevBuffer = s.fromDevBuffer ++ [b] ∧ s'.lost = s.lost ∧
      c.holding = b :: c'.holding) ∨
    (s'.fromDevBuffer = s.fromDevBuffer ∧
      s'.lost = s.lost ++ c.holding.map (fun b => (t, b)) ∧ c'.pc.failed = true ∧
      c'.holding = []) ∨
    s'.fromDevBuffer = s.fromDevBuffer ∧ s'.lost = s.lost ∧ c'.holding.Perm c.holding := by
  fun_cases step t reply s c
  case case9 last used i hpc e he hlt b hb =>
    obtain ⟨pre, post, hl, rfl⟩ := exists_append_of_getElem? he
    have hp : ∀ e ∈ pre, e.buf = none := by simpa [hpc, hl, Pc.scanned] using h.scanned
    have hpi := filterMap_piece_release post hp hb
    simp_all [holding, pieces, Pc.piece, Pc.inHands]
  case case16 used hpc =>
    have hpi := filterMap_piece_retained (h.passed true used hpc)
    simp_all [holding, pieces, Pc.piece, Pc.inHands]
  case case17 used hpc =>
    have hpi := filterMap_piece_retained (h.passed false used hpc)
    simp_all [holding, pieces, Pc.piece, Pc.inHands]
  case case25 b hpc =>
    simp_all [holding, pieces, Pc.piece, piece, Pc.inHands, Shared.onChannel]
  all_goals simp_all [goto, fail, pieces, Pc.piece, Pc.failed, holding,
    map_buffer_filterMap_piece, buffers, Pc.inHands, Shared.onChannel]

namespace System

/-! ### The counters -/

/-- Interrupts that were raised are counted, or read by a call, or in the eventfd. -/
structure Counts (s : System) : Prop where
  inOrder : ∀ st, (s.engine st).InOrder
  counted : ∀ st, (s.shared.channel st).intCntr +
      total (share CopyFrom.stream st fun c => c.pc.toAdd) s.calls +
      (s.engine st).pending = (s.engine st).raised

/-- The number of counted transfers follows the engine; the call that has the lock may be one
behind. -/
structure Indexed (s : System) : Prop where
  lock : ∀ t c, s.calls[t]? = some c → c.pc.hasLock = true → s.shared.lock = some t
  indexed : ∀ st, (s.shared.channel st).cntr +
      total (share CopyFrom.stream st fun c => c.pc.uncounted) s.calls =
    (s.engine st).issued.length

variable {s : System} {t : ℕ} {c : CopyFrom}

/-- **Counted interrupts** belong to completed transfers. -/
theorem Counts.intCntr_le (h : s.Counts) (st : Bool) :
    (s.shared.channel st).intCntr ≤ (s.engine st).done ∧
      (s.engine st).done ≤ (s.engine st).issued.length := by
  have hc := h.counted st
  have hr := (h.inOrder st).raised_le
  exact ⟨by omega, (h.inOrder st).done_le⟩

def afterCall (s : System) (t : ℕ) (reply : Reply) (c : CopyFrom) : System :=
  ⟨(CopyFrom.step t reply s.shared c).1, s.calls.set t (CopyFrom.step t reply s.shared c).2⟩

theorem step_call_cases (s : System) (t : ℕ) (reply : Reply) :
    s.step (.step t reply) = s ∨
      ∃ c, s.calls[t]? = some c ∧ s.step (.step t reply) = s.afterCall t reply c := by
  rw [step]
  split
  · rename_i c hc
    exact .inr ⟨c, hc, rfl⟩
  · exact .inl rfl

/-- A step of a call that has begun. -/
theorem step_of_call {s : System} {t : ℕ} {c : CopyFrom} (hc : s.calls[t]? = some c)
    (reply : Reply) : s.step (.step t reply) = s.afterCall t reply c := by
  rw [step, hc]
  rfl

/-- The system after an operation of the engine on a channel, with new bytes in the buffers. -/
def afterEngine (s : System) (stream : Bool) (f : Engine ByteMem → Engine ByteMem)
    (mapped : ℕ → ByteMem) : System :=
  { s with
    shared :=
      { s.shared.onChannel stream fun ch => { ch with engine := f ch.engine } with mapped } }

theorem step_complete_cases (s : System) (st : Bool) (dev : ByteMem) :
    s.step (.complete st dev) = s ∨
    ∃ x, (s.engine st).issued[(s.engine st).done]? = some x ∧
      s.step (.complete st dev) =
        s.afterEngine st (fun e => e.complete fun _ => dev)
          (Function.update s.shared.mapped x.desc.addrHost
            (fetched dev x (s.shared.mapped x.desc.addrHost))) := by
  rw [step, complete]
  split
  · rename_i x hx
    exact .inr ⟨x, hx, rfl⟩
  · exact .inl rfl

/-- **A rule for actions**: a call begins or makes a step, or the engine works. -/
theorem step_rule {P : System → Prop} (h : P s)
    (hca : ∀ stream ptr data, P (s.step (.call stream ptr data)))
    (hs : ∀ t reply c, s.calls[t]? = some c → P (s.afterCall t reply c))
    (he : ∀ stream f mapped, (∀ e, Engine.Works e (f e)) → P (s.afterEngine stream f mapped))
    (a : Action) : P (s.step a) := by
  cases a with
  | call stream ptr data => exact hca stream ptr data
  | step t reply =>
    obtain heq | ⟨c, hc, heq⟩ := step_call_cases s t reply <;> rw [heq]
    · exact h
    · exact hs t reply c hc
  | complete stream device =>
    obtain heq | ⟨x, -, heq⟩ := step_complete_cases s stream device <;> rw [heq]
    · exact h
    · exact he stream _ _ (Engine.works_complete _)
  | raise stream => exact he stream _ s.shared.mapped Engine.works_raise

theorem step_raise (s : System) (st : Bool) :
    s.step (.raise st) = s.afterEngine st Engine.raise s.shared.mapped :=
  rfl

theorem exists_channel_afterEngine (s : System) (stream : Bool)
    {f : Engine ByteMem → Engine ByteMem} (mp : ℕ → ByteMem)
    (hf : ∀ e, Engine.Works e (f e)) (st : Bool) :
    ∃ e, (s.afterEngine stream f mp).shared.channel st =
        { s.shared.channel st with engine := e } ∧ (s.engine st).Works e := by
  by_cases hs : st = stream
  · subst hs
    exact ⟨_, Function.update_self _ _ _, hf _⟩
  · exact ⟨_, Function.update_of_ne hs _ _, .refl _⟩

theorem forall_channel_afterEngine {stream : Bool} {f : Engine ByteMem → Engine ByteMem}
    {mp : ℕ → ByteMem} {P : Bool → Channel → Prop} (h : ∀ st, P st (s.shared.channel st))
    (hs : P stream { s.shared.channel stream with
      engine := f (s.engine stream) }) :
    ∀ st, P st ((s.afterEngine stream f mp).shared.channel st) :=
  (Function.forall_update_iff _ P).mpr ⟨hs, fun st _ => h st⟩

theorem Counts.afterCall (h : s.Counts) (hc : s.calls[t]? = some c) (reply : Reply) :
    (s.afterCall t reply c).Counts := by
  refine ⟨forall_of_changed_at (P := fun _ ch => ch.engine.InOrder)
    (channel_step_of_ne t reply s.shared c) (inOrder_step t reply s.shared c (h.inOrder _))
    fun st _ => h.inOrder st, ?_⟩
  refine forall_share_set (P := fun ch n => ch.intCntr + n + ch.engine.pending =
    ch.engine.raised) h.counted hc (stream_step t reply s.shared c)
    (channel_step_of_ne t reply s.shared c) fun n n' hn ho => ?_
  have hl := counted_step t reply s.shared c
  have hr := (engine_step t reply s.shared c).1
  omega

theorem counts_step (h : s.Counts) (a : Action) : (s.step a).Counts := by
  refine step_rule h (fun stream ptr data => ⟨h.inOrder, fun st => ?_⟩)
    (fun t reply c hc => h.afterCall hc reply)
    (fun stream f mapped hf => ⟨fun st => ?_, fun st => ?_⟩) a
  · rw [step, total_share_concat]
    · exact h.counted st
    · rfl
  all_goals
    obtain ⟨e, he, hw⟩ := s.exists_channel_afterEngine stream mapped hf st
    simp only [engine, he]
  · exact hw.inOrder (h.inOrder st)
  · have hco : _ + total _ (s.afterEngine stream f mapped).calls + _ = _ := h.counted st
    have hr := hw.raised
    omega

theorem Indexed.afterCall (h : s.Indexed) (hc : s.calls[t]? = some c) (reply : Reply) :
    (s.afterCall t reply c).Indexed := by
  obtain ⟨hlo, hl'⟩ := lock_step t reply s.shared c (h.lock t c hc)
  refine ⟨exclusive_set (f := fun c : CopyFrom => c.pc.hasLock) h.lock hlo hl', ?_⟩
  refine forall_share_set (P := fun ch n => ch.cntr + n = ch.engine.issued.length) h.indexed hc
    (stream_step t reply s.shared c) (channel_step_of_ne t reply s.shared c) fun n n' hn ho => ?_
  have hl := indexed_call t reply s.shared c
  omega

theorem indexed_step (h : s.Indexed) (a : Action) : (s.step a).Indexed := by
  refine step_rule h (fun stream ptr data => ⟨exclusive_concat (f := fun c : CopyFrom =>
    c.pc.hasLock) h.lock rfl, fun st => ?_⟩) (fun t reply c hc => h.afterCall hc reply)
    (fun stream f mapped hf => ⟨h.lock, fun st => ?_⟩) a
  · rw [step, total_share_concat]
    · exact h.indexed st
    · rfl
  · obtain ⟨e, he, hw⟩ := s.exists_channel_afterEngine stream mapped hf st
    simp only [engine, he, hw.issued]
    exact h.indexed st

/-- The number of transfers is one more than was counted exactly while a call with the lock
is about to count. -/
theorem Indexed.cntr_add_uncounted (h : s.Indexed) (hc : s.calls[t]? = some c)
    (hl : c.pc.hasLock = true) :
    (s.shared.channel c.stream).cntr + c.pc.uncounted = (s.engine c.stream).issued.length := by
  have hs : s.shared.lock = some t := h.lock t c hc hl
  have ht : total (share CopyFrom.stream c.stream fun c => c.pc.uncounted) s.calls =
      c.pc.uncounted := by
    rw [total_share_of_unique hc fun u d hut hd => ?_]
    cases hd' : d.pc with
    | count b =>
      have hu : s.shared.lock = some u := h.lock u d hd (by rw [hd']; rfl)
      exact absurd (Option.mem_unique hu hs) hut
    | _ => rfl
  rw [← ht]
  exact h.indexed c.stream

/-! ### The calls -/

def AllTidy (s : System) : Prop :=
  ∀ c ∈ s.calls, Tidy s.shared c

theorem allTidy_step (h : s.AllTidy) (a : Action) : (s.step a).AllTidy := by
  refine step_rule h (fun stream ptr data => forall_concat h ?_) (fun t reply c hc d hd => ?_)
    (fun stream f mapped hf c hc => ?_) a
  · constructor <;> simp [CopyFrom.new, numbers, Pc.used, Pc.issuedAll]
  · rcases mem_or_eq_of_mem_set hd with ho | rfl
    · obtain ⟨hi, hcn⟩ := counters_le_step t reply s.shared c
      by_cases hs : d.stream = c.stream
      · exact (h d ho).mono (hs ▸ hcn) (hs ▸ hi)
      · have hsa := channel_step_of_ne t reply s.shared c hs
        exact (h d ho).mono (by rw [afterCall, hsa]) (by rw [afterCall, hsa])
    · exact (h c (mem_of_getElem? hc)).step t reply
  · obtain ⟨e, he, -⟩ := s.exists_channel_afterEngine stream mapped hf c.stream
    exact (h c hc).mono (by rw [he]) (by rw [he])

/-! ### Every buffer is in one place -/

/-- The places where a buffer can be. -/
inductive Place where
  | pool
  | call (t : ℕ)
  | lost

def contents (s : System) : Place → List DMABuffer
  | .pool => s.shared.fromDevBuffer
  | .call t => (s.calls[t]?).elim [] holding
  | .lost => s.shared.lost.map Prod.snd

/-- Every buffer is in exactly one place. -/
def Owned (buffers : List DMABuffer) (s : System) : Prop :=
  ExactlyOne {b | b ∈ buffers} fun p => (s.contents p : Multiset DMABuffer)

theorem contents_call (hc : s.calls[t]? = some c) : s.contents (.call t) = c.holding := by
  rw [contents, hc]
  rfl

theorem getElem?_afterCall_self (hc : s.calls[t]? = some c) (reply : Reply) :
    (s.afterCall t reply c).calls[t]? = some (CopyFrom.step t reply s.shared c).2 :=
  getElem?_set_self (lt_of_getElem? hc)

theorem getElem?_afterCall_of_ne (s : System) {u : ℕ} (reply : Reply) (c : CopyFrom) (hut : u ≠ t) :
    (s.afterCall t reply c).calls[u]? = s.calls[u]? :=
  getElem?_set_ne (Ne.symm hut)

theorem contents_afterCall_of_ne (s : System) {u : ℕ} (reply : Reply) (c : CopyFrom) (hut : u ≠ t) :
    (s.afterCall t reply c).contents (.call u) = s.contents (.call u) := by
  rw [contents, contents, getElem?_afterCall_of_ne s reply c hut]

theorem Owned.moveAll {bufs : List DMABuffer} {s' : System} (h : s.Owned bufs) {p q : Place}
    (hpq : p ≠ q) {m : List DMABuffer} (hp : (s.contents p).Perm (m ++ s'.contents p))
    (hq : (s'.contents q).Perm (m ++ s.contents q))
    (ho : ∀ r, r ≠ p → r ≠ q → s'.contents r = s.contents r) : s'.Owned bufs :=
  ExactlyOne.moveAll h hpq (m := (m : Multiset DMABuffer)) (Multiset.coe_eq_coe.mpr hp)
    (Multiset.coe_eq_coe.mpr hq)
    fun r hr hrq => by rw [ho r hr hrq]

theorem Owned.afterCall {bufs : List DMABuffer} (h : s.Owned bufs) (hc : s.calls[t]? = some c)
    (ht : Tidy s.shared c) (reply : Reply) : (s.afterCall t reply c).Owned bufs := by
  have hb := contents_call hc
  have haf := contents_call (getElem?_afterCall_self hc reply)
  have ho : ∀ u, u ≠ t → (s.afterCall t reply c).contents (.call u) = s.contents (.call u) :=
    fun u hut => contents_afterCall_of_ne s reply c hut
  rcases holding_step_cases ht t reply with
    ⟨b, hpo, hl, hh⟩ | ⟨b, hpo, hl, hh⟩ | ⟨hpo, hl, -, hh⟩ |
    ⟨hpo, hl, hh⟩
  · refine h.moveAll (p := .pool) (q := .call t) (m := [b]) (by simp) (.of_eq hpo) ?_ ?_
    · rw [haf, hb, hh]
      rfl
    · rintro (_ | u | _) hp hq
      · exact absurd rfl hp
      · exact ho u (by simpa using hq)
      · exact congrArg (List.map Prod.snd) hl
  · refine h.moveAll (p := .call t) (q := .pool) (m := [b]) (by simp) ?_ ?_ ?_
    · rw [haf, hb, hh]
      rfl
    · exact (List.Perm.of_eq hpo).trans (perm_append_singleton b _)
    · rintro (_ | u | _) hp hq
      · exact absurd rfl hq
      · exact ho u (by simpa using hp)
      · exact congrArg (List.map Prod.snd) hl
  · refine h.moveAll (p := .call t) (q := .lost) (m := c.holding) (by simp) ?_ ?_ ?_
    · rw [haf, hb, hh, append_nil]
    · have hm : (s.afterCall t reply c).contents .lost = s.contents .lost ++ c.holding := by
        refine (congrArg (List.map Prod.snd) hl).trans ?_
        simp [contents]
      rw [hm]
      exact perm_append_comm
    · rintro (_ | u | _) hp hq
      · exact hpo
      · exact ho u (by simpa using hp)
      · exact absurd rfl hq
  · have ha : (fun p => ((s.afterCall t reply c).contents p : Multiset DMABuffer)) =
        fun p => (s.contents p : Multiset DMABuffer) := by
      funext p
      rcases p with _ | u | _
      · exact congrArg Multiset.ofList hpo
      · by_cases hut : u = t
        · subst hut
          rw [haf, hb]
          exact Multiset.coe_eq_coe.mpr hh
        · rw [ho u hut]
      · exact congrArg (fun l => Multiset.ofList (List.map Prod.snd l)) hl
    rw [Owned, ha]
    exact h

theorem owned_step {bufs : List DMABuffer} (h : s.Owned bufs) (ht : s.AllTidy)
    (a : Action) : (s.step a).Owned bufs := by
  refine step_rule h (fun stream ptr data => ?_)
    (fun t reply c hc => h.afterCall hc (ht c (mem_of_getElem? hc)) reply) (fun _ _ _ _ => h) a
  have ha : (s.step (.call stream ptr data)).contents = s.contents := by
    funext r
    cases r with
    | call u => exact elim_concat rfl s.calls u
    | _ => rfl
  rw [Owned, ha]
  exact h

end System

end Tapasco.CopyFrom
