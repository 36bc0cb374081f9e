import Tapasco.DmaCopyToSafety

/-!
# Bounce Buffers Are Not Reused Too Early

A call fills a bounce buffer while the buffer is in its hands, and then the buffer is in the
queue until its transfer is popped. So a buffer keeps the data of its transfer until the
engine has moved them, whatever other threads do. This module shows this and puts the parts
of the invariant together.
-/

open Threads Ownership List

namespace Tapasco.CopyTo

open DMABuffer Engine

/-- The buffer at this address has the piece of the data that is to be transferred. -/
def Pc.loadedAt : Pc → Option ℕ
  | .toDev buffer | .lock buffer | .push buffer => some buffer.addr
  | .schedule addr => some addr
  | _ => none

/-- The size of the next piece has been chosen. -/
def Pc.chosen : Pc → Bool
  | .fill _ | .toDev _ | .lock _ | .push _ | .schedule _ | .count => true
  | _ => false

/-- The pieces cover the data, and none goes beyond its end. -/
def InRange (c : CopyTo) : Prop :=
  c.ptrBuffer + c.btt = c.data.length ∧ (c.pc.chosen = true → c.bttThis ≤ c.btt)

/-- The buffer has the next piece of the call's data. -/
def Loaded (mapped : ℕ → List Byte) (c : CopyTo) : Prop :=
  ∀ a, c.pc.loadedAt = some a →
    (mapped a).take c.bttThis = slice c.data c.ptrBuffer c.bttThis

theorem take_filled {c : CopyTo} (h : c.ptrBuffer + c.bttThis ≤ c.data.length) (mp : List Byte) :
    (c.filled mp).take c.bttThis = slice c.data c.ptrBuffer c.bttThis := by
  rw [filled, take_left' (length_slice h)]

section

variable (t : ℕ) (reply : Reply) (s : Shared) (c : CopyTo)

theorem inRange_step (h : c.InRange) : (step t reply s c).2.InRange := by
  obtain ⟨hd, ht⟩ := h
  fun_cases step t reply s c
  case case7 buffer hpc hr =>
    refine ⟨hd, fun _ => ?_⟩
    simp only
    split <;> omega
  case case15 hpc =>
    have hle : c.bttThis ≤ c.btt := ht (by rw [hpc, Pc.chosen])
    refine ⟨?_, fun h => absurd h (by simp [Pc.chosen])⟩
    simp only
    omega
  all_goals simp_all [InRange, goto, dropBuffer, Pc.chosen]

theorem mapped_step_cases :
    (∃ b, c.pc = .fill b ∧ (step t reply s c).1.mapped =
      Function.update s.mapped b.addr (c.filled (s.mapped b.addr))) ∨
    (step t reply s c).1.mapped = s.mapped := by
  fun_cases step t reply s c <;> simp_all [Shared.onChannel, dropBuffer]

theorem loaded_step (hr : c.InRange) (h : c.Loaded s.mapped) :
    (step t reply s c).2.Loaded (step t reply s c).1.mapped := by
  obtain ⟨hd, ht⟩ := hr
  fun_cases step t reply s c <;>
    simp_all [Loaded, Shared.onChannel, goto, dropBuffer, Pc.loadedAt, Pc.chosen]
  exact take_filled (by omega) _

end

namespace System

variable {buffers : List DMABuffer}

/-- **The data of the buffers.** Transfers in flight have the bytes of their calls in their buffers,
and completed ones have moved them. -/
structure Intact (s : System) : Prop where
  inRange : ∀ c ∈ s.calls, c.InRange
  loaded : ∀ c ∈ s.calls, c.Loaded s.shared.mapped
  inFlight : ∀ (st : Bool) (i : ℕ) (x : Transfer) (c : CopyTo),
    (s.engine st).done ≤ i → (s.engine st).issued[i]? = some x →
    s.calls[x.owner]? = some c →
    (s.shared.mapped x.desc.addrHost).take x.desc.size = slice c.data x.offset x.desc.size
  moved : ∀ (st : Bool) (i : ℕ) (x : Transfer) (c : CopyTo) (bytes : List Byte),
    (s.engine st).issued[i]? = some x →
    (s.engine st).log[i]? = some bytes → s.calls[x.owner]? = some c →
    bytes = slice c.data x.offset x.desc.size

variable {s : System} {t : ℕ}

theorem Owned.addr_ne (h : s.Owned buffers) (hbu : (buffers.map addr).Nodup)
    {p q : Place} (hp : p ≠ q) {b b' : DMABuffer} (hb : b ∈ s.contents p)
    (hb' : b' ∈ s.contents q) : b.addr ≠ b'.addr := by
  intro heq
  have hm : b ∈ buffers := h.known p b (Multiset.mem_coe.mpr hb)
  have hm' : b' ∈ buffers := h.known q b' (Multiset.mem_coe.mpr hb')
  obtain rfl : b = b' := inj_on_of_nodup_map hbu hm hm' heq
  exact hp (h.eq_of_mem (Multiset.mem_coe.mpr hb) (Multiset.mem_coe.mpr hb'))

theorem Queued.exists_mem_out (h : s.Queued) {st : Bool} {i : ℕ} {x : Transfer}
    (hi : (s.shared.channel st).popped ≤ i)
    (hx : (s.engine st).issued[i]? = some x) :
    ∃ b ∈ s.contents (.out st), b.addr = x.desc.addrHost := by
  have hd : x ∈ (s.engine st).issued.drop (s.shared.channel st).popped := by
    refine mem_of_getElem? (i := i - (s.shared.channel st).popped) ?_
    rw [getElem?_drop, Nat.add_sub_cancel' hi]
    exact hx
  have hm : x.desc.addrHost ∈ (s.shared.channel st).out.map addr := by
    rw [← h.queue st]
    exact mem_append_left _ (mem_map_of_mem hd)
  exact mem_map.mp hm

variable {c : CopyTo}

theorem Queued.exists_mem_out_of_schedule (h : s.Queued) {a : ℕ} (hc : s.calls[t]? = some c)
    (hpc : c.pc = .schedule a) : ∃ b ∈ s.contents (.out c.stream), b.addr = a := by
  have hm : a ∈ (s.shared.channel c.stream).out.map addr := by
    rw [← h.queue c.stream]
    refine mem_append_right _ (mem_flatMap.mpr ⟨c, mem_of_getElem? hc, ?_⟩)
    rw [unscheduledOn, if_pos rfl, hpc]
    exact mem_singleton_self a
  exact mem_map.mp hm

theorem Loaded.afterCall (hq : s.Queued) (how : s.Owned buffers)
    (hbu : (buffers.map addr).Nodup) {u : ℕ} {d : CopyTo} (reply : Reply)
    (hc : s.calls[t]? = some c) (hut : u ≠ t) (hd : s.calls[u]? = some d)
    (h : d.Loaded s.shared.mapped) : d.Loaded (s.afterCall t reply c).shared.mapped := by
  rcases mapped_step_cases t reply s.shared c with ⟨b, hpc, hm⟩ | hm
  · intro a ha
    have hb : b ∈ s.contents (.call t) := by simp [contents, hc, hpc, Pc.holding]
    have hne : a ≠ b.addr := by
      have hh : ∀ b', d.pc.holding = [b'] → a = b'.addr → a ≠ b.addr := by
        intro b' hh ha'
        have hb' : b' ∈ s.contents (.call u) := by simp [contents, hd, hh]
        rw [ha']
        exact how.addr_ne hbu (by simpa using hut) hb' hb
      cases hdp : d.pc with
      | schedule a' =>
        rw [hdp] at ha
        obtain ⟨b', hb', had⟩ := hq.exists_mem_out_of_schedule hd hdp
        rw [← Option.some.inj ha, ← had]
        exact how.addr_ne hbu (by simp) hb' hb
      | toDev b' | lock b' | push b' =>
        rw [hdp] at ha
        exact hh b' (by rw [hdp]; rfl) (Option.some.inj ha).symm
      | _ => simp [hdp, Pc.loadedAt] at ha
    rw [System.afterCall, hm, Function.update_of_ne hne]
    exact h a ha
  · rw [System.afterCall, hm]
    exact h

theorem data_of_afterCall {u : ℕ} {d' : CopyTo} {reply : Reply} (hc : s.calls[t]? = some c)
    (hd' : (s.afterCall t reply c).calls[u]? = some d') :
    ∃ d, s.calls[u]? = some d ∧ d'.data = d.data := by
  rcases getElem?_set_cases hd' with ⟨rfl, rfl⟩ | ⟨-, hd⟩
  · exact ⟨c, hc, data_step u reply s.shared c⟩
  · exact ⟨d', hd, rfl⟩

theorem issued_afterCall (reply : Reply) {st : Bool} {i : ℕ} {x : Transfer}
    (hx : ((s.afterCall t reply c).engine st).issued[i]? = some x) :
    (s.engine st).issued[i]? = some x ∨
      ∃ a, c.pc = .schedule a ∧ st = c.stream ∧ i = (s.engine st).issued.length ∧
        x = c.transfer s.shared t a := by
  by_cases hs : st = c.stream
  · subst hs
    rcases issued_step_cases t reply s.shared c with ⟨a, hpc, -, hiss⟩ | hiss <;>
      rw [System.afterCall, hiss] at hx
    · rcases getElem?_concat_cases hx with ⟨hi, rfl⟩ | ho
      · exact .inr ⟨a, hpc, rfl, hi, rfl⟩
      · exact .inl ho
    · exact .inl hx
  · rw [System.afterCall, engine, channel_step_of_ne t reply s.shared c hs] at hx
    exact .inl hx

theorem log_afterCall (s : System) (t : ℕ) (reply : Reply) (c : CopyTo) (st : Bool) :
    ((s.afterCall t reply c).engine st).log = (s.engine st).log := by
  by_cases hs : st = c.stream
  · subst hs
    exact (engine_step t reply s.shared c).2
  · exact congrArg (fun ch => ch.engine.log) (channel_step_of_ne t reply s.shared c hs)

theorem mapped_afterCall_of_inFlight (hco : s.Counts) (hq : s.Queued)
    (how : s.Owned buffers) (hbu : (buffers.map addr).Nodup) (reply : Reply)
    (hc : s.calls[t]? = some c) {st : Bool} {i : ℕ} {x : Transfer}
    (hi : (s.engine st).done ≤ i)
    (hx : (s.engine st).issued[i]? = some x) :
    (s.afterCall t reply c).shared.mapped x.desc.addrHost = s.shared.mapped x.desc.addrHost := by
  rcases mapped_step_cases t reply s.shared c with ⟨b, hpc, hm⟩ | hm <;>
    rw [System.afterCall, hm]
  have hb : b ∈ s.contents (.call t) := by simp [contents, hc, hpc, Pc.holding]
  obtain ⟨hle, hle', -⟩ := hco.popped_le st
  obtain ⟨b', hb', ha⟩ := hq.exists_mem_out (by omega) hx
  rw [Function.update_of_ne]
  rw [← ha]
  exact how.addr_ne hbu (by simp) hb' hb

theorem Intact.afterCall (h : s.Intact) (hco : s.Counts) (hq : s.Queued)
    (how : s.Owned buffers) (hbu : (buffers.map addr).Nodup)
    (hc : s.calls[t]? = some c) (reply : Reply) : (s.afterCall t reply c).Intact := by
  have hm : c ∈ s.calls := mem_of_getElem? hc
  have hl := log_afterCall s t reply c
  refine ⟨?_, ?_, ?_, ?_⟩
  · intro d hd
    rcases mem_or_eq_of_mem_set hd with ho | rfl
    · exact h.inRange d ho
    · exact inRange_step t reply s.shared c (h.inRange c hm)
  · intro d hd
    obtain ⟨u, hu⟩ := getElem?_of_mem hd
    rcases getElem?_set_cases hu with ⟨rfl, rfl⟩ | ⟨hut, hu⟩
    · exact loaded_step u reply s.shared c (h.inRange c hm) (h.loaded c hm)
    · exact Loaded.afterCall hq how hbu reply hc hut hu
        (h.loaded d (mem_of_getElem? hu))
  · intro st i x d' hi hx hd'
    rw [done, hl] at hi
    obtain ⟨d, hd, hda⟩ := data_of_afterCall hc hd'
    rw [hda]
    rcases issued_afterCall reply hx with ho | ⟨a, hpc, rfl, -, rfl⟩
    · rw [mapped_afterCall_of_inFlight hco hq how hbu reply hc hi ho]
      exact h.inFlight st i x d hi ho hd
    -- the transfer has just been issued, from a buffer that is loaded
    have hs : (s.afterCall t reply c).shared.mapped = s.shared.mapped := by
      rcases mapped_step_cases t reply s.shared c with ⟨b, hf, -⟩ | hma
      · exact absurd (hpc.symm.trans hf) (by simp)
      · exact hma
    obtain rfl : c = d := Option.mem_unique hc hd
    rw [hs]
    exact h.loaded c hm a (by rw [hpc]; rfl)
  · intro st i x d' bytes hx hb hd'
    rw [hl] at hb
    obtain ⟨d, hd, hda⟩ := data_of_afterCall hc hd'
    rw [hda]
    rcases issued_afterCall reply hx with ho | ⟨a, -, rfl, hi, -⟩
    · exact h.moved st i x d bytes ho hb hd
    have hlt := lt_of_getElem? hb
    have hle := (hco.inOrder c.stream).done_le
    rw [done] at hle
    omega

theorem Intact.onEngine (h : s.Intact) {st : Bool} {f : Engine (List Byte) → Engine (List Byte)}
    (hiss : ∀ e, (f e).issued = e.issued)
    (hl : (f (s.engine st)).log = (s.engine st).log ∨
      ∃ x, (s.engine st).issued[(s.engine st).done]? =
          some x ∧
        (f (s.engine st)).log = (s.engine st).log ++
          [(s.shared.mapped x.desc.addrHost).take x.desc.size]) : (s.onEngine st f).Intact := by
  refine ⟨h.inRange, h.loaded, ?_, ?_⟩
  · refine forall_channel_onEngine (P := fun _ ch => ∀ (i : ℕ) (x : Transfer) (c : CopyTo),
      ch.engine.done ≤ i → ch.engine.issued[i]? = some x → s.calls[x.owner]? = some c →
        (s.shared.mapped x.desc.addrHost).take x.desc.size = slice c.data x.offset x.desc.size)
      h.inFlight fun i x c hi hx hc => ?_
    rw [hiss] at hx
    refine h.inFlight st i x c (le_trans ?_ hi) hx hc
    rcases hl with hl | ⟨y, -, hl⟩ <;> rw [done, done, hl]
    rw [length_append]
    exact Nat.le_add_right _ _
  · refine forall_channel_onEngine (P := fun _ ch => ∀ (i : ℕ) (x : Transfer) (c : CopyTo)
      (bytes : List Byte), ch.engine.issued[i]? = some x → ch.engine.log[i]? = some bytes →
        s.calls[x.owner]? = some c → bytes = slice c.data x.offset x.desc.size)
      h.moved fun i x c bytes hx hb hc => ?_
    rw [hiss] at hx
    rcases hl with hl | ⟨y, hy, hl⟩ <;> rw [hl] at hb
    · exact h.moved st i x c bytes hx hb hc
    · rcases getElem?_concat_cases hb with ⟨rfl, rfl⟩ | ho
      · obtain rfl : x = y := Option.mem_unique hx hy
        exact h.inFlight st _ x c (le_refl _) hx hc
      · exact h.moved st i x c bytes hx ho hc

theorem intact_step (h : s.Intact) (hco : s.Counts) (hq : s.Queued) (haw : s.Awaited)
    (how : s.Owned buffers) (hb : (buffers.map addr).Nodup) (a : Action) :
    (s.step a).Intact := by
  cases a with
  | call stream data ptr =>
    have hca : ∀ {st : Bool} {i : ℕ} {x : Transfer} {d : CopyTo},
        (s.engine st).issued[i]? = some x →
        (s.step (.call stream data ptr)).calls[x.owner]? = some d →
          s.calls[x.owner]? = some d := by
      intro st i x d hx hd
      obtain ⟨c, hc, -⟩ := haw.owner st i x hx
      rcases getElem?_concat_cases hd with ⟨hl, -⟩ | hd
      · have hlt := lt_of_getElem? hc
        omega
      · exact hd
    have hm : ∀ {c}, c ∈ (s.step (.call stream data ptr)).calls →
        c ∈ s.calls ∨ c = CopyTo.new stream data ptr := fun hc => by
      simpa [step] using hc
    refine ⟨fun c hc => ?_, fun c hc => ?_, fun st i x d hi hx hd => ?_,
      fun st i x d bytes hx hby hd => ?_⟩
    · rcases hm hc with ho | rfl
      · exact h.inRange c ho
      · exact ⟨by simp [CopyTo.new], by simp [CopyTo.new, Pc.chosen]⟩
    · rcases hm hc with ho | rfl
      · exact h.loaded c ho
      · exact fun a ha => absurd ha (by simp [CopyTo.new, Pc.loadedAt])
    · exact h.inFlight st i x d hi hx (hca hx hd)
    · exact h.moved st i x d bytes hx hby (hca hx hd)
  | step t reply =>
    rcases step_call_cases s t reply with heq | ⟨c, hc, heq⟩ <;> rw [heq]
    · exact h
    · exact h.afterCall hco hq how hb hc reply
  | complete stream =>
    refine h.onEngine (fun e => e.issued_complete _) ?_
    rcases complete_cases (s.engine stream) _ with heq | ⟨x, hx, heq⟩
    · exact .inl (by rw [heq])
    · exact .inr ⟨x, hx, by rw [heq]⟩
  | raise stream => exact h.onEngine issued_raise (.inl (log_raise _))

end System

/-! ### The invariant -/

section

variable (t : ℕ) (reply : Reply) (s : Shared) (c : CopyTo)

theorem tooManyInterrupts_step
    (h : (step t reply s c).2.pc = .returned (.error .tooManyInterrupts)) :
    c.pc = .returned (.error .tooManyInterrupts) ∨
      ∃ next n, c.pc = .waitPop next n ∧ (s.channel c.stream).out = [] := by
  revert h
  fun_cases step t reply s c <;> simp_all [goto, dropBuffer]

theorem error_step (hr : reply ≠ .failed) (hs : c.stream = true → s.isVersal = true)
    (ho : ∀ next n, c.pc = .waitPop next n → (s.channel c.stream).out ≠ [])
    (h : ∀ e, c.pc ≠ .returned (.error e)) :
    (∀ e, (step t reply s c).2.pc ≠ .returned (.error e)) ∧ (step t reply s c).1.lost = s.lost := by
  fun_cases step t reply s c <;> simp_all [Shared.onChannel, goto]

end

namespace System

variable {buffers : List DMABuffer}

/-- **The invariant** of the write path. -/
structure Inv (buffers : List DMABuffer) (s : System) : Prop where
  counts : s.Counts
  queued : s.Queued
  owned : s.Owned buffers
  awaited : s.Awaited
  intact : s.Intact
  noError : ∀ c ∈ s.calls, c.pc ≠ .returned (.error .tooManyInterrupts)

variable {s : System}

theorem noError_step (hco : s.Counts) (hq : s.Queued)
    (h : ∀ c ∈ s.calls, c.pc ≠ .returned (.error .tooManyInterrupts)) (a : Action) :
    ∀ c ∈ (s.step a).calls, c.pc ≠ .returned (.error .tooManyInterrupts) := by
  refine forall_calls_step (fun _ _ _ => by simp [CopyTo.new]) (fun t reply c hc hn hr => ?_)
    h a
  rcases tooManyInterrupts_step t reply s.shared c hr with ho | ⟨next, n, hpc, hou⟩
  · exact hn ho
  · exact (out_ne_nil hco hq hc next n hpc).2 hou

theorem inv_step (hb : (buffers.map addr).Nodup) (h : s.Inv buffers) (a : Action) :
    (s.step a).Inv buffers where
  counts := counts_step h.counts h.queued a
  queued := queued_step h.queued h.counts a
  owned := owned_step h.owned a
  awaited := awaited_step h.awaited h.queued a
  intact := intact_step h.intact h.counts h.queued h.awaited h.owned hb a
  noError := noError_step h.counts h.queued h.noError a

theorem owned_new (hb : (buffers.map addr).Nodup) (ver : Bool)
    (mp : ℕ → List Byte) : (System.new buffers ver mp).Owned buffers := by
  have hn : buffers.Nodup := hb.of_map _
  have ho : ∀ p, p ≠ .pool → (System.new buffers ver mp).contents p = [] := by
    intro p hp
    cases p with
    | pool => exact absurd rfl hp
    | _ => rfl
  exact ExactlyOne.of_gathered hn (p := .pool) (fun p hp => by rw [ho p hp]; rfl) rfl

theorem counts_new (bs : List DMABuffer) (ver : Bool) (mp : ℕ → List Byte) :
    (System.new bs ver mp).Counts :=
  ⟨fun _ => inOrder_idle, fun _ => rfl, fun _ => rfl⟩

theorem queued_new (bs : List DMABuffer) (ver : Bool) (mp : ℕ → List Byte) :
    (System.new bs ver mp).Queued :=
  ⟨fun _ _ hc => absurd hc (by simp [System.new]), fun _ => rfl, fun _ => rfl⟩

theorem inv_new (hb : (buffers.map addr).Nodup) (ver : Bool)
    (mp : ℕ → List Byte) : (System.new buffers ver mp).Inv buffers where
  counts := counts_new buffers ver mp
  queued := queued_new buffers ver mp
  owned := owned_new hb ver mp
  awaited := ⟨fun _ _ _ hx => absurd hx (by simp [System.new, idle]),
    fun _ _ hc => absurd hc (by simp [System.new])⟩
  intact := ⟨fun _ hc => absurd hc not_mem_nil, fun _ hc => absurd hc not_mem_nil,
    fun _ _ _ _ _ hx => absurd hx (by simp [System.new, idle]),
    fun _ _ _ _ _ hx => absurd hx (by simp [System.new, idle])⟩
  noError := fun _ hc => absurd hc not_mem_nil

/-! ### Runs in which nothing fails -/

/-- No ioctl and no read of an eventfd fails, and streams are used on devices that have
them. -/
def Smooth (s : System) : Action → Prop
  | .call stream _ _ => stream = true → s.shared.isVersal = true
  | .step _ reply => reply ≠ .failed
  | _ => True

structure Calm (s : System) : Prop where
  lost : s.shared.lost = []
  error : ∀ c ∈ s.calls, ∀ e, c.pc ≠ .returned (.error e)
  stream : ∀ c ∈ s.calls, c.stream = true → s.shared.isVersal = true

theorem calm_step (hi : s.Inv buffers) (h : s.Calm) {a : Action} (hs : s.Smooth a) :
    (s.step a).Calm := by
  cases a with
  | call stream data ptr =>
    exact ⟨h.lost, forall_concat h.error (by simp [CopyTo.new]), forall_concat h.stream hs⟩
  | step t reply =>
    rcases step_call_cases s t reply with heq | ⟨c, hc, heq⟩ <;> rw [heq]
    · exact h
    have hm := mem_of_getElem? hc
    obtain ⟨he, hl⟩ := error_step t reply s.shared c hs (h.stream c hm)
      (fun next n hpc => (out_ne_nil hi.counts hi.queued hc next n hpc).2) (h.error c hm)
    refine ⟨hl.trans h.lost, forall_set h.error he, ?_⟩
    rw [afterCall, isVersal_step]
    exact forall_set h.stream (by rw [stream_step]; exact h.stream c hm)
  | complete stream => exact ⟨h.lost, h.error, h.stream⟩
  | raise stream => exact ⟨h.lost, h.error, h.stream⟩

def Idle (s : System) : Prop :=
  ∀ c ∈ s.calls, ∃ r, c.pc = .returned r

theorem out_eq_nil_of_idle (hi : s.Inv buffers)
    (he : ∀ c ∈ s.calls, ∀ e, c.pc ≠ .returned (.error e)) (hid : s.Idle) (st : Bool) :
    (s.shared.channel st).out = [] := by
  have hp := hi.counts.popped st
  rw [total_eq_zero fun c hc => share_eq_zero ?_ st] at hp
  swap
  · obtain ⟨r, hr⟩ := hid c hc
    rw [hr]
    rfl
  -- the last transfer is counted, because its call has returned
  have hcou : (s.engine st).issued.length ≤ (s.shared.channel st).intCntr := by
    cases hl : (s.engine st).issued.length with
    | zero => exact Nat.zero_le _
    | succ n =>
      have hlt : n < (s.engine st).issued.length := by omega
      obtain ⟨c, hc, rfl, hnu⟩ := hi.awaited.owner st n _ (getElem?_eq_getElem hlt)
      have hm := mem_of_getElem? hc
      obtain ⟨r, hr⟩ := hid c hm
      match r, hr with
      | .error e, hr => exact absurd hr (he c hm e)
      | .ok (), hr =>
        have hre := hi.awaited.returned _ c hc hr
        have hle := hnu.resolve_right fun hco => by simp [hr] at hco
        omega
  have hn : s.calls.flatMap (unscheduledOn st) = [] := by
    refine flatMap_eq_nil_iff.mpr fun c hc => ?_
    obtain ⟨r, hr⟩ := hid c hc
    rw [unscheduledOn, hr]
    exact ite_self _
  have hq := hi.queued.queue st
  rw [hn, drop_eq_nil_of_le (by omega)] at hq
  exact map_eq_nil_iff.mp hq.symm

theorem pool_perm_of_idle (hb : (buffers.map addr).Nodup) (hi : s.Inv buffers)
    (hca : s.Calm) (hid : s.Idle) : s.shared.toDevBuffer.Perm buffers := by
  have hn : buffers.Nodup := hb.of_map _
  have ho : ∀ p, p ≠ .pool → s.contents p = [] := by
    intro p hp
    cases p with
    | pool => exact absurd rfl hp
    | out st => exact out_eq_nil_of_idle hi hca.error hid st
    | lost => exact hca.lost
    | call t =>
      cases hc : s.calls[t]? with
      | none => rw [contents, hc]; rfl
      | some c =>
        obtain ⟨r, hr⟩ := hid c (mem_of_getElem? hc)
        rw [contents, hc, Option.elim_some, hr]
        rfl
  exact Multiset.coe_eq_coe.mp (hi.owned.eq_all_of_gathered hn (p := Place.pool)
    fun p hp => by rw [ho p hp]; rfl)

/-! ### Runs -/

/-- **Safety of the write path.** Not more buffers came back than transfers are completed; a buffer
in flight is in the queue and nowhere else, and has the bytes of its call; there are not too many
interrupts; the transfers of a call that has returned are completed. -/
structure WriteSafe (s : System) : Prop where
  popped_le : ∀ st, (s.shared.channel st).popped ≤ (s.engine st).done
  inFlight : ∀ (st : Bool) (i : ℕ) (x : Transfer), (s.engine st).done ≤ i →
    (s.engine st).issued[i]? = some x →
      (∀ p, ∀ b ∈ s.contents p, b.addr = x.desc.addrHost → p = .out st) ∧
      ∃ c, s.calls[x.owner]? = some c ∧
        (s.shared.mapped x.desc.addrHost).take x.desc.size = slice c.data x.offset x.desc.size
  noError : ∀ c ∈ s.calls, c.pc ≠ .returned (.error .tooManyInterrupts)
  completed : ∀ (st : Bool) (i : ℕ) (x : Transfer) (c : CopyTo),
    (s.engine st).issued[i]? = some x → s.calls[x.owner]? = some c →
      c.pc = .returned (.ok ()) → i < (s.engine st).done

theorem Inv.writeSafe (hbu : (buffers.map addr).Nodup) (h : s.Inv buffers) :
    s.WriteSafe where
  popped_le st := (h.counts.popped_le st).1.trans (h.counts.popped_le st).2.1
  inFlight st i x hi hx := by
    obtain ⟨hle, hle', -⟩ := h.counts.popped_le st
    obtain ⟨b', hb', ha⟩ := h.queued.exists_mem_out (by omega) hx
    obtain ⟨c, hc, -⟩ := h.awaited.owner st i x hx
    refine ⟨fun p b hb hba => ?_, c, hc, h.intact.inFlight st i x c hi hx hc⟩
    by_contra hp
    exact h.owned.addr_ne hbu hp hb hb' (hba.trans ha.symm)
  noError := h.noError
  completed st i x c hx hc hr := by
    obtain ⟨d, hd, rfl, hn⟩ := h.awaited.owner st i x hx
    obtain rfl : c = d := Option.mem_unique hc hd
    have hre := h.awaited.returned _ c hc hr
    have hle := hn.resolve_right fun hco => by simp [hr] at hco
    have hdon := (h.counts.popped_le c.stream).2.1
    omega

/-- **The write path** is safe in all runs, and in those in which nothing fails all buffers are in
the pool whenever no call is active. -/
theorem writeSafe_of_mem_trace (hbuffers : (buffers.map addr).Nodup) (isVersal : Bool)
    (mapped : ℕ → List Byte) (actions : List Action) :
    (∀ s ∈ Runs.trace step (System.new buffers isVersal mapped) actions, s.WriteSafe) ∧
      (Runs.AllSteps step Smooth (System.new buffers isVersal mapped) actions →
        ∀ s ∈ Runs.trace step (System.new buffers isVersal mapped) actions,
          s.Idle → s.shared.toDevBuffer.Perm buffers) := by
  have hnew := inv_new hbuffers isVersal mapped
  constructor
  · intro s hs
    exact (Runs.forall_mem_trace (P := Inv buffers) (fun _ a h => inv_step hbuffers h a) hnew
      actions s hs).writeSafe hbuffers
  · intro hsmooth s hs hidle
    have hboth : s.Inv buffers ∧ s.Calm :=
      Runs.forall_mem_trace_of (P := fun s => s.Inv buffers ∧ s.Calm)
        (fun s a h hok => ⟨inv_step hbuffers h.1 a, calm_step h.1 h.2 hok⟩)
        ⟨hnew, rfl, fun _ hc => absurd hc not_mem_nil, fun _ hc => absurd hc not_mem_nil⟩
        hsmooth s hs
    exact pool_perm_of_idle hbuffers hboth.1 hboth.2 hidle

def bounce : DMABuffer :=
  ⟨0, 4, 0x1000⟩

/-- Three bytes are copied, and the call waits for the end of the transfer. -/
def threeBytes : List Action :=
  .call false [1, 2, 3] 0x40 :: List.replicate 12 (.step 0 .ok) ++
    [.complete false, .raise false] ++ List.replicate 6 (.step 0 .ok)

theorem writeSafe_of_mem_trace_three_bytes :
    ∃ s ∈ Runs.trace step (System.new [bounce] false fun _ => []) threeBytes,
      s.calls.map CopyTo.pc = [.returned (.ok ())] ∧
        (s.shared.channel false).engine.log = [[1, 2, 3]] ∧ s.WriteSafe ∧
        s.shared.toDevBuffer.Perm [bounce] := by
  have hmem : Runs.run step (System.new [bounce] false fun _ => []) threeBytes ∈
      Runs.trace step (System.new [bounce] false fun _ => []) threeBytes :=
    Runs.run_mem_trace _ _
  have hpcs : (Runs.run step (System.new [bounce] false fun _ => []) threeBytes).calls.map
      CopyTo.pc = [.returned (.ok ())] := by decide +kernel
  have hsmooth : Runs.AllSteps step Smooth (System.new [bounce] false fun _ => []) threeBytes := by
    simp [threeBytes, Runs.AllSteps, Smooth, List.replicate]
  have hbuffers : ([bounce].map addr).Nodup := by decide
  obtain ⟨hsafe, hback⟩ := writeSafe_of_mem_trace hbuffers false (fun _ => []) threeBytes
  refine ⟨_, hmem, hpcs, by decide +kernel, hsafe _ hmem, hback hsmooth _ hmem fun c hc => ?_⟩
  have hc' := mem_map_of_mem (f := CopyTo.pc) hc
  rw [hpcs, mem_singleton] at hc'
  exact ⟨_, hc'⟩

/-- A stream to a device without streams: the transfer is issued before the call fails, and
completed after it. -/
def unsupportedStream : List Action :=
  .call true [7] 0 :: List.replicate 11 (.step 0 .ok) ++ [.complete true, .raise true]

/-- The call fails, and its buffer stays in the queue, which nobody will ever look at. -/
theorem buffer_stuck_after_unsupported_stream :
    ∃ s ∈ Runs.trace step (System.new [bounce] false fun _ => []) unsupportedStream,
      s.calls.map CopyTo.pc = [.returned (.error .streamsNotSupported)] ∧
        (s.shared.channel true).engine.done = 1 ∧ (s.shared.channel true).out = [bounce] ∧
        s.shared.toDevBuffer = [] := by
  refine ⟨_, Runs.run_mem_trace _ _, ?_, ?_, ?_, ?_⟩ <;> decide +kernel

end System

end Tapasco.CopyTo
