import Tapasco.DmaCopyToProgress
import Tapasco.DmaCopyFromProgress

/-!
# Transfers Move the Right Bytes

This module follows one call of `copy_to`, and one of `copy_from` after it, on a `UserSpaceDMA`
on which all earlier calls have returned. The caller and the engine take their steps under a
fair schedule.

The transfers of a call follow each other in the data and on the bus, so that storing the bytes of
one after the other amounts to one store of all the data.
-/

open Word64 Threads Lists List

namespace Tapasco

namespace UserSpaceDMA

/-! ### Storing bytes -/

theorem stored_nil (memory : ByteMem) (addr : ℕ) : stored memory addr [] = memory := by
  funext a
  rw [stored, getD_nil, ite_self]

/-- **Storing in two parts**, where the second follows the first and they do not overlap. -/
theorem stored_append (memory : ByteMem) {addr : ℕ} (had : addr < 2 ^ 64) (l k : List Byte)
    (hlen : l.length + k.length ≤ 2 ^ 64) :
    stored (stored memory addr l) ((addr + l.length) % 2 ^ 64) k = stored memory addr (l ++ k) := by
  funext a
  rw [stored, stored, stored]
  by_cases ha : a < 2 ^ 64
  swap
  · simp only [if_neg ha]
  simp only [if_pos ha, getD_eq_getElem?_getD]
  have ho : wrappingSub a addr < 2 ^ 64 := Nat.mod_lt _ (by omega)
  by_cases hl : wrappingSub a addr < l.length
  · have hk : k.length ≤ wrappingSub a ((addr + l.length) % 2 ^ 64) := by
      rw [wrappingSub] at hl ⊢
      omega
    rw [getElem?_append_left hl, getElem?_eq_none hk, Option.getD_none]
  · have heq : wrappingSub a ((addr + l.length) % 2 ^ 64) = wrappingSub a addr - l.length := by
      rw [wrappingSub] at hl ho
      rw [wrappingSub, wrappingSub]
      omega
    rw [getElem?_append_right (not_lt.mp hl), heq, getElem?_eq_none (not_lt.mp hl),
      Option.getD_none]

theorem stored_inside (memory : ByteMem) (addr : ℕ) {l : List Byte} (hl : l.length ≤ 2 ^ 64)
    {k : ℕ} (hk : k < l.length) : stored memory (addr % 2 ^ 64) l ((addr + k) % 2 ^ 64) = l[k] := by
  have ho : wrappingSub ((addr + k) % 2 ^ 64) (addr % 2 ^ 64) = k := by
    rw [wrappingSub]
    omega
  rw [stored, if_pos (Nat.mod_lt _ (by omega)), ho, getD_eq_getElem?_getD,
    getElem?_eq_getElem hk, Option.getD_some]

theorem stored_outside (memory : ByteMem) (addr : ℕ) {l : List Byte} {a : ℕ}
    (ha : ∀ k < l.length, a ≠ (addr + k) % 2 ^ 64) :
    stored memory (addr % 2 ^ 64) l a = memory a := by
  rw [stored]
  split
  · rename_i hlt
    rw [getD_eq_getElem?_getD, getElem?_eq_none, Option.getD_none]
    by_contra hk
    refine ha (wrappingSub a (addr % 2 ^ 64)) (not_le.mp hk) ?_
    rw [wrappingSub]
    omega
  · rfl

/-- The memory after a list of stores. -/
def replay (memory : ByteMem) (l : List (Transfer × List Byte)) : ByteMem :=
  l.foldl (fun memory p => stored memory p.1.desc.addrDevice p.2) memory

theorem replay_concat (memory : ByteMem) (l : List (Transfer × List Byte)) (x : Transfer)
    (bytes : List Byte) :
    replay memory (l ++ [(x, bytes)]) = stored (replay memory l) x.desc.addrDevice bytes :=
  foldl_concat _ _ _ _

/-- **Pieces that follow each other** store all the data. -/
theorem replay_tiled (memory : ByteMem) {base : ℕ} (hba : base < 2 ^ 64) {data : List Byte}
    (hl : data.length ≤ 2 ^ 64) {a b : ℕ} {xs : List Transfer} (hti : Tiled a xs b)
    (hb : b ≤ data.length) (hd : ∀ x ∈ xs, x.desc.addrDevice = (base + x.offset) % 2 ^ 64) :
    replay (stored memory base (data.take a))
        (xs.map fun x => (x, slice data x.offset x.desc.size)) =
      stored memory base (data.take b) := by
  induction xs generalizing a with
  | nil =>
    obtain rfl : a = b := hti
    rfl
  | cons x xs ih =>
    obtain ⟨rfl, hr⟩ := hti
    have hle := hr.le.trans hb
    have ht : (data.take x.offset).length = x.offset := by
      rw [length_take]
      omega
    have hn : stored (stored memory base (data.take x.offset)) x.desc.addrDevice
        (slice data x.offset x.desc.size) =
          stored memory base (data.take (x.offset + x.desc.size)) := by
      have ha := stored_append memory hba (data.take x.offset)
        (slice data x.offset x.desc.size) (by rw [ht, length_slice hle]; omega)
      rw [ht] at ha
      rw [hd x mem_cons_self, ha, slice, take_add]
    rw [map_cons, replay, foldl_cons, hn]
    exact ih hr fun y hy => hd y (mem_cons_of_mem x hy)

/-! ### The memory is a replay of the log -/

/-- What was completed since there were `k` transfers in the log, with the bytes. -/
def completedSince (k : ℕ) (e : Engine (List Byte)) : List (Transfer × List Byte) :=
  (e.issued.drop k).zip (e.log.drop k)

/-- **The memory** has the bytes of the transfers that were completed since there were `k` of
them. -/
structure Recorded (memory : ByteMem) (k : ℕ) (s : UserSpaceDMA) : Prop where
  le_done : k ≤ (s.writes.engine false).done
  memory : s.memory = replay memory (completedSince k (s.writes.engine false))

theorem Recorded.of_log_eq {memory : ByteMem} {k : ℕ} {s s' : UserSpaceDMA}
    (hc : s.writes.Counts) (h : s.Recorded memory k) (hm : s'.memory = s.memory)
    (hl : (s'.writes.engine false).log = (s.writes.engine false).log)
    (hi : (s'.writes.engine false).issued =
        (s.writes.engine false).issued ∨
      ∃ x, (s'.writes.engine false).issued =
        (s.writes.engine false).issued ++ [x]) : s'.Recorded memory k := by
  have hle := (hc.inOrder false).done_le
  have hk := h.le_done
  rw [Engine.done] at hle hk
  refine ⟨by rw [Engine.done, hl]; exact hk, ?_⟩
  rw [hm, h.memory, completedSince, completedSince, hl]
  obtain hs | ⟨x, hco⟩ := hi
  · rw [hs]
  · rw [hco, drop_append_of_le_length (hk.trans hle), zip_concat_left]
    rw [length_drop, length_drop]
    omega

theorem recorded_step {memory : ByteMem} {k : ℕ} {s : UserSpaceDMA} (hc : s.writes.Counts)
    (h : s.Recorded memory k) (a : Action) : (s.step a).Recorded memory k := by
  cases a with
  | read b =>
    rw [step]
    split <;> exact ⟨h.le_done, h.memory⟩
  | write b =>
    rw [step]
    split
    · exact h
    cases b with
    | call stream data ptr => exact ⟨h.le_done, h.memory⟩
    | step t reply =>
      obtain heq | ⟨c, -, heq⟩ := CopyTo.System.step_call_cases s.writes t reply
      · exact h.of_log_eq hc rfl (by rw [heq]) (.inl (by rw [heq]))
      refine h.of_log_eq hc rfl ?_ ?_
      · simp only [heq]
        exact CopyTo.System.log_afterCall s.writes t reply c false
      · simp only [heq]
        by_cases hs : false = c.stream
        · rw [hs, CopyTo.System.afterCall]
          obtain ⟨a, -, -, hi⟩ | hi := CopyTo.issued_step_cases t reply s.writes.shared c
          · exact .inr ⟨_, hi⟩
          · exact .inl hi
        · rw [CopyTo.System.afterCall, CopyTo.System.engine,
            CopyTo.channel_step_of_ne t reply s.writes.shared c hs]
          exact .inl rfl
    | complete stream =>
      cases stream with
      | true => exact ⟨h.le_done, h.memory⟩
      | false =>
        rw [CopyTo.System.step, memoryAfter]
        cases hx : (s.writes.engine false).issued[
            (s.writes.engine false).done]? with
        | none =>
          rw [CopyTo.System.onEngine_eq_self (by rw [Engine.complete, hx])]
          exact ⟨h.le_done, h.memory⟩
        | some x =>
          have hk := h.le_done
          rw [Engine.done] at hk hx
          have hl : ((s.writes.engine false).issued.drop k)[
              ((s.writes.engine false).log.drop k).length]? = some x := by
            rw [getElem?_drop, length_drop, Nat.add_sub_cancel' hk]
            exact hx
          constructor
          · simp only [CopyTo.System.onEngine, CopyTo.Shared.onChannel, CopyTo.System.engine,
              Function.update_self, Engine.complete, Engine.done, hx, length_append]
            exact Nat.le_add_right_of_le hk
          · simp only [CopyTo.System.onEngine, CopyTo.Shared.onChannel, CopyTo.System.engine,
              Function.update_self, Engine.complete, Engine.done, hx, completedSince]
            rw [drop_append_of_le_length hk, zip_concat_right hl, replay_concat,
              h.memory, completedSince]
    | raise stream =>
      refine h.of_log_eq hc rfl ?_ (.inl ?_)
      · exact CopyTo.System.forall_channel_onEngine (P := fun st ch => ch.engine.log =
          (s.writes.engine st).log) (fun _ => rfl) (Engine.log_raise _) false
      · exact CopyTo.System.forall_channel_onEngine (P := fun st ch => ch.engine.issued =
          (s.writes.engine st).issued) (fun _ => rfl) (Engine.issued_raise _)
          false

end UserSpaceDMA

namespace CopyTo

/-! ### The transfers of a write -/

/-- The place up to which transfers were issued. -/
def reach (c : CopyTo) : ℕ :=
  match c.pc with
  | .count => c.ptrBuffer + c.bttThis
  | _ => c.ptrBuffer

section

variable (t : ℕ) (reply : Reply) (s : Shared) {c : CopyTo}

theorem reach_step_cases :
    (∃ a, ((step t reply s c).1.channel c.stream).engine.issued =
        (s.channel c.stream).engine.issued ++ [c.transfer s t a] ∧ c.reach = c.ptrBuffer ∧
      (step t reply s c).2.reach = c.ptrBuffer + c.bttThis) ∨
    ((step t reply s c).1.channel c.stream).engine.issued =
        (s.channel c.stream).engine.issued ∧ (step t reply s c).2.reach = c.reach := by
  fun_cases step t reply s c <;>
    simp_all [reach, Shared.onChannel, goto, dropBuffer, Engine.issue, Engine.checkForInterrupt]

theorem ptrDevice_step {ptr : DeviceAddress} (hs : c.stream = false)
    (h : c.ptrDevice % 2 ^ 64 = (ptr + c.ptrBuffer) % 2 ^ 64) :
    (step t reply s c).2.ptrDevice % 2 ^ 64 = (ptr + (step t reply s c).2.ptrBuffer) % 2 ^ 64 := by
  fun_cases step t reply s c
  case case15 hpc =>
    simp only [hs, wrappingAdd]
    rw [← add_assoc, Nat.add_mod (ptr + c.ptrBuffer), ← h]
    simp
  all_goals exact h

theorem btt_of_returned_step (hi : c.pc.issuedAll = true → c.btt = 0)
    (h : c.pc = .returned (.ok ()) → c.btt = 0) :
    (step t reply s c).2.pc = .returned (.ok ()) → (step t reply s c).2.btt = 0 := by
  fun_cases step t reply s c <;>
    simp_all [goto, dropBuffer, Pc.issuedAll, Pc.inLastWait]

end

namespace System

/-- **Call `t` writes its data to `ptr`.** Its transfers are those from the `k`-th on; they
follow each other in the data and in the memory of the device. -/
structure Placed (t k : ℕ) (data : List Byte) (ptr : DeviceAddress) (s : System) : Prop where
  call : ∃ c, s.calls[t]? = some c ∧ c.stream = false ∧ c.data = data ∧
    c.ptrDevice % 2 ^ 64 = (ptr + c.ptrBuffer) % 2 ^ 64 ∧
    (c.pc = .returned (.ok ()) → c.btt = 0) ∧
    Tiled 0 ((s.engine false).issued.drop k) c.reach
  le_length : k ≤ (s.engine false).issued.length
  owner : ∀ (i : ℕ) (x : Transfer), (s.engine false).issued[i]? = some x →
    (x.owner = t ↔ k ≤ i)
  device : ∀ x ∈ (s.engine false).issued.drop k,
    x.desc.addrDevice = (ptr + x.offset + devOffset s.shared.isVersal) % 2 ^ 64

variable {t k : ℕ} {data : List Byte} {ptr : DeviceAddress} {s : System}

theorem Placed.onEngine (h : s.Placed t k data ptr) {f : Engine (List Byte) → Engine (List Byte)}
    (hf : ∀ e, (f e).issued = e.issued) : (s.onEngine false f).Placed t k data ptr := by
  have hi : ((s.onEngine false f).engine false).issued =
      (s.engine false).issued :=
    forall_channel_onEngine (P := fun st ch => ch.engine.issued =
      (s.engine st).issued) (fun _ => rfl) (hf _) false
  refine ⟨?_, ?_, ?_, ?_⟩ <;> rw [hi]
  · exact h.call
  · exact h.le_length
  · exact h.owner
  · exact h.device

theorem Placed.move (h : s.Placed t k data ptr) (hw : s.AllWaitable) (m : Move) :
    (s.move t false m).Placed t k data ptr := by
  cases m with
  | caller =>
    obtain ⟨c, hc, hs, hda, hp, hb, ht⟩ := h.call
    rw [System.move, step_of_call hc]
    have hse := getElem?_afterCall_self hc .ok
    have hca : (CopyTo.step t .ok s.shared c).2.stream = false ∧
        (CopyTo.step t .ok s.shared c).2.data = data :=
      ⟨(stream_step t .ok s.shared c).trans hs, (data_step t .ok s.shared c).trans hda⟩
    have hp' := ptrDevice_step t .ok s.shared hs hp
    have hb' := btt_of_returned_step t .ok s.shared
      (hw c (mem_of_getElem? hc)).issuedAll hb
    obtain ⟨a, hi, hr, hr'⟩ | ⟨hi, hr⟩ := reach_step_cases t .ok s.shared (c := c)
    · rw [hs] at hi
      have hd : ((s.engine false).issued ++ [c.transfer s.shared t a]).drop k =
          (s.engine false).issued.drop k ++ [c.transfer s.shared t a] :=
        drop_append_of_le_length h.le_length
      refine ⟨⟨_, hse, hca.1, hca.2, hp', hb', ?_⟩, ?_, ?_, ?_⟩ <;>
        rw [afterCall, hi]
      · rw [hd, hr', ← hr]
        exact ht.concat hr.symm
      · rw [length_append]
        exact h.le_length.trans (Nat.le_add_right _ _)
      · intro i x hx
        obtain ⟨rfl, rfl⟩ | ho := getElem?_concat_cases hx
        · exact iff_of_true rfl h.le_length
        · exact h.owner i x ho
      · rw [hd, isVersal_step]
        intro x hx
        obtain ho | hl := mem_append.mp hx
        · exact h.device x ho
        · rw [mem_singleton.mp hl]
          rw [transfer, scheduleDmaTransfer, wrappingAdd, Nat.add_mod, hp, ← Nat.add_mod]
    · rw [hs] at hi
      refine ⟨⟨_, hse, hca.1, hca.2, hp', hb', ?_⟩, ?_, ?_, ?_⟩ <;>
        rw [afterCall, hi]
      · rw [hr]
        exact ht
      · exact h.le_length
      · exact h.owner
      · rw [isVersal_step]
        exact h.device
  | complete => exact h.onEngine fun e => e.issued_complete _
  | raise => exact h.onEngine Engine.issued_raise

theorem placed_call (ha : s.Awaited) (data : List Byte) (ptr : DeviceAddress) :
    (s.step (.call false data ptr)).Placed s.calls.length
      (s.engine false).issued.length data ptr where
  call := by
    refine ⟨CopyTo.new false data ptr, getElem?_concat_length, rfl, rfl, rfl,
      fun hpc => absurd hpc (by simp [CopyTo.new]), ?_⟩
    rw [step, drop_length]
    rfl
  le_length := le_rfl
  owner i x hx := by
    obtain ⟨c, hc, -⟩ := ha.owner false i x hx
    have how := lt_of_getElem? hc
    have hi : i < (s.engine false).issued.length := lt_of_getElem? hx
    exact iff_of_false (by omega) (by omega)
  device x hx := by
    rw [step, drop_length] at hx
    exact absurd hx not_mem_nil

theorem Placed.ownTransfers_eq (h : s.Placed t k data ptr) :
    ownTransfers t (s.engine false).issued = (s.engine false).issued.drop k := by
  have ho : ((s.engine false).issued.take k).filter
      (fun x => decide (x.owner = t)) = [] := by
    refine filter_eq_nil_iff.mpr fun x hx how => ?_
    obtain ⟨i, hi⟩ := getElem?_of_mem hx
    rw [getElem?_take] at hi
    split at hi
    · have hle := (h.owner i x hi).mp (of_decide_eq_true how)
      omega
    · simp at hi
  have hn : ((s.engine false).issued.drop k).filter
      (fun x => decide (x.owner = t)) = (s.engine false).issued.drop k := by
    refine filter_eq_self.mpr fun x hx => ?_
    obtain ⟨i, hi⟩ := getElem?_of_mem hx
    rw [getElem?_drop] at hi
    exact decide_eq_true ((h.owner (k + i) x hi).mpr (Nat.le_add_right k i))
  rw [ownTransfers]
  nth_rewrite 1 [← take_append_drop k (s.engine false).issued]
  rw [filter_append, ho, hn, nil_append]

end System

end CopyTo

namespace CopyFrom

/-! ### The bytes of a read -/

theorem length_data_step (t : ℕ) (reply : Reply) (s : Shared) (c : CopyFrom) :
    (step t reply s c).2.data.length = c.data.length := by
  fun_cases step t reply s c <;> simp [goto, fail, length_overwrite]

namespace System

/-- **Call `t` reads** `len` bytes at `ptr`, and its transfers find the given memory. -/
structure Fetched (t : ℕ) (ptr : DeviceAddress) (len : ℕ) (memory : ByteMem) (s : System) :
    Prop where
  call : ∃ c, s.calls[t]? = some c ∧ c.stream = false ∧ c.ptr = ptr ∧ c.data.length = len
  log : ∀ (i : ℕ) (x : Transfer) (device : ByteMem),
    (s.engine false).issued[i]? = some x → x.owner = t →
    (s.engine false).log[i]? = some device → device = memory

variable {t len : ℕ} {ptr : DeviceAddress} {memory : ByteMem} {s : System}

theorem Fetched.move (h : s.Fetched t ptr len memory) (hco : s.Counts) (m : Move) :
    (s.move t false memory m).Fetched t ptr len memory := by
  obtain ⟨c, hc, hs, hp, hl⟩ := h.call
  cases m with
  | caller =>
    rw [System.move, step_of_call hc]
    refine ⟨⟨_, getElem?_afterCall_self hc .ok, (stream_step t .ok s.shared c).trans hs,
      (ptr_step t .ok s.shared c).trans hp,
      (length_data_step t .ok s.shared c).trans hl⟩, fun i x device hx ho hd => ?_⟩
    rw [log_afterCall] at hd
    obtain hol | ⟨b, -, -, -, hi, -⟩ := getElem?_issued_cases hx
    · exact h.log i x device hol ho hd
    -- a transfer that was just issued is not completed
    have hlt := lt_of_getElem? hd
    have hle := (hco.inOrder false).done_le
    rw [Engine.done] at hle
    omega
  | complete =>
    obtain heq | ⟨x, hx, heq⟩ := step_complete_cases s false memory <;> rw [System.move, heq]
    · exact h
    refine ⟨⟨c, hc, hs, hp, hl⟩, fun i y device hy ho hd => ?_⟩
    rw [issued_afterEngine (Engine.works_complete _)] at hy
    rw [engine, channel_afterEngine, Function.update_self, Engine.complete, hx] at hd
    obtain ⟨-, rfl⟩ | hol := getElem?_concat_cases hd
    · rfl
    · exact h.log i y device hy ho hol
  | raise =>
    rw [System.move, step_raise]
    refine ⟨⟨c, hc, hs, hp, hl⟩, fun i y device hy ho hd => ?_⟩
    rw [issued_afterEngine Engine.works_raise] at hy
    rw [engine, channel_afterEngine, Function.update_self, Engine.log_raise] at hd
    exact h.log i y device hy ho hd

theorem fetched_call (hn : s.Numbered) (ptr : DeviceAddress) (data : List Byte) (memory : ByteMem) :
    (s.step (.call false ptr data)).Fetched s.calls.length ptr data.length memory where
  call := ⟨CopyFrom.new false ptr data, getElem?_concat_length, rfl, rfl, rfl⟩
  log i x _ hx ho _ := by
    obtain ⟨c, hc, -⟩ := hn.owner false x (mem_of_getElem? hx)
    have hlt := lt_of_getElem? hc
    omega

end System

end CopyFrom

/-- The bytes of a memory at an address of the device. -/
def bytesAt (isVersal : Bool) (memory : ByteMem) (ptr : DeviceAddress) (len : ℕ) : List Byte :=
  (List.range len).map fun k => memory ((ptr + k + devOffset isVersal) % 2 ^ 64)

/-- **The transfers partition the range** of `len` bytes at `ptr`, in ascending order. None is
empty, or longer than its buffer. -/
structure Partition (buffers : List DMABuffer) (isVersal : Bool) (ptr : DeviceAddress) (len : ℕ)
    (xs : List Transfer) : Prop where
  tiled : Tiled 0 xs len
  device : ∀ x ∈ xs, x.desc.addrDevice = (ptr + x.offset + devOffset isVersal) % 2 ^ 64
  bounded : ∀ x ∈ xs,
    0 < x.desc.size ∧ ∃ b ∈ buffers, b.addr = x.desc.addrHost ∧ x.desc.size ≤ b.size

/-- **A read that has returned** has the bytes of the memory. -/
theorem CopyFrom.System.Fetched.returned {bufs : List DMABuffer} {t len : ℕ}
    {ptr : DeviceAddress} {memory : ByteMem} {s : CopyFrom.System}
    (h : s.Fetched t ptr len memory) (hi : s.Inv bufs) (hbo : s.Bounded bufs) (hr : s.Returned t) :
    (∃ c, s.calls[t]? = some c ∧ c.pc = .returned (.ok ()) ∧
        c.data = bytesAt s.shared.isVersal memory ptr len) ∧
      Partition bufs s.shared.isVersal ptr len
        (ownTransfers t (s.engine false).issued) := by
  obtain ⟨c, hc, hs, rfl, rfl⟩ := h.call
  obtain ⟨d, hd, hpc⟩ := hr
  obtain rfl : c = d := Option.mem_unique hc hd
  have hti := hi.tidy c (mem_of_getElem? hc)
  refine ⟨⟨c, hc, hpc, ?_⟩, ?_, ?_, fun x hx => ?_⟩
  · refine ext_getElem? fun k => ?_
    rw [bytesAt, getElem?_map]
    by_cases hk : k < c.data.length
    · obtain ⟨i, x, device, hx, ho, -, -, hde, hb⟩ := (hi.complete hc hpc).bytes k hk
      rw [hs] at hx hde hb
      rw [hb, h.log i x device hx ho hde, getElem?_range hk]
      rfl
    · rw [getElem?_eq_none (not_lt.mp hk),
        getElem?_eq_none (by rw [length_range]; exact not_lt.mp hk)]
      rfl
  · have ht := hi.placed.tiled t c hc
    have hra := hti.inRange
    rw [hti.issuedAll (by rw [hpc]; rfl), add_zero] at hra
    rw [CopyFrom.reach_eq (by simp [hpc]), hra, hs] at ht
    exact ht
  · have hde := hi.placed.device t c hc hs
    rw [hs] at hde
    exact hde
  · exact hbo.issued false x (mem_filter.mp hx).1

/-! ### What holds in every run -/

/-- Bounce buffers as `new` allocates them: at different addresses, at least one, and none of
size 0. -/
structure Usable (buffers : List DMABuffer) : Prop where
  addr : (buffers.map DMABuffer.addr).Nodup
  ne_nil : buffers ≠ []
  size : ∀ b ∈ buffers, 0 < b.size

namespace CopyTo.System

/-- What holds of the writes in every run. -/
structure Sound (buffers : List DMABuffer) (s : System) : Prop where
  inv : s.Inv buffers
  waitable : s.AllWaitable
  bounded : s.Bounded buffers
  lockHeld : s.LockHeld
  lostByFailed : s.LostByFailed

theorem sound_step {bufs : List DMABuffer} (hb : Usable bufs) {s : System}
    (h : s.Sound bufs) (a : Action) : (s.step a).Sound bufs where
  inv := inv_step hb.addr h.inv a
  waitable := allWaitable_step h.waitable h.inv.queued a
  bounded := bounded_step hb.size h.inv.owned h.bounded a
  lockHeld := lockHeld_step h.lockHeld a
  lostByFailed := lostByFailed_step h.lostByFailed a

theorem isVersal_action (s : System) (a : Action) :
    (s.step a).shared.isVersal = s.shared.isVersal :=
  step_rule (P := fun s' => s'.shared.isVersal = s.shared.isVersal) rfl (fun _ _ _ => rfl)
    (fun t reply c _ => isVersal_step t reply s.shared c) (fun _ _ _ => rfl) a

end CopyTo.System

namespace CopyFrom.System

/-- What holds of the reads in every run. -/
structure Sound (buffers : List DMABuffer) (s : System) : Prop where
  inv : s.Inv buffers
  bounded : s.Bounded buffers
  lockHeld : s.LockHeld

theorem sound_step {bufs : List DMABuffer} (hb : Usable bufs) {s : System}
    (h : s.Sound bufs) (a : Action) : (s.step a).Sound bufs where
  inv := inv_step hb.addr h.inv a
  bounded := bounded_step hb.size h.inv.owned h.bounded a
  lockHeld := lockHeld_step h.lockHeld a

theorem isVersal_action (s : System) (a : Action) :
    (s.step a).shared.isVersal = s.shared.isVersal :=
  step_rule (P := fun s' => s'.shared.isVersal = s.shared.isVersal) rfl (fun _ _ _ => rfl)
    (fun t reply c _ => isVersal_step t reply s.shared c) (fun _ _ _ _ => rfl) a

end CopyFrom.System

namespace UserSpaceDMA

/-- What holds in every run. -/
structure Sound (toDev fromDev : List DMABuffer) (s : UserSpaceDMA) : Prop where
  writes : s.writes.Sound toDev
  reads : s.reads.Sound fromDev
  isVersal : s.reads.shared.isVersal = s.writes.shared.isVersal

/-- All calls have returned, without an error. -/
structure Settled (s : UserSpaceDMA) : Prop where
  writes : ∀ c ∈ s.writes.calls, c.pc = .returned (.ok ())
  reads : ∀ c ∈ s.reads.calls, c.pc = .returned (.ok ())

section

variable {toDev fromDev : List DMABuffer} (hto : Usable toDev) (hfrom : Usable fromDev)

include hto hfrom

theorem sound_step {s : UserSpaceDMA} (h : s.Sound toDev fromDev) (a : Action) :
    (s.step a).Sound toDev fromDev := by
  have hw : (s.step a).writes.Sound toDev ∧
      (s.step a).writes.shared.isVersal = s.writes.shared.isVersal := by
    obtain heq | ⟨b, heq⟩ := writes_step_cases s a <;> rw [heq]
    · exact ⟨h.writes, rfl⟩
    · exact ⟨CopyTo.System.sound_step hto h.writes b, CopyTo.System.isVersal_action s.writes b⟩
  have hr : (s.step a).reads.Sound fromDev ∧
      (s.step a).reads.shared.isVersal = s.reads.shared.isVersal := by
    obtain heq | ⟨b, heq⟩ := reads_step_cases s a <;> rw [heq]
    · exact ⟨h.reads, rfl⟩
    · exact ⟨CopyFrom.System.sound_step hfrom h.reads b, CopyFrom.System.isVersal_action s.reads b⟩
  exact ⟨hw.1, hr.1, by rw [hw.2, hr.2, h.isVersal]⟩

theorem sound_new (isVersal : Bool) (mappedTo : ℕ → List Byte) (mappedFrom : ℕ → ByteMem)
    (memory : ByteMem) :
    (new toDev fromDev isVersal mappedTo mappedFrom memory).Sound toDev fromDev where
  writes :=
    { inv := CopyTo.System.inv_new hto.addr isVersal mappedTo
      waitable := fun _ hc => absurd hc not_mem_nil
      bounded := ⟨fun _ hc => absurd hc not_mem_nil, fun _ _ hx => absurd hx not_mem_nil⟩
      lockHeld := fun _ ht => absurd ht (by simp [new, CopyTo.System.new])
      lostByFailed := fun hl => absurd rfl hl }
  reads :=
    { inv := CopyFrom.System.inv_new hfrom.addr isVersal mappedFrom
      bounded := ⟨fun _ hc => absurd hc not_mem_nil, fun _ _ hx => absurd hx not_mem_nil⟩
      lockHeld := fun _ ht => absurd ht (by simp [new, CopyFrom.System.new]) }
  isVersal := rfl

end

section

variable {toDev fromDev : List DMABuffer} {s : UserSpaceDMA} (h : s.Sound toDev fromDev)
  (hsettled : s.Settled)

include h hsettled

theorem Settled.lock_writes : s.writes.shared.lock = none := by
  refine lock_eq_none (f := fun c : CopyTo => c.pc.hasLock) h.writes.lockHeld fun u c hc => ?_
  rw [hsettled.writes c (mem_of_getElem? hc)]
  rfl

theorem Settled.lock_reads : s.reads.shared.lock = none := by
  refine lock_eq_none (f := fun c : CopyFrom => c.pc.hasLock) h.reads.lockHeld fun u c hc => ?_
  rw [hsettled.reads c (mem_of_getElem? hc)]
  rfl

theorem Settled.done_eq (hto : Usable toDev) (st : Bool) :
    (s.writes.engine st).done = (s.writes.engine st).issued.length := by
  refine le_antisymm (h.writes.inv.counts.inOrder st).done_le (not_lt.mp fun hlt => ?_)
  obtain ⟨c, hc, -⟩ := h.writes.inv.awaited.owner st _ _ (getElem?_eq_getElem hlt)
  exact lt_irrefl _ ((h.writes.inv.writeSafe hto.addr).completed st _ _ c
    (getElem?_eq_getElem hlt) hc (hsettled.writes c (mem_of_getElem? hc)))

theorem Settled.single_write (hto : Usable toDev) {data : List Byte}
    (hda : data ≠ [] ∨ (s.writes.engine false).issued ≠ []) (ptr : DeviceAddress) :
    (s.writes.step (.call false data ptr)).Single toDev s.writes.calls.length false := by
  have hs := CopyTo.System.sound_step hto h.writes (.call false data ptr)
  refine ⟨hs.inv, hs.waitable, hs.bounded, hs.lockHeld,
    ⟨CopyTo.new false data ptr, getElem?_concat_length, rfl, fun hn => ?_,
      fun e hpc => absurd hpc (by simp [CopyTo.new])⟩, fun u d hd hut => ?_,
    fun hst => absurd hst Bool.false_ne_true, ?_, fun st _ => ?_⟩
  · exact length_pos_of_ne_nil (hda.resolve_left fun hne => hne hn)
  · obtain ⟨hu, -⟩ | ho := getElem?_concat_cases hd
    · exact absurd hu hut
    · exact ⟨_, hsettled.writes d (mem_of_getElem? ho)⟩
  · by_contra hl
    obtain ⟨c, hc, hf⟩ := h.writes.lostByFailed hl
    rw [hsettled.writes c hc] at hf
    exact absurd hf Bool.false_ne_true
  · exact CopyTo.System.out_eq_nil_of_idle h.writes.inv
      (fun c hc e => by rw [hsettled.writes c hc]; simp) (fun c hc => ⟨_, hsettled.writes c hc⟩) st

theorem Settled.single_read (hfrom : Usable fromDev) (ptr : DeviceAddress) (data : List Byte) :
    (s.reads.step (.call false ptr data)).Single fromDev s.reads.calls.length false := by
  have hs := CopyFrom.System.sound_step hfrom h.reads (.call false ptr data)
  refine ⟨hs.inv, hs.bounded, hs.lockHeld,
    ⟨CopyFrom.new false ptr data, getElem?_concat_length, rfl, rfl, trivial⟩,
    fun u d hd hut => ?_, fun hst => absurd hst Bool.false_ne_true,
    eq_nil_iff_forall_not_mem.mpr fun q hq => ?_⟩
  · obtain ⟨hu, -⟩ | ho := getElem?_concat_cases hd
    · exact absurd hu hut
    · exact hsettled.reads d (mem_of_getElem? ho)
  · obtain ⟨c, hc, hf⟩ := h.reads.inv.lostByFailed q hq
    rw [hsettled.reads c (mem_of_getElem? hc)] at hf
    exact absurd hf Bool.false_ne_true

end

end UserSpaceDMA

/-! ### A call and the engine -/

def Move.write (t : ℕ) : Move → UserSpaceDMA.Action
  | .caller => .write (.step t .ok)
  | .complete => .write (.complete false)
  | .raise => .write (.raise false)

/-- A move while call `t` reads. What the device delivers is up to its memory. -/
def Move.read (t : ℕ) : Move → UserSpaceDMA.Action
  | .caller => .read (.step t .ok)
  | .complete => .read (.complete false fun _ => 0)
  | .raise => .read (.raise false)

namespace UserSpaceDMA

/-- The state after `n` moves of a call of `copy_to`. -/
def writing (s : UserSpaceDMA) (data : List Byte) (ptr : DeviceAddress) (sched : ℕ → Move)
    (n : ℕ) : UserSpaceDMA :=
  Progress.state (fun s' m => s'.step (m.write s.writes.calls.length))
    (s.step (.write (.call false data ptr))) sched n

/-- The state after `n` moves of a call of `copy_from`, with the caller's buffer `data`. -/
def reading (s : UserSpaceDMA) (ptr : DeviceAddress) (data : List Byte) (sched : ℕ → Move)
    (n : ℕ) : UserSpaceDMA :=
  Progress.state (fun s' m => s'.step (m.read s.reads.calls.length))
    (s.step (.read (.call false ptr data))) sched n

/-- **What a write has done**: its transfers partition the range, and the memory has the data there,
and is unchanged elsewhere. -/
structure Written (toDev : List DMABuffer) (data : List Byte) (ptr : DeviceAddress)
    (s₀ s : UserSpaceDMA) : Prop where
  returned : s.writes.Returned s₀.writes.calls.length
  partition : Partition toDev s₀.writes.shared.isVersal ptr data.length
    (ownTransfers s₀.writes.calls.length (s.writes.engine false).issued)
  inside : bytesAt s₀.writes.shared.isVersal s.memory ptr data.length = data
  outside : ∀ a,
    (∀ k < data.length, a ≠ (ptr + k + devOffset s₀.writes.shared.isVersal) % 2 ^ 64) →
      s.memory a = s₀.memory a

/-- **What a read has done**: its transfers partition the range, the caller has the given bytes, and
the memory is unchanged. -/
structure Read (fromDev : List DMABuffer) (ptr : DeviceAddress) (bytes : List Byte)
    (s₀ s : UserSpaceDMA) : Prop where
  returned : ∃ c, s.reads.calls[s₀.reads.calls.length]? = some c ∧ c.pc = .returned (.ok ()) ∧
    c.data = bytes
  partition : Partition fromDev s₀.reads.shared.isVersal ptr bytes.length
    (ownTransfers s₀.reads.calls.length (s.reads.engine false).issued)
  memory : s.memory = s₀.memory

theorem step_write_move {s : UserSpaceDMA} (hl : s.reads.shared.lock = none) (t : ℕ) (m : Move) :
    (s.step (m.write t)).writes = s.writes.move t false m ∧
      (s.step (m.write t)).reads = s.reads := by
  cases m with
  | caller =>
    have hw : s.writeWaits (.step t .ok) = false := by
      rw [writeWaits, hl, Option.isSome_none, Bool.and_false]
    rw [Move.write, step, hw]
    exact ⟨rfl, rfl⟩
  | complete => exact ⟨rfl, rfl⟩
  | raise => exact ⟨rfl, rfl⟩

theorem step_read_move {s : UserSpaceDMA} (hl : s.writes.shared.lock = none) (t : ℕ) (m : Move) :
    s.step (m.read t) = { s with reads := s.reads.move t false s.memory m } := by
  cases m with
  | caller =>
    have hw : s.readWaits (.step t .ok) = false := by
      rw [readWaits, hl, Option.isSome_none, Bool.and_false]
    rw [Move.read, step, hw]
    rfl
  | complete => rfl
  | raise => rfl

/-- What holds while a call writes, where it began in `s₀`. -/
structure Writing (toDev fromDev : List DMABuffer) (s₀ : UserSpaceDMA) (data : List Byte)
    (ptr : DeviceAddress) (s : UserSpaceDMA) : Prop where
  sound : s.Sound toDev fromDev
  reads : s.reads = s₀.reads
  isVersal : s.writes.shared.isVersal = s₀.writes.shared.isVersal
  others : ∀ u d, s.writes.calls[u]? = some d → u ≠ s₀.writes.calls.length →
    d.pc = .returned (.ok ())
  placed : s.writes.Placed s₀.writes.calls.length
    (s₀.writes.engine false).issued.length data ptr
  recorded : s.Recorded s₀.memory (s₀.writes.engine false).issued.length

theorem Writing.written {toDev fromDev : List DMABuffer} (hto : Usable toDev)
    {s₀ : UserSpaceDMA} (hsettled : s₀.Settled) {data : List Byte}
    (hl : data.length ≤ 2 ^ 64) {ptr : DeviceAddress} {s : UserSpaceDMA}
    (hs : Writing toDev fromDev s₀ data ptr s) (hret : s.writes.Returned s₀.writes.calls.length) :
    s.Settled ∧ Written toDev data ptr s₀ s := by
  obtain ⟨c, hc, hst, hda, -, hb, ht⟩ := hs.placed.call
  obtain ⟨d, hd, hpc⟩ := id hret
  obtain rfl : c = d := Option.mem_unique hc hd
  have hn : s.Settled := by
    refine ⟨fun d hd => ?_, by rw [hs.reads]; exact hsettled.reads⟩
    obtain ⟨u, hu⟩ := getElem?_of_mem hd
    by_cases hut : u = s₀.writes.calls.length
    · subst hut
      obtain rfl : c = d := Option.mem_unique hc hu
      exact hpc
    · exact hs.others u d hu hut
  have hre : c.reach = data.length := by
    have hra := (hs.sound.writes.inv.intact.inRange c (mem_of_getElem? hc)).1
    rw [hb hpc, add_zero, hda] at hra
    rw [CopyTo.reach, hpc]
    exact hra
  rw [hre] at ht
  have hde := hs.placed.device
  rw [hs.isVersal] at hde
  -- the log has the pieces of the data
  have hlo : completedSince (s₀.writes.engine false).issued.length
      (s.writes.engine false) =
        ((s.writes.engine false).issued.drop
          (s₀.writes.engine false).issued.length).map
            fun x => (x, slice data x.offset x.desc.size) := by
    have hdon := hn.done_eq hs.sound hto false
    rw [Engine.done] at hdon
    refine zip_eq_map (by rw [length_drop, length_drop, hdon])
      fun i x bytes hx hby => ?_
    rw [getElem?_drop] at hx hby
    have how := (hs.placed.owner _ x hx).mpr (Nat.le_add_right _ i)
    rw [← hda]
    exact hs.sound.writes.inv.intact.moved false _ x c bytes hx hby (by rw [how]; exact hc)
  have hba : (ptr + devOffset s₀.writes.shared.isVersal) % 2 ^ 64 < 2 ^ 64 :=
    Nat.mod_lt _ (by omega)
  have hm : s.memory = stored s₀.memory
      ((ptr + devOffset s₀.writes.shared.isVersal) % 2 ^ 64) data := by
    have hr := replay_tiled s₀.memory hba hl ht le_rfl fun x hx => by
      rw [hde x hx, Nat.mod_add_mod, add_right_comm]
    rw [take_zero, take_length] at hr
    rw [hs.recorded.memory, hlo, ← hr, stored_nil]
  refine ⟨hn, hret, ⟨?_, ?_, fun x hx => ?_⟩, ?_, fun a ha => ?_⟩
  · rw [hs.placed.ownTransfers_eq]
    exact ht
  · rw [hs.placed.ownTransfers_eq]
    exact hde
  · exact hs.sound.writes.bounded.issued false x (mem_filter.mp hx).1
  · refine ext_getElem (by simp [bytesAt]) fun k _ hk => ?_
    simp only [bytesAt, getElem_map, getElem_range]
    rw [hm, add_right_comm]
    exact stored_inside s₀.memory _ hl hk
  · rw [hm]
    refine stored_outside s₀.memory _ fun k hk => ?_
    rw [add_right_comm]
    exact ha k hk

section

variable {toDev fromDev : List DMABuffer} (hto : Usable toDev) (hfrom : Usable fromDev)
  {s₀ : UserSpaceDMA} (h : s₀.Sound toDev fromDev) (hsettled : s₀.Settled)

include hto hfrom h hsettled

theorem writing_spec (data : List Byte) (ptr : DeviceAddress) (sched : ℕ → Move) (n : ℕ) :
    Writing toDev fromDev s₀ data ptr (s₀.writing data ptr sched n) := by
  have hl := hsettled.lock_reads h
  refine Progress.state_invariant (I := Writing toDev fromDev s₀ data ptr) (fun s m hs => ?_) ?_
    sched n
  · obtain ⟨hw, hr⟩ := step_write_move (s := s) (by rw [hs.reads]; exact hl)
      s₀.writes.calls.length m
    refine ⟨sound_step hto hfrom hs.sound _, hr.trans hs.reads, ?_, fun u d hd hut => ?_, ?_,
      recorded_step hs.sound.writes.inv.counts hs.recorded _⟩
    · have hv := (sound_step hto hfrom hs.sound (m.write s₀.writes.calls.length)).isVersal
      rw [← hv, hr, hs.sound.isVersal, hs.isVersal]
    · rw [hw] at hd
      refine hs.others u d ?_ hut
      cases m with
      | caller =>
        rw [CopyTo.System.move] at hd
        obtain heq | ⟨c, -, heq⟩ :=
          CopyTo.System.step_call_cases s.writes s₀.writes.calls.length .ok <;> rw [heq] at hd
        · exact hd
        · rw [CopyTo.System.getElem?_afterCall_of_ne _ _ _ hut] at hd
          exact hd
      | complete => exact hd
      | raise => exact hd
    · rw [hw]
      exact hs.placed.move hs.sound.writes.waitable m
  · refine ⟨sound_step hto hfrom h _, rfl, rfl, fun u d hd hut => ?_,
      CopyTo.System.placed_call h.writes.inv.awaited data ptr, ?_⟩
    · obtain ⟨hu, -⟩ | ho := getElem?_concat_cases hd
      · exact absurd hu hut
      · exact hsettled.writes d (mem_of_getElem? ho)
    · refine ⟨(hsettled.done_eq h hto false).ge, ?_⟩
      have hn : completedSince (s₀.writes.engine false).issued.length
          (s₀.writes.engine false) = [] := by
        rw [completedSince, drop_length, zip_nil_left]
      exact (congrArg (replay s₀.memory) hn).symm

theorem writes_writing (data : List Byte) (ptr : DeviceAddress) (sched : ℕ → Move) (n : ℕ) :
    (s₀.writing data ptr sched n).writes =
      Progress.state (CopyTo.System.move s₀.writes.calls.length false)
        (s₀.writes.step (.call false data ptr)) sched n := by
  induction n with
  | zero => rfl
  | succ n ih =>
    have hr := (writing_spec hto hfrom h hsettled data ptr sched n).reads
    rw [Progress.state, ← ih]
    refine (step_write_move ?_ _ _).1
    exact (congrArg (fun r => r.shared.lock) hr).trans (hsettled.lock_reads h)

/-- **A write of some bytes, or on a channel that was used, does what it should**, under every
fair schedule. -/
theorem write_correct {data : List Byte} (hd : data ≠ [] ∨ (s₀.writes.engine false).issued ≠ [])
    (hl : data.length ≤ 2 ^ 64) (ptr : DeviceAddress) {sched : ℕ → Move}
    (hf : Progress.Fair sched) :
    ∃ n, (s₀.writing data ptr sched n).Sound toDev fromDev ∧
      (s₀.writing data ptr sched n).Settled ∧
      Written toDev data ptr s₀ (s₀.writing data ptr sched n) := by
  obtain ⟨n, hr⟩ := (hsettled.single_write h hto hd ptr).returns hto.addr hto.size hto.ne_nil
    hf
  rw [← writes_writing hto hfrom h hsettled] at hr
  have hw := writing_spec hto hfrom h hsettled data ptr sched n
  exact ⟨n, hw.sound, hw.written hto hsettled hl hr⟩

/-- **A write of no bytes on a channel that was never used** does not return. -/
theorem not_returned_of_empty (hu : (s₀.writes.engine false).issued = [])
    (ptr : DeviceAddress) (sched : ℕ → Move) (n : ℕ) :
    ¬ (s₀.writing [] ptr sched n).writes.Returned s₀.writes.calls.length := by
  rintro ⟨c, hc, hpc⟩
  have hw := writing_spec hto hfrom h hsettled [] ptr sched n
  obtain ⟨d, hd, hs, hda, -, hb, ht⟩ := hw.placed.call
  obtain rfl : c = d := Option.mem_unique hc hd
  have hr := (hw.sound.writes.inv.intact.inRange c (mem_of_getElem? hc)).1
  rw [hda, length_nil] at hr
  rw [CopyTo.reach, hpc, hu, length_nil, drop_zero] at ht
  refine hw.sound.writes.inv.not_returned_of_unused hc ?_ hpc
  rw [hs]
  refine eq_nil_iff_forall_not_mem.mpr fun x hx => ?_
  have hp := (hw.sound.writes.bounded.issued false x hx).1
  have hle := (ht.mem_range hx).2
  simp only at hle
  omega

/-- What holds while a call reads, where it began in `s₀`. -/
structure Reading (toDev fromDev : List DMABuffer) (s₀ : UserSpaceDMA) (ptr : DeviceAddress)
    (len : ℕ) (s : UserSpaceDMA) : Prop where
  sound : s.Sound toDev fromDev
  writes : s.writes = s₀.writes
  memory : s.memory = s₀.memory
  fetched : s.reads.Fetched s₀.reads.calls.length ptr len s₀.memory

theorem reading_spec (ptr : DeviceAddress) (data : List Byte) (sched : ℕ → Move) (n : ℕ) :
    Reading toDev fromDev s₀ ptr data.length (s₀.reading ptr data sched n) := by
  have hl := hsettled.lock_writes h
  refine Progress.state_invariant (I := Reading toDev fromDev s₀ ptr data.length)
    (fun s m hs => ?_) ?_ sched n
  · have heq := step_read_move (s := s) (by rw [hs.writes]; exact hl) s₀.reads.calls.length m
    refine ⟨sound_step hto hfrom hs.sound _, ?_, ?_, ?_⟩ <;> rw [heq]
    · exact hs.writes
    · exact hs.memory
    · rw [hs.memory]
      exact hs.fetched.move hs.sound.reads.inv.counts m
  · exact ⟨sound_step hto hfrom h _, rfl, rfl,
      CopyFrom.System.fetched_call h.reads.inv.numbered ptr data s₀.memory⟩

theorem reads_reading (ptr : DeviceAddress) (data : List Byte) (sched : ℕ → Move) (n : ℕ) :
    (s₀.reading ptr data sched n).reads =
      Progress.state (CopyFrom.System.move s₀.reads.calls.length false s₀.memory)
        (s₀.reads.step (.call false ptr data)) sched n := by
  induction n with
  | zero => rfl
  | succ n ih =>
    have hr := reading_spec hto hfrom h hsettled ptr data sched n
    have hl := (congrArg (fun w => w.shared.lock) hr.writes).trans
      (hsettled.lock_writes h)
    have heq := step_read_move hl s₀.reads.calls.length (sched n)
    rw [hr.memory] at heq
    rw [Progress.state, ← ih]
    exact congrArg UserSpaceDMA.reads heq

/-- **A read returns the bytes of the memory**, under every fair schedule. -/
theorem read_correct (ptr : DeviceAddress) (data : List Byte) {sched : ℕ → Move}
    (hf : Progress.Fair sched) :
    ∃ n, Read fromDev ptr (bytesAt s₀.reads.shared.isVersal s₀.memory ptr data.length) s₀
      (s₀.reading ptr data sched n) := by
  obtain ⟨n, hr⟩ := (hsettled.single_read h hfrom ptr data).returns hfrom.addr hfrom.size
    hfrom.ne_nil s₀.memory hf
  rw [← reads_reading hto hfrom h hsettled] at hr
  have hre := reading_spec hto hfrom h hsettled ptr data sched n
  obtain ⟨hc, hp⟩ := hre.fetched.returned hre.sound.reads.inv
    hre.sound.reads.bounded hr
  have hv : (s₀.reading ptr data sched n).reads.shared.isVersal =
      s₀.reads.shared.isVersal := by
    rw [hre.sound.isVersal, hre.writes, h.isVersal]
  rw [hv] at hc hp
  refine ⟨n, hc, ?_, hre.memory⟩
  rw [bytesAt, length_map, length_range]
  exact hp

end

/-! ### Copying to the device and back -/

section

variable {toDev fromDev : List DMABuffer} (hto : Usable toDev) (hfrom : Usable fromDev)

include hto hfrom

/-- **User-space DMA moves exactly the right bytes.** On a device on which all earlier calls have
returned, under fair schedules: a write partitions its range, returns with the data in memory and
nothing else changed, and a read after it returns the data, exactly if there are data or there was a
write before. A read always partitions its range and returns the bytes of the memory. -/
theorem copies_exact_iff (isVersal : Bool) (mappedTo : ℕ → List Byte) (mappedFrom : ℕ → ByteMem)
    (memory : ByteMem) (actions : List Action) (s₀ : UserSpaceDMA)
    (hs₀ : s₀ = Runs.run step (new toDev fromDev isVersal mappedTo mappedFrom memory) actions)
    (hsettled : s₀.Settled) (data : List Byte) (hlen : data.length ≤ 2 ^ 64)
    (ptr : DeviceAddress) (sched : ℕ → Move) (hfair : Progress.Fair sched) :
    ((∃ n, Written toDev data ptr s₀ (s₀.writing data ptr sched n) ∧
        ∀ old : List Byte, old.length = data.length → ∀ sched', Progress.Fair sched' →
          ∃ m, Read fromDev ptr data (s₀.writing data ptr sched n)
            ((s₀.writing data ptr sched n).reading ptr old sched' m)) ↔
      data ≠ [] ∨ (s₀.writes.shared.channel false).engine.issued ≠ []) ∧
    ∃ m, Read fromDev ptr (bytesAt s₀.reads.shared.isVersal s₀.memory ptr data.length) s₀
      (s₀.reading ptr data sched m) := by
  have hsound : s₀.Sound toDev fromDev := by
    rw [hs₀]
    exact Runs.run_invariant (P := Sound toDev fromDev) (fun s a hs => sound_step hto hfrom hs a)
      (sound_new hto hfrom isVersal mappedTo mappedFrom memory) actions
  refine ⟨⟨?_, fun hdata => ?_⟩, read_correct hto hfrom hsound hsettled ptr data hfair⟩
  · rintro ⟨n, hwritten, -⟩
    by_contra hempty
    rw [not_or, not_not, not_not] at hempty
    obtain ⟨rfl, hunused⟩ := hempty
    exact not_returned_of_empty hto hfrom hsound hsettled hunused ptr sched n hwritten.returned
  · obtain ⟨n, hsound', hsettled', hwritten⟩ :=
      write_correct hto hfrom hsound hsettled hdata hlen ptr hfair
    refine ⟨n, hwritten, fun old hold sched' hfair' => ?_⟩
    obtain ⟨m, hread⟩ := read_correct hto hfrom hsound' hsettled' ptr old hfair'
    have hwriting := writing_spec hto hfrom hsound hsettled data ptr sched n
    rw [hwriting.sound.isVersal, hwriting.isVersal, hold, hwritten.inside] at hread
    exact ⟨m, hread⟩

end

/-- The caller, the engine and its interrupt take turns. -/
def takeTurns (n : ℕ) : Move :=
  if n % 3 = 0 then .caller else if n % 3 = 1 then .complete else .raise

theorem fair_takeTurns : Progress.Fair takeTurns := by
  intro m n
  cases m with
  | caller => exact ⟨3 * n, by omega, by rw [takeTurns, if_pos (by omega)]⟩
  | complete =>
    exact ⟨3 * n + 1, by omega, by rw [takeTurns, if_neg (by omega), if_pos (by omega)]⟩
  | raise =>
    exact ⟨3 * n + 2, by omega, by rw [takeTurns, if_neg (by omega), if_neg (by omega)]⟩

/-- A device with a buffer of two bytes for each direction. -/
def twoByteBuffers : UserSpaceDMA :=
  new [⟨0, 2, 0x1000⟩] [⟨1, 2, 0x2000⟩] false (fun _ => []) (fun _ _ => 0) fun _ => 0

theorem usable_singleton {b : DMABuffer} (hb : 0 < b.size) : Usable [b] :=
  ⟨nodup_singleton _, cons_ne_nil _ _, fun _ hc => mem_singleton.mp hc ▸ hb⟩

theorem settled_twoByteBuffers : twoByteBuffers.Settled :=
  ⟨fun _ hc => absurd hc not_mem_nil, fun _ hc => absurd hc not_mem_nil⟩

/-- Three bytes make it there and back, in two pieces. -/
theorem copies_exact_three_bytes :
    ∃ n, Written [⟨0, 2, 0x1000⟩] [1, 2, 3] 0x40 twoByteBuffers
        (twoByteBuffers.writing [1, 2, 3] 0x40 takeTurns n) ∧
      ∀ old : List Byte, old.length = 3 → ∀ sched', Progress.Fair sched' →
        ∃ m, Read [⟨1, 2, 0x2000⟩] 0x40 [1, 2, 3]
          (twoByteBuffers.writing [1, 2, 3] 0x40 takeTurns n)
          ((twoByteBuffers.writing [1, 2, 3] 0x40 takeTurns n).reading 0x40 old sched' m) :=
  (copies_exact_iff (usable_singleton (b := ⟨0, 2, 0x1000⟩) Nat.zero_lt_two)
    (usable_singleton (b := ⟨1, 2, 0x2000⟩) Nat.zero_lt_two) false (fun _ => []) (fun _ _ => 0)
    (fun _ => 0) [] twoByteBuffers rfl settled_twoByteBuffers [1, 2, 3] (by simp) 0x40 takeTurns
    fair_takeTurns).1.mpr (.inl (cons_ne_nil _ _))

/-- **A write of no bytes on a new device never returns.** -/
theorem empty_write_never_returns :
    twoByteBuffers.Settled ∧ Progress.Fair takeTurns ∧
      ¬ ∃ sched n, (twoByteBuffers.writing [] 0x40 sched n).writes.Returned
        twoByteBuffers.writes.calls.length := by
  refine ⟨settled_twoByteBuffers, fair_takeTurns, ?_⟩
  rintro ⟨sched, n, hret⟩
  have hto := usable_singleton (b := ⟨0, 2, 0x1000⟩) Nat.zero_lt_two
  have hfrom := usable_singleton (b := ⟨1, 2, 0x2000⟩) Nat.zero_lt_two
  exact not_returned_of_empty hto hfrom
    (sound_new hto hfrom false (fun _ => []) (fun _ _ => 0) fun _ => 0) settled_twoByteBuffers rfl
    0x40 sched n hret

end UserSpaceDMA

end Tapasco
