import Tapasco.SystemSteps
import Tapasco.Lib.Ownership

/-!
# Every PE Is in One Place

Whatever the clients of a scheduler do, and however their queue operations interleave,
every PE of the device is in exactly one place, and a PE in the pool of the scheduler is
idle and in the queue of its own type. So the errors that would drop a PE, those of
`release_pe` and of `reset_interrupts`, do not occur.
-/

open Ownership List

open Function

namespace Tapasco.System

open Scheduler

/-- The numbers of the PEs in a place. -/
def held (s : System) (p : Place) : Multiset ℕ :=
  ((s.contents p).map PE.id : Multiset ℕ)

/-- The PE is idle, and no notes are left at it. -/
def Resting (pe : PE) : Prop :=
  pe.active = false ∧ pe.copyBack = none

/-- The place is not a job. -/
def Place.isIdle : Place → Bool
  | .job _ => false
  | _ => true

variable {σ : Type} {entries : List StatusPe} {pe : PE}

/-- What the clients keep track of besides the PEs: a reset takes out PEs of the type it is at, each
type and each handler has a queue, to which the jobs give the PE back, and no call has failed. -/
structure Book (entries : List StatusPe) (s : System) : Prop where
  reset : ∀ r x, s.resets r = some x → ∀ pe ∈ x.removePes, x.types.head? = some pe.typeId
  keys : ∀ e ∈ entries, (s.scheduler.pes e.id).isSome = true
  fresh : ∀ h, s.handlers h = none → (s.singles h).pe = []
  homes : ∀ j slot h, s.jobs j = some slot → slot.home = .single h → s.handlers h ≠ none
  failures : s.failures = []

/-- **The invariant** of the system, for the PEs that the status core lists. -/
structure Inv (entries : List StatusPe) (s : System) : Prop where
  exactlyOne : ExactlyOne {i | i < entries.length} s.held
  known : ∀ p, ∀ pe ∈ s.contents p, entries[pe.id]?.map StatusPe.id = some pe.typeId
  pool : ∀ t, ∀ pe ∈ s.contents (.pool t), pe.typeId = t
  resting : ∀ p, p.isIdle = true → ∀ pe ∈ s.contents p, Resting pe
  book : Book entries s

/-! ### The book after an update -/

section

variable {s : System} (hbook : Book entries s)

include hbook

theorem Book.setPool (t : PEId) (l : List PE) : Book entries (s.setPool t l) := by
  refine ⟨hbook.reset, fun e he => ?_, hbook.fresh, hbook.homes, hbook.failures⟩
  by_cases ht : e.id = t
  · subst ht
    simp
  · rw [pes_setPool, update_of_ne ht]
    exact hbook.keys e he

theorem Book.setJob {slot : JobSlot} (j : ℕ)
    (hh : ∀ h, slot.home = .single h → s.handlers h ≠ none) : Book entries (s.setJob j slot) := by
  refine ⟨hbook.reset, hbook.keys, hbook.fresh, fun j' slot' h hj' => ?_, hbook.failures⟩
  by_cases hj : j' = j
  · subst hj
    rw [jobs_setJob, update_self, Option.some.injEq] at hj'
    subst hj'
    exact hh h
  · rw [jobs_setJob, update_of_ne hj] at hj'
    exact hbook.homes j' slot' h hj'

theorem Book.setSingle {h : ℕ} (q : SinglePEScheduler) (hh : s.handlers h ≠ none) :
    Book entries (s.setSingle h q) := by
  refine ⟨hbook.reset, hbook.keys, fun h' hn => ?_, hbook.homes, hbook.failures⟩
  have hne : h' ≠ h := fun heq => hh (heq ▸ hn)
  rw [singles_setSingle, update_of_ne hne]
  exact hbook.fresh h' hn

theorem Book.setHandler (h : ℕ) (hd : SinglePEHandler) : Book entries (s.setHandler h hd) := by
  have hs : ∀ h', (s.setHandler h hd).handlers h' = none → s.handlers h' = none := by
    intro h' hn
    by_cases heq : h' = h
    · subst heq
      rw [handlers_setHandler, update_self] at hn
      simp at hn
    · rwa [handlers_setHandler, update_of_ne heq] at hn
  exact ⟨hbook.reset, hbook.keys, fun h' hn => hbook.fresh h' (hs h' hn),
    fun j slot h' hj hh hn => hbook.homes j slot h' hj hh (hs h' hn),
    hbook.failures⟩

theorem Book.setReset (r : ℕ) {x : Option Reset}
    (hx : ∀ x' ∈ x, ∀ pe ∈ x'.removePes, x'.types.head? = some pe.typeId) :
    Book entries (s.setReset r x) := by
  refine ⟨fun r' x' hr' => ?_, hbook.keys, hbook.fresh, hbook.homes, hbook.failures⟩
  by_cases hr : r' = r
  · subst hr
    rw [resets_setReset, update_self] at hr'
    exact hx x' hr'
  · rw [resets_setReset, update_of_ne hr] at hr'
    exact hbook.reset r' x' hr'

end

/-! ### Moving a PE -/

/-- A PE goes from one place to another. -/
structure Moves (s s' : System) (p q : Place) (pe pe' : PE) : Prop where
  ne : p ≠ q
  source : (s.contents p).Perm (pe :: s'.contents p)
  target : (s'.contents q).Perm (pe' :: s.contents q)
  other : ∀ r, r ≠ p → r ≠ q → s'.contents r = s.contents r
  ident : pe'.ident = pe.ident

theorem id_eq_of_ident {pe' : PE} (h : pe'.ident = pe.ident) : pe'.id = pe.id :=
  congrArg Prod.fst h

theorem typeId_eq_of_ident {pe' : PE} (h : pe'.ident = pe.ident) : pe'.typeId = pe.typeId :=
  congrArg Prod.snd h

variable {s : System} {accepts : ℕ → Bool} {svmInUse : Bool}

theorem Inv.move {s' : System} (h : Inv entries s) {p q : Place} {pe' : PE}
    (hm : Moves s s' p q pe pe') (hbook : Book entries s') (hpo : ∀ t, q = .pool t → pe.typeId = t)
    (hre : q.isIdle = true → Resting pe') : Inv entries s' := by
  have hi := id_eq_of_ident hm.ident
  have ht := typeId_eq_of_ident hm.ident
  have hpe : pe ∈ s.contents p := hm.source.symm.subset mem_cons_self
  -- a PE in a place after the action was there before, or is the one that moved
  have hc : ∀ r, ∀ b ∈ s'.contents r, b ∈ s.contents r ∨ r = q ∧ b = pe' := by
    intro r b hb
    by_cases hrq : r = q
    · subst hrq
      rcases mem_cons.mp (hm.target.subset hb) with rfl | hb
      · exact .inr ⟨rfl, rfl⟩
      · exact .inl hb
    by_cases hrp : r = p
    · subst hrp
      exact .inl (hm.source.symm.subset (mem_cons_of_mem pe hb))
    · rw [hm.other r hrp hrq] at hb
      exact .inl hb
  refine ⟨?_, ?_, ?_, ?_, hbook⟩
  · refine h.exactlyOne.move (t := pe.id) hm.ne ?_ ?_ fun r hrp hrq => ?_
    · exact Multiset.coe_eq_coe.mpr (hm.source.map PE.id)
    · have hp := hm.target.map PE.id
      rw [map_cons, hi] at hp
      exact Multiset.coe_eq_coe.mpr hp
    · rw [held, held, hm.other r hrp hrq]
  · intro r b hb
    rcases hc r b hb with ho | ⟨-, rfl⟩
    · exact h.known r b ho
    · rw [hi, ht]
      exact h.known p pe hpe
  · intro t b hb
    rcases hc (.pool t) b hb with ho | ⟨hq, rfl⟩
    · exact h.pool t b ho
    · rw [ht]
      exact hpo t hq.symm
  · intro r hr b hb
    rcases hc r b hb with ho | ⟨rfl, rfl⟩
    · exact h.resting r hr b ho
    · exact hre hr

/-- **An action that moves no PE** keeps the invariant: it may only change a PE inside of
its job. -/
theorem Inv.same {s' : System} (h : Inv entries s)
    (hi : ∀ p, (s'.contents p).map PE.ident = (s.contents p).map PE.ident)
    (hid : ∀ p, p.isIdle = true → s'.contents p = s.contents p) (hbook : Book entries s') :
    Inv entries s' := by
  have hids : ∀ p, (s'.contents p).map PE.id = (s.contents p).map PE.id := fun p => by
    have hf := congrArg (List.map Prod.fst) (hi p)
    rwa [map_map, map_map] at hf
  refine ⟨?_, ?_, ?_, ?_, hbook⟩
  · have hh : s'.held = s.held := funext fun p => congrArg _ (hids p)
    rw [hh]
    exact h.exactlyOne
  · intro p pe hpe
    have hm : pe.ident ∈ (s.contents p).map PE.ident := hi p ▸ mem_map_of_mem hpe
    obtain ⟨b, hb, heq⟩ := mem_map.mp hm
    rw [← id_eq_of_ident heq, ← typeId_eq_of_ident heq]
    exact h.known p b hb
  · intro t pe hpe
    rw [hid (.pool t) rfl] at hpe
    exact h.pool t pe hpe
  · intro p hp pe hpe
    rw [hid p hp] at hpe
    exact h.resting p hp pe hpe

theorem moves_of_update {s' : System} {p q : Place} (hne : p ≠ q) {l l' : List PE} {pe' : PE}
    (h : s'.contents = update (update s.contents p l) q l') (hp : (s.contents p).Perm (pe :: l))
    (hq : l'.Perm (pe' :: s.contents q)) (hi : pe'.ident = pe.ident) : Moves s s' p q pe pe' := by
  refine ⟨hne, ?_, ?_, fun r hr hrq => ?_, hi⟩
  · rw [h, update_of_ne hne, update_self]
    exact hp
  · rw [h, update_self]
    exact hq
  · rw [h, update_of_ne hrq, update_of_ne hr]

theorem Inv.same_job (h : Inv entries s) {j : ℕ} {slot slot' : JobSlot} (hj : s.jobs j = some slot)
    (hi : slot'.pe.map PE.ident = slot.pe.map PE.ident)
    (hbook : Book entries (s.setJob j slot')) : Inv entries (s.setJob j slot') := by
  have hl : slot'.pe.toList.map PE.ident = (s.contents (.job j)).map PE.ident := by
    rw [← Option.toList_map, hi]
    simp [contents, hj, Option.toList_map]
  refine h.same (fun p => ?_) (fun p hp => ?_) hbook
  · rw [contents_setJob]
    by_cases hpj : p = .job j
    · subst hpj
      rw [update_self, hl]
    · rw [update_of_ne hpj]
  · rw [contents_setJob, update_of_ne]
    rintro rfl
    exact absurd hp (by simp [Place.isIdle])

/-! ### The actions -/

section

variable {s : System} (h : Inv entries s)

include h

theorem Inv.isSome_pes {p : Place} (hp : pe ∈ s.contents p) :
    (s.scheduler.pes pe.typeId).isSome = true := by
  obtain ⟨e, he, hi⟩ := Option.map_eq_some_iff.mp (h.known p pe hp)
  rw [← hi]
  exact h.book.keys e (mem_of_getElem? he)

theorem Inv.jobsKnown : s.JobsKnown := fun j slot pe hj hp =>
  h.isSome_pes (p := .job j) (by simp [contents, hj, hp])

theorem Inv.of_contents_eq {s' : System} (hc : s'.contents = s.contents)
    (hbook : Book entries s') : Inv entries s' :=
  h.same (fun p => by rw [hc]) (fun p _ => by rw [hc]) hbook

theorem Inv.outstanding_eq (l : List (ℕ × CopyBack)) : Inv entries { s with outstanding := l } :=
  h.of_contents_eq rfl ⟨h.book.reset, h.book.keys, h.book.fresh, h.book.homes, h.book.failures⟩

theorem inv_acquirePe (t : PEId) (j : ℕ) : Inv entries (s.acquirePe t j) := by
  rcases acquirePe_cases s t j with heq | ⟨pe, l, hj, hl, heq⟩
  · rwa [heq]
  rw [heq]
  have hc : ((s.setPool t l).setJob j ⟨some pe, .main, [], 0⟩).contents =
      update (update s.contents (.pool t) l) (.job j) [pe] := by
    rw [contents_setJob, contents_setPool]
    rfl
  have he : s.contents (.job j) = [] := by simp [contents, hj]
  refine h.move (moves_of_update (by simp) hc (.of_eq hl) (.of_eq (by rw [he])) rfl) ?_
    (by simp) (by simp [Place.isIdle])
  exact (h.book.setPool t l).setJob j (by simp)

theorem inv_acquireSinglePe (t : PEId) (hd : ℕ) : Inv entries (s.acquireSinglePe t hd) := by
  rcases acquireSinglePe_cases s t hd with heq | ⟨pe, l, hn, hl, heq⟩
  · rwa [heq]
  rw [heq]
  have he : s.contents (.handler hd) = [] := h.book.fresh hd hn
  have hh : s.contents (.handlerRelease hd) = [] := by simp [contents, hn]
  have hc : (((s.setPool t l).setSingle hd (SinglePEScheduler.new pe)).setHandler hd
      .inUse).contents =
      update (update s.contents (.pool t) l) (.handler hd) [pe] := by
    rw [contents_setHandler, contents_setSingle, contents_setPool]
    refine update_eq_self_iff.mpr ?_
    rw [update_of_ne (by simp), update_of_ne (by simp), hh]
    rfl
  have hr := h.resting (.pool t) rfl pe (hl ▸ mem_cons_self)
  refine h.move (moves_of_update (by simp) hc (.of_eq hl) (.of_eq (by rw [he])) rfl) ?_
    (by simp) (fun _ => hr)
  exact ((h.book.setPool t l).setHandler hd .inUse).setSingle _ (by simp)

theorem inv_createJob (hd j : ℕ) : Inv entries (s.createJob hd j) := by
  rcases createJob_cases s hd j with heq | ⟨pe, q, hj, hh, hq, heq⟩
  · rwa [heq]
  rw [heq]
  have he : s.contents (.job j) = [] := by simp [contents, hj]
  have hc : ((s.setSingle hd q).setJob j ⟨some pe, .single hd, [], 0⟩).contents =
      update (update s.contents (.handler hd) q.pe) (.job j) [pe] := by
    rw [contents_setJob, contents_setSingle]
    rfl
  have hs : s.handlers hd ≠ none := by simp [hh]
  refine h.move (moves_of_update (by simp) hc (.of_eq hq) (.of_eq (by rw [he])) rfl) ?_
    (by simp) (by simp [Place.isIdle])
  refine (h.book.setSingle q hs).setJob j fun h' hh' => ?_
  obtain rfl : hd = h' := Home.single.inj hh'
  exact hs

theorem inv_releaseHandler (hd : ℕ) : Inv entries (s.releaseHandler hd) := by
  rcases releaseHandler_cases s hd with heq | ⟨hh, heq⟩
  · rwa [heq]
  rw [heq]
  refine h.of_contents_eq ?_ (h.book.setHandler hd .taking)
  rw [contents_setHandler]
  refine update_eq_self_iff.mpr ?_
  simp [contents, hh, inHands]

theorem inv_takeFromHandler (hd : ℕ) : Inv entries (s.takeFromHandler hd) := by
  rcases takeFromHandler_cases s hd with heq | ⟨pe, q, hh, hq, heq⟩
  · rwa [heq]
  rw [heq]
  have he : s.contents (.handlerRelease hd) = [] := by simp [contents, hh, inHands]
  have hc : ((s.setSingle hd q).setHandler hd (.putting pe)).contents =
      update (update s.contents (.handler hd) q.pe) (.handlerRelease hd)
        [pe] := by
    rw [contents_setHandler, contents_setSingle]
    rfl
  have hr := h.resting (.handler hd) rfl pe (hq ▸ mem_cons_self)
  refine h.move (moves_of_update (by simp) hc (.of_eq hq) (.of_eq (by rw [he])) rfl) ?_
    (by simp) (fun _ => hr)
  exact (h.book.setSingle q (by simp [hh])).setHandler hd (.putting pe)

theorem Inv.putting {hd : ℕ} (hh : s.handlers hd = some (.putting pe)) :
    Resting pe ∧ (s.scheduler.pes pe.typeId).isSome = true := by
  have hm : pe ∈ s.contents (.handlerRelease hd) := by simp [contents, hh, inHands]
  exact ⟨h.resting (.handlerRelease hd) rfl pe hm, h.isSome_pes hm⟩

theorem inv_putFromHandler (hd : ℕ) : Inv entries (s.putFromHandler hd) := by
  rcases putFromHandler_cases s hd fun pe hh => ⟨(h.putting hh).1.1, (h.putting hh).2⟩ with
    heq | ⟨pe, hh, heq⟩
  · rwa [heq]
  rw [heq]
  have hc : ((s.setPool pe.typeId (s.contents (.pool pe.typeId) ++ [pe])).setHandler hd
      .done).contents = update (update s.contents (.handlerRelease hd) [])
        (.pool pe.typeId) (s.contents (.pool pe.typeId) ++ [pe]) := by
    rw [contents_setHandler, contents_setPool, update_comm (by simp)]
    rfl
  have hha : s.contents (.handlerRelease hd) = [pe] := by simp [contents, hh, inHands]
  refine h.move (moves_of_update (by simp) hc (.of_eq hha)
    (perm_append_singleton pe _) rfl) ?_ (by simp) (fun _ => (h.putting hh).1)
  exact (h.book.setPool _ _).setHandler hd .done

theorem inv_start [Allocator σ] (j : ℕ) (args : List PEParameter) (w : World σ) :
    Inv entries (s.start j args w) := by
  rcases start_cases s j args w with heq | ⟨slot, pe, hj, hi, heq⟩
  · rwa [heq]
  rw [heq]
  refine h.same_job hj hi (h.book.setJob j fun h' hh' => h.book.homes j slot h' hj hh')

theorem inv_handedOver {j : ℕ} {slot : JobSlot} (hj : s.jobs j = some slot) (hp : slot.pe = some pe)
    (rp : Bool) : Inv entries (s.handedOver j slot pe rp) := by
  have hjo : s.contents (.job j) = [pe] := by simp [contents, hj, hp]
  have hh := h.book.homes j slot
  have hr : Resting pe.rested := ⟨rfl, rfl⟩
  replace h : Inv entries (s.owe pe.id (pe.copyBack.getD [])) := h.outstanding_eq _
  rw [handedOver]
  cases rp with
  | false => exact h.same_job hj (by rw [hp]; rfl) (h.book.setJob j fun h' => hh h' hj)
  | true =>
    cases hs : slot.home with
    | main =>
      refine h.move (p := .job j) (q := .pool pe.typeId) (moves_of_update (by simp) ?_
        (.of_eq hjo) (perm_append_singleton pe.rested _) rfl) ?_ (by simp)
        (fun _ => hr)
      · simp only [if_true, contents_setJob, contents_setPool]
        exact update_comm (by simp) _ _ _
      · exact (h.book.setPool _ _).setJob j fun h' hh' => hh h' hj (hs.trans hh')
    | single hd =>
      refine h.move (p := .job j) (q := .handler hd) (moves_of_update (by simp) ?_
        (.of_eq hjo) (perm_append_singleton pe.rested _) rfl) ?_ (by simp)
        (fun _ => hr)
      · simp only [if_true, contents_setJob, contents_setSingle]
        exact update_comm (by simp) _ _ _
      · exact (h.book.setSingle _ (hh hd hj hs)).setJob j fun h' hh' =>
          hh h' hj (hs.trans hh')

theorem inv_released {j : ℕ} {rp : Bool} {s' : System} (hr : s.Released j rp s') :
    Inv entries s' := by
  obtain rfl | ⟨slot, pe, hj, hp, rfl⟩ := hr
  · exact h
  · exact inv_handedOver h hj hp rp

theorem inv_copyBack [Allocator σ] (j : ℕ) (w : World σ) : Inv entries (s.copyBack j w) := by
  rcases copyBack_cases s j w with heq | ⟨slot, note, rest, hj, -, heq | heq⟩
  · rwa [heq]
  · rw [heq]
    have hn := h.outstanding_eq (s.outstanding.erase (slot.notesOf, note))
    exact hn.same_job hj rfl (hn.book.setJob j fun h' => hn.book.homes j slot h' hj)
  · rw [heq]
    exact h.same_job hj rfl (h.book.setJob j fun h' => h.book.homes j slot h' hj)

theorem Inv.setReset_of_eq {r : ℕ} {x : Option Reset}
    (hs : x.elim [] Reset.removePes = s.contents (.reset r))
    (hx : ∀ x' ∈ x, ∀ pe ∈ x'.removePes, x'.types.head? = some pe.typeId) :
    Inv entries (s.setReset r x) := by
  refine h.of_contents_eq ?_ (h.book.setReset r hx)
  rw [contents_setReset]
  exact update_eq_self_iff.mpr hs

theorem inv_resetInterrupts (r : ℕ) (order : List PEId) :
    Inv entries (s.resetInterrupts r order) := by
  rcases resetInterrupts_cases s r order with heq | ⟨hr, heq⟩
  · rwa [heq]
  · rw [heq]
    exact h.setReset_of_eq (by simp [contents, hr]) (by simp)

theorem inv_resetSteal (r : ℕ) (retry : Bool) (regs : ByteMem) :
    Inv entries (s.resetSteal r retry regs) := by
  rcases resetSteal_cases s r retry regs (fun t pe hp => (h.resting (.pool t) rfl pe hp).1)
    with heq | ⟨t, ts, removePes, hr, heq | ⟨pe, l, hl, heq⟩⟩
  · rwa [heq]
  · rw [heq]
    refine h.setReset_of_eq (by simp [contents, hr]) ?_
    rintro x' ⟨⟩
    exact fun b hb => h.book.reset r _ hr b hb
  · rw [heq]
    have hc :
        ((s.setPool t l).setReset r (some ⟨t :: ts, removePes ++ [pe], true⟩)).contents =
        update (update s.contents (.pool t) l) (.reset r)
          (s.contents (.reset r) ++ [pe]) := by
      rw [contents_setReset, contents_setPool]
      simp [contents, hr]
    have hm : pe ∈ s.contents (.pool t) := hl ▸ mem_cons_self
    refine h.move (moves_of_update (by simp) hc (.of_eq hl)
      (perm_append_singleton pe _) rfl) ?_ (by simp) (fun _ => h.resting (.pool t) rfl pe hm)
    refine (h.book.setPool t l).setReset r ?_
    rintro x' ⟨⟩ b hb
    rcases mem_append.mp hb with ho | hn
    · exact h.book.reset r _ hr b ho
    · rw [mem_singleton.mp hn, h.pool t pe hm]
      rfl

theorem inv_resetReturn (r : ℕ) : Inv entries (s.resetReturn r) := by
  rcases resetReturn_cases s r with
    heq | ⟨t, ts, pe, removePes, hr, heq⟩ | ⟨t, ts, hr, heq⟩ | ⟨removePes, draining, hr, heq⟩
  · rwa [heq]
  · rw [heq]
    have hre : s.contents (.reset r) = pe :: removePes := by simp [contents, hr]
    have ht : t = pe.typeId := Option.some.inj (h.book.reset r _ hr pe mem_cons_self)
    have hc : ((s.setPool t (s.contents (.pool t) ++ [pe])).setReset r
        (some ⟨t :: ts, removePes, false⟩)).contents =
        update (update s.contents (.reset r) removePes) (.pool t)
          (s.contents (.pool t) ++ [pe]) := by
      rw [contents_setReset, contents_setPool, update_comm (by simp)]
      rfl
    refine h.move (moves_of_update (by simp) hc (.of_eq hre)
      (perm_append_singleton pe _) rfl) ?_ (fun t' ht' => ?_)
      (fun _ => h.resting (.reset r) rfl pe (hre ▸ mem_cons_self))
    · refine (h.book.setPool _ _).setReset r ?_
      rintro x' ⟨⟩ b hb
      exact h.book.reset r _ hr b (mem_cons_of_mem pe hb)
    · rw [← ht]
      exact Place.pool.inj ht'
  · rw [heq]
    exact h.setReset_of_eq (by simp [contents, hr]) (by simp)
  · rw [heq]
    have hn : removePes = [] := by
      cases removePes with
      | nil => rfl
      | cons pe l => exact absurd (h.book.reset r _ hr pe mem_cons_self) (by simp)
    exact h.setReset_of_eq (by simp [contents, hr, hn]) (by simp)

theorem inv_step [Allocator σ] (a : Action σ) : Inv entries (s.step a) := by
  cases a with
  | acquirePe id j => exact inv_acquirePe h id j
  | acquireSinglePe id hd => exact inv_acquireSinglePe h id hd
  | createJob hd j => exact inv_createJob h hd j
  | releaseHandler hd => exact inv_releaseHandler h hd
  | takeFromHandler hd => exact inv_takeFromHandler h hd
  | putFromHandler hd => exact inv_putFromHandler h hd
  | start j args w => exact inv_start h j args w
  | release j irq releasePe returnValue w =>
    exact inv_released h (released_release h.jobsKnown j irq releasePe returnValue w)
  | tryRelease j irq releasePe returnValue w =>
    exact inv_released h (released_tryRelease h.jobsKnown j irq releasePe returnValue w)
  | drop j irq w => exact inv_released h (released_release h.jobsKnown j irq true false w)
  | copyBack j w => exact inv_copyBack h j w
  | resetInterrupts r order => exact inv_resetInterrupts h r order
  | resetSteal r retry registers => exact inv_resetSteal h r retry registers
  | resetReturn r => exact inv_resetReturn h r

end

/-! ### The initial state -/

theorem book_init {sch : Scheduler} (hk : ∀ e ∈ entries, (sch.pes e.id).isSome = true) :
    Book entries (init sch) := by
  refine ⟨fun r x hx => ?_, hk, fun h _ => rfl, fun j slot h hj => ?_, rfl⟩
  · exact absurd hx (by simp [init])
  · exact absurd hj (by simp [init])

theorem inv_nil : Inv [] (init ⟨fun _ => none, fun _ => none, []⟩) := by
  have he : ∀ p, (init ⟨fun _ => none, fun _ => none, []⟩).contents p = [] := by
    intro p
    cases p <;> rfl
  refine ⟨⟨fun i hi => ?_, fun p i hi => ?_⟩, fun p pe hp => ?_, fun t pe hp => ?_,
    fun p _ pe hp => ?_, book_init (by simp)⟩
  · simp at hi
  · rw [held, he p] at hi
    simp at hi
  · exact absurd hp (by simp [he])
  · exact absurd hp (by simp [he])
  · exact absurd hp (by simp [he])

theorem addPe_eq_ok {i : ℕ} {entry : StatusPe} {st st' : Scheduler.Setup}
    (ha : addPe accepts svmInUse i entry st = .ok st') :
    ∃ pe : PE, pe.ident = (i, entry.id) ∧ Resting pe ∧
      st'.scheduler.pes = (st.scheduler.push entry.id pe).pes := by
  rw [addPe] at ha
  split at ha
  · rw [Except.ok.injEq] at ha
    refine ⟨_, ?_, ?_, (congrArg (fun x => x.scheduler.pes) ha).symm⟩
    · cases entry.localMemory <;> rfl
    · cases entry.localMemory <;> exact ⟨rfl, rfl⟩
  · simp at ha

theorem inv_addPe {entry : StatusPe} {st st' : Scheduler.Setup}
    (h : Inv entries (init st.scheduler))
    (ha : addPe accepts svmInUse entries.length entry st = .ok st') :
    Inv (entries ++ [entry]) (init st'.scheduler) := by
  obtain ⟨pe, hi, hr, hpe⟩ := addPe_eq_ok ha
  have hid : pe.id = entries.length := congrArg Prod.fst hi
  have hty : pe.typeId = entry.id := congrArg Prod.snd hi
  have hco : (init st'.scheduler).contents =
      update (init st.scheduler).contents (.pool entry.id)
        ((init st.scheduler).contents (.pool entry.id) ++ [pe]) := by
    rw [← contents_setPool]
    funext p
    cases p with
    | pool t => exact congrArg (fun f => (f t).getD []) hpe
    | _ => rfl
  -- a PE that is there afterwards was there before, or is the new one
  have hc : ∀ p, ∀ b ∈ (init st'.scheduler).contents p,
      b ∈ (init st.scheduler).contents p ∨ p = .pool entry.id ∧ b = pe := by
    intro p b hb
    rw [hco] at hb
    by_cases hp : p = .pool entry.id
    · subst hp
      rw [update_self, mem_append, mem_singleton] at hb
      exact hb.imp id fun hb => ⟨rfl, hb⟩
    · rw [update_of_ne hp] at hb
      exact .inl hb
  refine ⟨?_, fun p b hb => ?_, fun t b hb => ?_, fun p hp b hb => ?_, book_init fun e he => ?_⟩
  · have htok : {i | i < (entries ++ [entry]).length} =
        insert entries.length {i | i < entries.length} := by
      ext i
      simp only [length_append, length_singleton, Set.mem_ofPred_eq, Set.mem_insert_iff]
      omega
    rw [htok]
    refine h.exactlyOne.insert (p := .pool entry.id) (by simp) ?_ fun q hq => ?_
    · rw [held, held, hco, update_self, ← hid]
      exact Multiset.coe_eq_coe.mpr ((perm_append_singleton pe _).map PE.id)
    · rw [held, held, hco, update_of_ne hq]
  · rcases hc p b hb with ho | ⟨-, rfl⟩
    · have hk := h.known p b ho
      obtain ⟨e, he, hm⟩ := Option.map_eq_some_iff.mp hk
      rw [getElem?_append_left (List.getElem?_eq_some_iff.mp he).1]
      exact hk
    · rw [hid, hty, getElem?_concat_length, Option.map_some]
  · rcases hc (.pool t) b hb with ho | ⟨ht, rfl⟩
    · exact h.pool t b ho
    · rw [hty]
      exact (Place.pool.inj ht).symm
  · rcases hc p b hb with ho | ⟨-, rfl⟩
    · exact h.resting p hp b ho
    · exact hr
  · rw [hpe]
    rcases mem_append.mp he with ho | hn
    · exact (h.book.setPool entry.id _).keys e ho
    · rw [mem_singleton.mp hn]
      simp [push]

theorem inv_addPes {rest : List StatusPe} {st st' : Scheduler.Setup}
    (h : Inv entries (init st.scheduler))
    (ha : addPes accepts svmInUse entries.length rest st = .ok st') :
    Inv (entries ++ rest) (init st'.scheduler) := by
  induction rest generalizing entries st with
  | nil =>
    rw [addPes, Except.ok.injEq] at ha
    rwa [append_nil, ← ha]
  | cons entry rest ih =>
    rw [addPes] at ha
    match ho : addPe accepts svmInUse entries.length entry st with
    | .error e =>
      rw [ho] at ha
      simp at ha
    | .ok st₁ =>
      rw [ho] at ha
      have hr := ih (inv_addPe h ho)
        (by rwa [length_append])
      rwa [append_assoc] at hr

theorem inv_init {localMemories : List MemId} {isPcie : Bool} {sch : Scheduler}
    (hn : new entries localMemories accepts isPcie svmInUse = .ok sch) :
    Inv entries (init sch) := by
  rw [new] at hn
  split at hn
  · rename_i st hs
    rw [Except.ok.injEq] at hn
    rw [← hn]
    have ha : Inv ([] ++ entries) (init st.scheduler) := inv_addPes inv_nil hs
    exact ha
  · simp at hn

/-! ### Runs -/

theorem inv_of_mem_trace [Allocator σ] {s₀ : System} (h : Inv entries s₀)
    {actions : List (Action σ)} (hs : s ∈ Runs.trace step s₀ actions) : Inv entries s :=
  Runs.forall_mem_trace (P := Inv entries) (fun _ a h => inv_step h a) h actions s hs

/-- **PE ownership.** In every state of every run each PE is in exactly one place, once: the pool, a
job, a single-PE handler, or a call of `reset_interrupts` or of a handler's `release_pe`. It keeps
its type, in the pool it is under this type and idle, and neither `release_pe` nor
`reset_interrupts` has failed. -/
theorem ownership_of_mem_trace [Allocator σ] {localMemories : List MemId} {accepts : ℕ → Bool}
    {isPcie svmInUse : Bool} {scheduler : Scheduler}
    (hnew : new entries localMemories accepts isPcie svmInUse = .ok scheduler)
    (actions : List (Action σ)) :
    ∀ s ∈ Runs.trace step (init scheduler) actions,
      (∀ i < entries.length, ∃ p, (s.held p).count i = 1 ∧ ∀ q, q ≠ p → i ∉ s.held q) ∧
      (∀ p, ∀ pe ∈ s.contents p, entries[pe.id]?.map StatusPe.id = some pe.typeId) ∧
      (∀ t, ∀ pe ∈ s.contents (.pool t), pe.typeId = t ∧ pe.active = false) ∧ s.failures = [] := by
  intro s hs
  have hinv : Inv entries s := inv_of_mem_trace (inv_init hnew) hs
  exact ⟨hinv.exactlyOne.unique, hinv.known,
    fun t pe hpe => ⟨hinv.pool t pe hpe, (hinv.resting (.pool t) rfl pe hpe).1⟩,
    hinv.book.failures⟩

/-- The status core of a device with two PEs, the second with a local memory and a
published interrupt. -/
def twoPes : List StatusPe :=
  [⟨"counter", 14, 0x0, false, []⟩, ⟨"arrayinit", 11, 0x10000, true, [7]⟩]

/-- The PEs of this device. -/
def counterPe : PE :=
  PE.new 0 14 0x0 4 false

@[inherit_doc counterPe]
def arrayinitPe : PE :=
  { PE.new 1 11 0x10000 7 false with localMemory := some 1 }

def twoPesScheduler : Scheduler where
  pes := Function.update (Function.update (fun _ => none) 14 (some [counterPe])) 11
    (some [arrayinitPe])
  pesOverview := Function.update (Function.update (fun _ => none) 14 (some 1)) 11 (some 1)
  pesName := [(14, "counter"), (11, "arrayinit")]

theorem new_twoPes :
    new twoPes [1] (fun _ => true) true false = .ok twoPesScheduler := rfl

/-- A job takes one of the two PEs, a handler the other. -/
theorem ownership_of_mem_trace_two_pes :
    new twoPes [1] (fun _ => true) true false = .ok twoPesScheduler ∧
      ∀ s ∈ Runs.trace step (init twoPesScheduler)
        ([.acquirePe 11 0, .acquireSinglePe 14 0] : List (Action GenericAllocator)),
        (∀ i < twoPes.length, ∃ p, (s.held p).count i = 1 ∧ ∀ q, q ≠ p → i ∉ s.held q) ∧
        (∀ p, ∀ pe ∈ s.contents p, twoPes[pe.id]?.map StatusPe.id = some pe.typeId) ∧
        (∀ t, ∀ pe ∈ s.contents (.pool t), pe.typeId = t ∧ pe.active = false) ∧ s.failures = [] :=
  ⟨new_twoPes, ownership_of_mem_trace new_twoPes _⟩

/-- While `reset_interrupts` has a PE, it is neither in the pool nor in a job nor in a single-PE
handler. -/
theorem pe_in_hands_of_reset :
    new twoPes [1] (fun _ => true) true false = .ok twoPesScheduler ∧
      ∃ s ∈ Runs.trace step (init twoPesScheduler)
        ([.resetInterrupts 0 [14, 11], .resetSteal 0 false fun _ => 0] :
          List (Action GenericAllocator)), ∀ p, p ≠ .reset 0 → counterPe.id ∉ s.held p := by
  refine ⟨new_twoPes, _, mem_of_getElem? (i := 2) rfl, fun p hp hmem => hp ?_⟩
  have hinv := inv_step (inv_step (inv_init new_twoPes)
    (.resetInterrupts 0 [14, 11] : Action GenericAllocator))
    (.resetSteal 0 false fun _ => 0 : Action GenericAllocator)
  exact hinv.exactlyOne.eq_of_mem hmem (Multiset.mem_coe.mpr mem_cons_self)

end Tapasco.System
