import Tapasco.SimInterrupts
import Tapasco.StatusInterrupts

/-!
# Interrupt Lines of the Simulation

Which port of the design the server of the simulation watches for an interrupt. Every interrupt
pin of a processing element becomes a port of the design, named after the number of the element
and of the pin (`arch_connect_interrupts` in `axi4mm.tcl`, `create_subsystem_host` in `sim.tcl`).
The status message has a number for each pin, counted over all of them (`create_subsystem_intc`),
and the runtime registers this number. But `register_interrupt` takes it for the number of a
processing element, and watches the first pin of it.
-/

open Tapasco.StatusMessage List

open Function

namespace Tapasco.Sim

open Server

/-! ### Ports and numbers -/

/-- The port of the design for an interrupt, as `add_interrupt` and `create_subsystem_host` name
it. -/
def extPort (name : List Char) : Port :=
  "ext_".toList ++ ("intr_".toList ++ name)

/-- The port of pin `y` of processing element `x`. -/
def pinPort (x y : ℕ) : Port :=
  extPort (intrName x y)

/-- The interrupt ports of a design, `create_subsystem_host`. -/
def designPorts (pes : List AddressMap.Cell) : List Port :=
  (archConnectInterrupts 0 pes).map fun i => extPort i.1

/-- `interrupt_id as i32`. -/
def asI32 (n : ℕ) : ℤ :=
  (n : ℤ).bmod (2 ^ 32)

theorem intText_ofNat (n : ℕ) : intText (n : ℤ) = Nat.toDigits 10 n := by
  rw [intText, if_neg (by omega), Int.natAbs_natCast]

theorem toDigits_append_inj {m n : ℕ} {l l' : List Char}
    (h : Nat.toDigits 10 m ++ '_' :: l = Nat.toDigits 10 n ++ '_' :: l') : m = n ∧ l = l' := by
  have hn (n : ℕ) (l : List Char) :
      (Nat.toDigits 10 n ++ '_' :: l).takeWhile Char.isDigit = Nat.toDigits 10 n := by
    rw [takeWhile_toDigits_append, takeWhile_cons_of_neg (by decide), append_nil]
  have hd : Nat.toDigits 10 m = Nat.toDigits 10 n := by
    rw [← hn m l, h, hn n l']
  rw [hd, append_cancel_left_eq, List.cons.injEq] at h
  refine ⟨?_, h.2⟩
  rw [← Nat.ofDigitChars_ten_toDigits (n := m), hd, Nat.ofDigitChars_ten_toDigits]

/-- **The port that the server watches** is that of a pin exactly if the pin is the first one of
the processing element with the number that was registered. -/
theorem portOf_eq_pinPort_iff (id : ℤ) (x y : ℕ) :
    portOf id = pinPort x y ↔ id = x ∧ y = 0 := by
  have hpo : portOf id = "ext_intr_PE_".toList ++ (intText id ++ '_' :: ['0']) := append_assoc ..
  have hp : pinPort x y =
      "ext_intr_PE_".toList ++ (Nat.toDigits 10 x ++ '_' :: Nat.toDigits 10 y) := rfl
  rw [hpo, hp, append_cancel_left_eq]
  constructor
  · intro h
    rcases lt_or_ge id 0 with hn | hpos
    · -- a number of the design does not begin with a sign
      rw [intText, if_pos hn, cons_append] at h
      obtain ⟨c, l, hd⟩ := exists_cons_of_ne_nil (Nat.toDigits_ne_nil (b := 10) (n := x))
      rw [hd, cons_append, List.cons.injEq] at h
      have hdi := isDigit_of_mem (n := x) c (by rw [hd]; exact mem_cons_self)
      rw [← h.1] at hdi
      exact absurd hdi (by decide)
    · obtain ⟨m, rfl⟩ := Int.eq_ofNat_of_zero_le hpos
      rw [intText_ofNat] at h
      obtain ⟨rfl, hz⟩ := toDigits_append_inj h
      refine ⟨rfl, ?_⟩
      rw [← Nat.ofDigitChars_ten_toDigits (n := y), ← hz]
      rfl
  · rintro ⟨rfl, rfl⟩
    rw [intText_ofNat]
    rfl

theorem pinPort_mem_designPorts {pes : List AddressMap.Cell} {x y : ℕ} (hy : y < pinsAt pes x) :
    pinPort x y ∈ designPorts pes := by
  cases hc : pes[x]? with
  | none => exact absurd hy (by simp [pinsAt, hc])
  | some cell =>
    rw [pinsAt, hc, Option.map_some, Option.getD_some] at hy
    refine mem_map.mpr ⟨(intrName x y, .design), ?_, rfl⟩
    refine mem_flatMap.mpr ⟨(cell, x), ?_, ?_⟩
    · exact mem_zipIdx_iff_getElem?.mpr hc
    · exact mem_map.mpr ⟨y, List.mem_range.mpr hy, rfl⟩

/-! ### An interrupt that stays registered -/

/-- The coroutine watches a port of the design, or will. -/
structure SimInterrupt.Live (dut : List Port) (handle : Port) (x : SimInterrupt) : Prop where
  handle_eq : x.interruptHandle = handle
  enabled : x.enabled = true
  stays : x.shouldExit = false
  task : x.task ≠ .finished ∧ (x.task = .raised → handle ∉ dut)

/-- An operation on an interrupt that shows no edge to its coroutine. -/
def SimInterrupt.Harmless (dut : List Port) (f : SimInterrupt → SimInterrupt) : Prop :=
  ∀ handle x, x.Live dut handle → (f x).Live dut handle ∧ (f x).edges = x.edges

namespace SimInterrupt

variable {dut : List Port} {handle : Port} {x : SimInterrupt}

theorem live_new (dut : List Port) (handle : Port) : (new handle).Live dut handle :=
  ⟨rfl, rfl, rfl, by simp [new]⟩

theorem Live.await (h : x.Live dut handle) : (x.await dut).Live dut handle := by
  refine ⟨h.handle_eq, h.enabled, h.stays, ?_⟩
  rw [SimInterrupt.await, h.stays, h.handle_eq]
  by_cases hm : handle ∈ dut <;> simp [hm]

theorem harmless_id : Harmless dut id :=
  fun _ _ h => ⟨h, rfl⟩

theorem harmless_acquire (t : ℕ) : Harmless dut (acquire t) :=
  fun _ _ h => ⟨⟨h.handle_eq, h.enabled, h.stays, h.task⟩, rfl⟩

theorem harmless_release : Harmless dut release :=
  fun _ _ h => ⟨⟨h.handle_eq, h.enabled, h.stays, h.task⟩, rfl⟩

theorem harmless_clear : Harmless dut clear :=
  fun _ _ h => ⟨⟨h.handle_eq, h.enabled, h.stays, h.task⟩, rfl⟩

theorem harmless_start : Harmless dut (start dut) := by
  intro handle x h
  rw [start]
  split
  · exact ⟨h.await, rfl⟩
  · exact ⟨h, rfl⟩

theorem harmless_assertInterrupt : Harmless dut (assertInterrupt dut) := by
  intro handle x h
  rw [assertInterrupt]
  split
  · split
    · exact ⟨⟨h.handle_eq, h.enabled, h.stays, by simp⟩, rfl⟩
    · exact ⟨h, rfl⟩
  · exact ⟨⟨h.handle_eq, h.enabled, h.stays, by simp⟩, rfl⟩
  · exact ⟨⟨h.handle_eq, h.enabled, h.stays, by simp⟩, rfl⟩
  · exact ⟨Live.await ⟨h.handle_eq, h.enabled, h.stays, h.task⟩, rfl⟩
  · exact ⟨h, rfl⟩

/-- **An edge** is seen by the coroutines that wait for its port. -/
theorem Live.risingEdge (h : x.Live dut handle) (port : Port) :
    (x.risingEdge dut port).Live dut handle ∧
      (x.risingEdge dut port).edges =
        x.edges + if x.task = .waiting ∧ handle = port then 1 else 0 := by
  rw [SimInterrupt.risingEdge, h.handle_eq, if_pos h.enabled]
  split
  · exact ⟨⟨rfl, h.enabled, h.stays, by simp⟩, rfl⟩
  · exact ⟨h, rfl⟩

/-- Outside of `assert_interrupt` the coroutine waits, once it has been started. -/
theorem Live.task_eq (h : x.Live dut handle) (hm : handle ∈ dut)
    (ha : x.task.asserts = false) : x.task = .waiting ↔ x.task ≠ .created := by
  obtain ⟨hf, hr⟩ := h.task
  cases ht : x.task with
  | created => simp
  | waiting => simp
  | finished => exact absurd ht hf
  | raised => exact absurd hm (hr ht)
  | acquire => simp [ht, Task.asserts] at ha
  | load => simp [ht, Task.asserts] at ha
  | store n => simp [ht, Task.asserts] at ha
  | release => simp [ht, Task.asserts] at ha

end SimInterrupt

namespace Server

/-- The coroutine of an interrupt has been started. -/
def isStarted (s : Server) (obj : ℕ) : Bool :=
  (s.objects[obj]?).any fun x => x.task ≠ .created

/-- The action is a rising edge of a port, after the coroutine of an interrupt was started. -/
def rises (s : Server) (obj : ℕ) (port : Port) : Action → Bool
  | .edge p => p = port && !s.isAsserting && s.isStarted obj
  | _ => false

/-- **The rising edges of a port** in a run, after the coroutine of an interrupt was started. -/
def portEdges (obj : ℕ) (port : Port) : Server → List Action → ℕ
  | _, [] => 0
  | s, a :: as => (if s.rises obj port a then 1 else 0) + portEdges obj port (s.step a) as

/-- The action leaves a file descriptor registered. -/
def KeepsFd (fd : ℤ) : Action → Prop
  | .register fd' _ | .deregister fd' => fd' ≠ fd
  | _ => True

/-- The interrupt `obj` is registered for a file descriptor, and its coroutine watches a port. -/
structure Watches (dut : List Port) (fd : ℤ) (obj : ℕ) (handle : Port) (s : Server) : Prop where
  dut_eq : s.dut = dut
  registered : ∀ fd', s.interrupts fd' = some obj ↔ fd' = fd
  live : ∃ x : SimInterrupt, s.objects[obj]? = some x ∧ x.Live dut handle

theorem exists_requestStep_objects (s : Server) (t : ℕ) (r : StatusRequest) (dut : List Port) :
    ∃ obj f, SimInterrupt.Harmless dut f ∧
      (s.requestStep t r).objects = (s.onObject obj f).objects ∧
      (s.requestStep t r).interrupts = s.interrupts ∧ (s.requestStep t r).dut = s.dut := by
  have hi : ∃ obj f, SimInterrupt.Harmless dut f ∧
      s.objects = (s.onObject obj f).objects ∧ s.interrupts = s.interrupts ∧ s.dut = s.dut :=
    ⟨0, id, SimInterrupt.harmless_id, by rw [onObject_id], rfl, rfl⟩
  rw [requestStep]
  split
  · exact hi
  · split <;> exact hi
  · split
    · exact ⟨_, _, SimInterrupt.harmless_acquire t, rfl, rfl, rfl⟩
    · exact hi
  · exact hi
  · exact ⟨_, _, SimInterrupt.harmless_release, rfl, rfl, rfl⟩
  · split <;> exact hi
  · split
    · exact ⟨_, _, SimInterrupt.harmless_acquire t, rfl, rfl, rfl⟩
    · exact hi
  · exact ⟨_, _, SimInterrupt.harmless_clear, rfl, rfl, rfl⟩
  · exact ⟨_, _, SimInterrupt.harmless_release, rfl, rfl, rfl⟩
  · exact hi
  · exact hi
  · exact hi

section Watches

variable {dut : List Port} {fd : ℤ} {obj : ℕ} {handle : Port} {s : Server} {x : SimInterrupt}
  (h : Watches dut fd obj handle s) (hx : s.objects[obj]? = some x)
include h hx

theorem Watches.harmless {s' : Server} {f : SimInterrupt → SimInterrupt} (hd : s'.dut = s.dut)
    (hi : ∀ fd', s'.interrupts fd' = some obj ↔ s.interrupts fd' = some obj)
    (hf : SimInterrupt.Harmless dut f) (ho : s'.objects[obj]? = s.objects[obj]?.map f) :
    Watches dut fd obj handle s' ∧
      ∃ x' : SimInterrupt, s'.objects[obj]? = some x' ∧ x'.edges = x.edges := by
  obtain ⟨y, hy, hl⟩ := h.live
  obtain rfl : x = y := Option.mem_unique hx hy
  obtain ⟨hl', he⟩ := hf handle x hl
  rw [hx, Option.map_some] at ho
  exact ⟨⟨hd.trans h.dut_eq, fun fd' => (hi fd').trans (h.registered fd'),
    f x, ho, hl'⟩, f x, ho, he⟩

theorem Watches.onObject {s' : Server} {o : ℕ} {f : SimInterrupt → SimInterrupt}
    (hd : s'.dut = s.dut) (hi : s'.interrupts = s.interrupts) (hf : SimInterrupt.Harmless dut f)
    (ho : s'.objects = (s.onObject o f).objects) :
    Watches dut fd obj handle s' ∧
      ∃ x' : SimInterrupt, s'.objects[obj]? = some x' ∧ x'.edges = x.edges := by
  refine h.harmless hx hd (fun fd' => by rw [hi]) ?_
    (ho ▸ getElem?_onObject s o f obj)
  split
  · exact hf
  · exact SimInterrupt.harmless_id

/-- **One action**: the coroutine sees the edges of the port that it watches. -/
theorem watches_step {a : Action} (hm : handle ∈ dut) (ha : KeepsFd fd a) :
    Watches dut fd obj handle (s.step a) ∧
      ∃ x' : SimInterrupt, (s.step a).objects[obj]? = some x' ∧
        x'.edges = x.edges + if s.rises obj handle a then 1 else 0 := by
  have hlt : obj < s.objects.length := Threads.lt_of_getElem? hx
  cases a with
  | register fd' interruptId =>
    have hot : s.interrupts fd' ≠ some obj := fun heq => ha ((h.registered fd').mp heq)
    refine h.harmless hx rfl (fun fd'' => ?_) SimInterrupt.harmless_id ?_
    · have hu : (s.step (.register fd' interruptId)).interrupts fd'' =
          update s.interrupts fd' (some s.objects.length) fd'' := rfl
      rw [hu]
      by_cases heq : fd'' = fd'
      · rw [heq, update_self]
        exact iff_of_false (by simpa using ne_of_gt hlt) hot
      · rw [update_of_ne heq]
    · refine (getElem?_registerInterrupt hlt fd' interruptId).trans ?_
      rw [if_neg hot]
  | deregister fd' =>
    refine h.harmless hx rfl (fun fd'' => ?_) SimInterrupt.harmless_id (by simp [step,
      deregisterInterrupt])
    have hu : (s.step (.deregister fd')).interrupts fd'' = update s.interrupts fd' none fd'' := rfl
    rw [hu]
    by_cases heq : fd'' = fd'
    · rw [heq, update_self]
      exact iff_of_false (by simp) fun hf' => ha ((h.registered fd').mp hf')
    · rw [update_of_ne heq]
  | request fd' =>
    exact h.harmless hx rfl (fun _ => Iff.rfl) SimInterrupt.harmless_id (by simp [step])
  | step t =>
    rw [step]
    cases hr : s.requests[t]? with
    | none => exact h.harmless hx rfl (fun _ => Iff.rfl) SimInterrupt.harmless_id (by simp)
    | some r =>
      obtain ⟨o, f, hf, ho, hi, hd⟩ := exists_requestStep_objects s t r dut
      exact h.onObject hx hd hi hf ho
  | start o => exact h.onObject hx rfl rfl (h.dut_eq ▸ SimInterrupt.harmless_start) rfl
  | assert o => exact h.onObject hx rfl rfl (h.dut_eq ▸ SimInterrupt.harmless_assertInterrupt) rfl
  | edge port =>
    obtain ⟨y, hy, hl⟩ := h.live
    obtain rfl : x = y := Option.mem_unique hx hy
    rw [step]
    cases hasse : s.isAsserting with
    | true => exact ⟨h, x, hx, by simp [rises, hasse]⟩
    | false =>
      have hass : x.task.asserts = false := by
        rw [isAsserting, any_eq_false] at hasse
        exact Bool.eq_false_iff.mpr (hasse x (mem_of_getElem? hx))
      have hob : (s.objects.map (.risingEdge s.dut port))[obj]? =
          some (x.risingEdge dut port) := by
        rw [getElem?_map, hx, h.dut_eq]
        rfl
      obtain ⟨hl', he⟩ := hl.risingEdge port
      refine ⟨⟨h.dut_eq, h.registered, _, hob, hl'⟩, _, hob, ?_⟩
      have hri : s.rises obj handle (.edge port) = true ↔
          x.task = .waiting ∧ handle = port := by
        rw [hl.task_eq hm hass]
        simp [rises, hasse, isStarted, hx, and_comm, eq_comm (a := handle)]
      simp only [he, hri]

/-- **A whole run**: the coroutine has seen the edges of its port, all of them and no others. -/
theorem edges_run (hm : handle ∈ dut) {as : List Action} (has : ∀ a ∈ as, KeepsFd fd a) :
    ∃ x' : SimInterrupt, (Runs.run step s as).objects[obj]? = some x' ∧
      x'.edges = x.edges + portEdges obj handle s as := by
  induction as generalizing s x with
  | nil => exact ⟨x, hx, rfl⟩
  | cons a as ih =>
    rw [forall_mem_cons] at has
    obtain ⟨hw, x', hx', he⟩ := watches_step h hx hm has.1
    obtain ⟨x'', hx'', he'⟩ := ih hw hx' has.2
    refine ⟨x'', hx'', ?_⟩
    rw [he', he, portEdges, add_assoc]

end Watches

/-! ### The pins of the status message -/

/-- **Registering a number makes the server count the edges of a port**: after every run, and in
every run from there on that leaves the file descriptor registered, the new coroutine has seen as
many edges as the port has had since it was started. -/
def CountsPort (dut : List Port) (interruptId : ℤ) (port : Port) : Prop :=
  ∀ (fd : ℤ) (as bs : List Action) (s s' : Server), (∀ b ∈ bs, KeepsFd fd b) →
    s = Runs.run step (new dut) as → s' = s.step (.register fd interruptId) →
    ∃ x : SimInterrupt, (Runs.run step s' bs).objects[s.objects.length]? = some x ∧
      x.edges = portEdges s.objects.length port s' bs

theorem dut_run (dut : List Port) (as : List Action) : (Runs.run step (new dut) as).dut = dut := by
  refine Runs.run_invariant (P := fun s : Server => s.dut = dut) (fun s a h => ?_) rfl as
  rw [← h]
  cases a with
  | step t =>
    rw [step]
    cases s.requests[t]? with
    | none => rfl
    | some r => exact (exists_requestStep_objects s t r dut).choose_spec.choose_spec.2.2.2
  | edge port =>
    rw [step]
    split <;> rfl
  | _ => rfl

theorem countsPort_portOf {dut : List Port} {id : ℤ} (hm : portOf id ∈ dut) :
    CountsPort dut id (portOf id) := by
  intro fd as bs s s' hb hs hs'
  have hi : s.Inv := hs ▸ Runs.run_invariant inv_step (inv_new dut) as
  have hd : s.dut = dut := hs ▸ dut_run dut as
  have hn : s'.objects[s.objects.length]? = some (.new (portOf id)) :=
    hs' ▸ getElem?_registerInterrupt_length s fd id
  have hw : Watches dut fd s.objects.length (portOf id) s' := by
    refine ⟨hs' ▸ hd, fun fd' => ?_, _, hn, SimInterrupt.live_new _ _⟩
    have hu : s'.interrupts fd' =
        update s.interrupts fd (some s.objects.length) fd' := by rw [hs']; rfl
    rw [hu]
    by_cases heq : fd' = fd
    · rw [heq, update_self]
      exact iff_of_true rfl rfl
    · rw [update_of_ne heq]
      exact iff_of_false (fun h => lt_irrefl _ (hi.registered fd' _ h)) heq
  obtain ⟨x, hx, he⟩ := edges_run hw hn hm hb
  exact ⟨x, hx, he.trans (zero_add _)⟩

theorem start_new (dut : List Port) (handle : Port) :
    ∃ task, (task = .waiting ∨ task = .raised) ∧
      (SimInterrupt.new handle).start dut = { SimInterrupt.new handle with task } := by
  by_cases hm : handle ∈ dut
  · exact ⟨.waiting, .inl rfl, by simp [SimInterrupt.start, SimInterrupt.await,
      SimInterrupt.new, hm]⟩
  · exact ⟨.raised, .inr rfl, by simp [SimInterrupt.start, SimInterrupt.await,
      SimInterrupt.new, hm]⟩

theorem portOf_eq_of_countsPort {dut : List Port} {id : ℤ} {port : Port}
    (h : CountsPort dut id port) : portOf id = port := by
  by_contra hne
  -- the first interrupt of all, and one edge of the port
  obtain ⟨x, hx, he⟩ := h 0 [] [.start 0, .edge port] _ _ (by simp [KeepsFd]) rfl rfl
  obtain ⟨task, ht, hst⟩ := start_new dut (portOf id)
  let u := ((new dut).step (.register 0 id)).step (.start 0)
  have hs : u.objects = [{ SimInterrupt.new (portOf id) with task }] := by
    rw [← hst]
    rfl
  have ha : u.isAsserting = false := by
    rw [isAsserting, hs]
    rcases ht with rfl | rfl <;> rfl
  have hu : (u.step (.edge port)).objects = u.objects := by
    rw [step, ha, hs]
    simp [SimInterrupt.risingEdge, SimInterrupt.new, hne]
  have hr : u.rises 0 port (.edge port) = true := by
    rw [rises, isStarted, ha, hs]
    rcases ht with rfl | rfl <;> simp
  have hob : (u.step (.edge port)).objects[0]? = some x := hx
  rw [hu, hs, getElem?_cons_zero, Option.some.injEq] at hob
  have ho : x.edges = 0 + ((if u.rises 0 port (.edge port) then 1 else 0) + 0) := he
  rw [hr, ← hob] at ho
  exact absurd ho (by simp [SimInterrupt.new])

end Server

theorem cellInterrupts_shared (pes : List AddressMap.Cell) (x : ℕ) :
    cellInterrupts .shared [] [] pes x =
      (List.range (pinsAt pes x)).map fun y => ⟨pinsBefore pes x + y, Nat.toDigits 10 y⟩ := by
  have hle := pinsBefore_add_le pes x
  rw [cellInterrupts, nil_append, append_nil, clks_archConnectInterrupts,
    intMapping_design, length_nil, zero_add, pinInterrupts_range' hle]
  simp only [designLine, zero_add]

section Status

variable {base : ℕ} {pes : List AddressMap.Cell} {status : StatusMessage.Status}
  {pe : StatusMessage.StatusPe} {i : StatusMessage.Interrupt} {x y : ℕ}

theorem mapping_eq (h : statusMessage .shared [] [] base pes = .ok status)
    (hp : status.pes[x]? = some pe) (hi : pe.interrupts[y]? = some i) :
    y < pinsAt pes x ∧ i.mapping = pinsBefore pes x + y := by
  have hg := getElem?_pes (by simp) h x
  rw [hp, Option.map_some] at hg
  obtain ⟨e, -, heq⟩ := Option.map_eq_some_iff.mp hg.symm
  have hint : pe.interrupts = cellInterrupts .shared [] [] pes x := (Prod.ext_iff.mp heq).2.symm
  rw [hint, cellInterrupts_shared, getElem?_map] at hi
  obtain ⟨y', hy', rfl⟩ := Option.map_eq_some_iff.mp hi
  obtain ⟨hlt, hg⟩ := List.getElem?_eq_some_iff.mp hy'
  rw [getElem_range] at hg
  rw [length_range] at hlt
  exact ⟨hlt, by rw [hg]⟩

/-- **Simulated interrupt lines**: registering the number that the status message has for pin `y` of
processing element `x` makes the server count the edges of its port, exactly if it is the first pin,
and the elements before have together as many pins as they are. -/
theorem countsPort_iff (h : statusMessage .shared [] [] base pes = .ok status)
    (hpe : status.pes[x]? = some pe) (hi : pe.interrupts[y]? = some i) :
    Server.CountsPort (designPorts pes) (asI32 i.mapping) (pinPort x y) ↔
      y = 0 ∧ asI32 (pinsBefore pes x) = x := by
  obtain ⟨hy, hmapping⟩ := mapping_eq h hpe hi
  have hport := portOf_eq_pinPort_iff (asI32 i.mapping) x y
  rw [hmapping] at hport ⊢
  constructor
  · intro hcounts
    obtain ⟨hid, rfl⟩ := hport.mp (portOf_eq_of_countsPort hcounts)
    exact ⟨rfl, hid⟩
  · rintro ⟨rfl, hid⟩
    have heq := hport.mpr ⟨hid, rfl⟩
    rw [← heq]
    exact countsPort_portOf (heq ▸ pinPort_mem_designPorts hy)

end Status

theorem countsPort_second_cell : ∃ status pe i,
    statusMessage .shared [] [] 0x2000000 twoCells = .ok status ∧ status.pes[1]? = some pe ∧
      pe.interrupts[0]? = some i ∧
      Server.CountsPort (designPorts twoCells) (asI32 i.mapping) (pinPort 1 0) := by
  refine ⟨_, _, _, rfl, rfl, rfl, ?_⟩
  exact (@countsPort_iff 0x2000000 twoCells _ _ _ 1 0 rfl rfl rfl).mpr ⟨rfl, by decide⟩

/-- A processing element with two interrupt pins, and one with one. -/
def twoPinCells : List AddressMap.Cell :=
  [registerCell 1 2 10 "a", registerCell 1 1 11 "b"]

/-- The number of the second pin of the first element counts the edges of the second element, and
that of the second element does not. -/
theorem second_pin_not_counted : ∃ status pe i pe' i',
    statusMessage .shared [] [] 0 twoPinCells = .ok status ∧
      status.pes[0]? = some pe ∧ pe.interrupts[1]? = some i ∧
      status.pes[1]? = some pe' ∧ pe'.interrupts[0]? = some i' ∧
      ¬ Server.CountsPort (designPorts twoPinCells) (asI32 i.mapping) (pinPort 0 1) ∧
      Server.CountsPort (designPorts twoPinCells) (asI32 i.mapping) (pinPort 1 0) ∧
      ¬ Server.CountsPort (designPorts twoPinCells) (asI32 i'.mapping) (pinPort 1 0) := by
  refine ⟨_, _, _, _, _, rfl, rfl, rfl, rfl, rfl, fun h => ?_, ?_, fun h => ?_⟩
  · exact absurd (portOf_eq_of_countsPort h) (by decide +kernel)
  · exact countsPort_portOf (by decide +kernel)
  · exact absurd (portOf_eq_of_countsPort h) (by decide +kernel)

end Tapasco.Sim
