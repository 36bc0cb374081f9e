import Tapasco.SystemOwnership
import Tapasco.JobLaunch

/-!
# Handing a PE from Job to Job

A job leaves notes at its PE about what is to be done when the PE has finished: results to
read back, memory to free, streams to wait for. `Job::release` and `Job::try_release` take
these notes, give the PE back to the scheduler, and carry out the notes after that. So there
is a time at which the PE is in the pool and its last job is not over.
-/

open List

namespace Tapasco

/-- The note asks for something to be done on the device or with a stream. -/
def CopyBack.isWork : CopyBack → Bool
  | .returned _ => false
  | _ => true

namespace System

variable {σ : Type} {entries : List StatusPe}

/-- No work of jobs that ran on the PE `id` is outstanding. -/
def NothingOwed (s : System) (id : ℕ) : Prop :=
  ∀ c, (id, c) ∈ s.outstanding → c.isWork = false

/-- The place belongs to the scheduler of the device: a queue, or the hands of a
`reset_interrupts`. -/
def Place.isMain : Place → Bool
  | .pool _ => true
  | .reset _ => true
  | _ => false

/-- Nothing is owed to the PEs that the scheduler has. -/
def MainSettled (s : System) : Prop :=
  ∀ p, p.isMain = true → ∀ pe ∈ s.contents p, s.NothingOwed pe.id

/-! ### Steps that return no PE -/

theorem mem_of_mem_update {f : Place → List PE} {p q : Place} {l : List PE} {pe : PE}
    (h : pe ∈ Function.update f q l p) : p = q ∧ pe ∈ l ∨ pe ∈ f p := by
  by_cases hp : p = q
  · subst hp
    rw [Function.update_self] at h
    exact .inl ⟨rfl, h⟩
  · rw [Function.update_of_ne hp] at h
    exact .inr h

theorem MainSettled.of_subset {s s' : System} (h : s.MainSettled)
    (hou : s'.outstanding ⊆ s.outstanding) (hm : ∀ p, p.isMain = true → ∀ pe ∈ s'.contents p,
      (∃ q, q.isMain = true ∧ pe ∈ s.contents q) ∨ s.NothingOwed pe.id) : s'.MainSettled := by
  intro p hp pe hpe c hc
  rcases hm p hp pe hpe with ⟨q, hq, ho⟩ | how
  · exact h q hq pe ho c (hou hc)
  · exact how c (hou hc)

theorem MainSettled.of_update {s s' : System} (h : s.MainSettled)
    (hou : s'.outstanding ⊆ s.outstanding) {q : Place} (hq : q.isMain = false)
    {l : List PE} (hc : s'.contents = Function.update s.contents q l) : s'.MainSettled := by
  refine h.of_subset hou fun p hp pe hpe => .inl ⟨p, hp, ?_⟩
  rw [hc] at hpe
  rcases mem_of_mem_update hpe with ⟨rfl, -⟩ | ho
  · exact absurd hp (by simp [hq])
  · exact ho

section

variable {s : System} (h : s.MainSettled)

include h

theorem MainSettled.setJob (j : ℕ) (slot : JobSlot) : (s.setJob j slot).MainSettled :=
  h.of_update (List.Subset.refl _) rfl (contents_setJob s j slot)

theorem MainSettled.setSingle (hd : ℕ) (q : SinglePEScheduler) : (s.setSingle hd q).MainSettled :=
  h.of_update (List.Subset.refl _) rfl (contents_setSingle s hd q)

theorem MainSettled.setHandler (hd : ℕ) (x : SinglePEHandler) : (s.setHandler hd x).MainSettled :=
  h.of_update (List.Subset.refl _) rfl (contents_setHandler s hd x)

theorem MainSettled.setPool (t : PEId) {l : List PE}
    (hl : ∀ pe ∈ l, pe ∈ s.contents (.pool t) ∨ s.NothingOwed pe.id) :
    (s.setPool t l).MainSettled := by
  refine h.of_subset (List.Subset.refl _) fun p hp pe hpe => ?_
  rw [contents_setPool] at hpe
  rcases mem_of_mem_update hpe with ⟨rfl, hn⟩ | ho
  · exact (hl pe hn).imp (fun ho => ⟨_, rfl, ho⟩) id
  · exact .inl ⟨p, hp, ho⟩

theorem MainSettled.setReset (r : ℕ) {x : Option Reset}
    (hx : ∀ pe ∈ x.elim [] Reset.removePes, pe ∈ s.contents (.reset r) ∨ s.NothingOwed pe.id) :
    (s.setReset r x).MainSettled := by
  refine h.of_subset (List.Subset.refl _) fun p hp pe hpe => ?_
  rw [contents_setReset] at hpe
  rcases mem_of_mem_update hpe with ⟨rfl, hn⟩ | ho
  · exact (hx pe hn).imp (fun ho => ⟨_, rfl, ho⟩) id
  · exact .inl ⟨p, hp, ho⟩

theorem MainSettled.tail {t : PEId} {pe : PE} {l : List PE}
    (hl : s.contents (.pool t) = pe :: l) : (s.setPool t l).MainSettled :=
  h.setPool t fun _ hb => .inl (hl ▸ mem_cons_of_mem pe hb)

theorem MainSettled.append {t : PEId} {pe : PE} (how : s.NothingOwed pe.id) :
    (s.setPool t (s.contents (.pool t) ++ [pe])).MainSettled := by
  refine h.setPool t fun b hb => ?_
  rcases mem_append.mp hb with ho | hn
  · exact .inl ho
  · rw [mem_singleton.mp hn]
    exact .inr how

theorem MainSettled.handedOver (hi : Inv entries s) {j : ℕ} {slot : JobSlot} {pe : PE}
    (hj : s.jobs j = some slot) (hpe : slot.pe = some pe) (rp : Bool)
    (hcl : rp = true → slot.home = .main →
      (∀ c ∈ pe.copyBack.getD [], c.isWork = false) ∧ s.NothingOwed pe.id) :
    (s.handedOver j slot pe rp).MainSettled := by
  -- the notes of this PE do not concern the PEs that the scheduler has
  have howe : (s.owe pe.id (pe.copyBack.getD [])).MainSettled := by
    intro p hp b hb c hc
    rcases mem_append.mp hc with ho | hn
    · exact h p hp b hb c ho
    obtain ⟨c', -, heq⟩ := mem_map.mp hn
    have hid : pe.id = b.id := congrArg Prod.fst heq
    have hjo : pe.id ∈ s.held (.job j) := Multiset.mem_coe.mpr
      (mem_map_of_mem (by simp [contents, hj, hpe]))
    have hm : pe.id ∈ s.held p := hid ▸ Multiset.mem_coe.mpr (mem_map_of_mem hb)
    rw [← hi.exactlyOne.eq_of_mem hjo hm] at hp
    exact absurd hp (by simp [Place.isMain])
  rw [System.handedOver]
  cases rp with
  | false => exact howe.setJob _ _
  | true =>
    cases hh : slot.home with
    | single hd => exact (howe.setSingle _ _).setJob _ _
    | main =>
      obtain ⟨hnot, how⟩ := hcl rfl hh
      refine (howe.append fun c hc => ?_).setJob _ _
      rcases mem_append.mp hc with ho | hn
      · exact how c ho
      · obtain ⟨c', hc', heq⟩ := mem_map.mp hn
        have hno : c' = c := congrArg Prod.snd heq
        exact hno ▸ hnot c' hc'

end

end System

end Tapasco
