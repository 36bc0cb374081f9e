import Tapasco.DmaCopyFromPieces

/-!
# Reads Return the Bytes of the Device

A buffer in flight belongs to its call alone, so it keeps the bytes of the completed transfer
until they are copied to their place in the data of the call. When the call returns, all its
pieces have been copied back, and together they are all of the data.
-/

open Word64 Threads Ownership List

open Function

namespace Tapasco.CopyFrom

open CopyFrom.System DMABuffer

namespace System

/-! ### The bytes -/

/-- The data of the call have the bytes that the device had when the transfer was
completed. -/
def Copied (data : List Byte) (x : Transfer) (device : ByteMem) : Prop :=
  ∀ k < x.desc.size, data[x.offset + k]? = some (device (wrappingAdd x.desc.addrDevice k))

/-- What was copied back are the bytes of the device, and the buffers of completed transfers
still have them. -/
structure Content (s : System) : Prop where
  copied : ∀ (t : ℕ) (c : CopyFrom), s.calls[t]? = some c → ∀ k ∈ c.copied,
    ∃ x device, (s.engine c.stream).issued[k]? = some x ∧
      (s.engine c.stream).log[k]? = some device ∧ Copied c.data x device
  buffered : ∀ (t : ℕ) (c : CopyFrom), s.calls[t]? = some c → ∀ p ∈ c.flying s.shared,
    ∀ x device, (s.engine c.stream).issued[p.number]? = some x →
      (s.engine c.stream).log[p.number]? = some device →
      ∀ k < p.len, s.shared.mapped p.buffer.addr k = device (wrappingAdd x.desc.addrDevice k)

end System

theorem getElem?_overwrite {data : List Byte} {off len : ℕ} {bytes : ByteMem} {k : ℕ}
    (hk : k < len) (hl : off + len ≤ data.length) :
    (overwrite data off len bytes)[off + k]? = some (bytes k) := by
  rw [overwrite, getElem?_mapIdx, getElem?_eq_getElem (by omega), Option.map_some,
    if_pos (by omega), Nat.add_sub_cancel_left]

theorem getElem?_overwrite_of_outside {data : List Byte} {off len : ℕ} {bytes : ByteMem}
    {k : ℕ} (hk : k < off ∨ off + len ≤ k) : (overwrite data off len bytes)[k]? = data[k]? := by
  rw [overwrite, getElem?_mapIdx]
  cases data[k]? with
  | none => rfl
  | some old => rw [Option.map_some, if_neg (by omega)]

theorem eq_of_buffer_eq {s : Shared} {c : CopyFrom} (h : c.holding.Nodup) {p q : Piece}
    (hp : p ∈ c.flying s) (hq : q ∈ c.flying s) (heq : p.buffer = q.buffer) : p = q := by
  have hn : ((c.flying s).map Piece.buffer).Nodup := by
    rw [flying, map_append, ahead]
    rw [holding] at h
    split
    · rename_i b hb
      rw [hb] at h
      exact (perm_append_comm.nodup_iff).mp h
    · rw [map_nil, append_nil]
      exact (nodup_append.mp h).2.1
  exact inj_on_of_nodup_map hn hp hq heq

namespace System

variable {buffers : List DMABuffer}

variable {s : System} {t : ℕ} {c : CopyFrom} {x : Transfer}

theorem Owned.nodup_holding (h : s.Owned buffers) (hc : s.calls[t]? = some c) :
    c.holding.Nodup := by
  refine nodup_iff_count_le_one.mpr fun b => ?_
  by_cases hb : b ∈ c.holding
  · rw [← contents_call hc] at hb ⊢
    rw [← Multiset.coe_count]
    exact (ExactlyOne.count_eq_one h (p := Place.call t) (Multiset.mem_coe.mpr hb)).le
  · rw [count_eq_zero.mpr hb]
    exact Nat.zero_le 1

theorem addr_ne_of_inFlight (how : s.Owned buffers)
    (hbu : (buffers.map addr).Nodup) (hcu : s.Custody) {st : Bool} {i : ℕ}
    (hi : (s.engine st).done ≤ i)
    (hx : (s.engine st).issued[i]? = some x) (hc : s.calls[t]? = some c) {p : Piece}
    (hp : p ∈ c.flying s.shared) (ho : c.stream = st → p.number ≠ i) :
    p.buffer.addr ≠ x.desc.addrHost := by
  intro ha
  have hm : p.buffer ∈ s.contents (.call t) := by
    rw [contents_call hc]
    exact mem_holding_of_mem_flying hp
  have hk : ∀ r, ∀ b ∈ s.contents r, b.addr = x.desc.addrHost → b = p.buffer ∧ r = .call t := by
    intro r b hb hbad
    have hba : b ∈ buffers := how.known r b (Multiset.mem_coe.mpr hb)
    have hpa : p.buffer ∈ buffers := how.known _ _ (Multiset.mem_coe.mpr hm)
    obtain rfl : b = p.buffer := inj_on_of_nodup_map hbu hba hpa (hbad.trans ha.symm)
    exact ⟨rfl, how.eq_of_mem (Multiset.mem_coe.mpr hb) (Multiset.mem_coe.mpr hm)⟩
  rcases hcu st i x hi hx with ⟨d, hd, hs, q, hq, hqi, hqa⟩ | ⟨b, hb, hbad⟩
  · have hqm : q.buffer ∈ s.contents (.call x.owner) := by
      rw [contents_call hd]
      exact mem_holding_of_mem_flying hq
    obtain ⟨heq, hpl⟩ := hk _ _ hqm hqa
    obtain rfl : x.owner = t := by simpa using hpl
    obtain rfl : c = d := Option.mem_unique hc hd
    obtain rfl := eq_of_buffer_eq (how.nodup_holding hc) hq hp heq
    exact ho hs hqi
  · have hpl := (hk .lost b (mem_map_of_mem hb) hbad).2
    simp at hpl

theorem Content.copied_copyback (h : s.Content) (hcou : s.Counts) (hn : s.Numbered)
    (hpl : s.Placed) (hc : s.calls[t]? = some c) (ht : Tidy s.shared c) {p : Piece}
    {rest : List Piece} (hp : c.flying s.shared = p :: rest) (hok : c.pc.failed = false)
    (hlt : p.number < (s.shared.channel c.stream).intCntr) (hre : c.reach = c.ptrBuffer) {k : ℕ}
    (hk : k ∈ c.copied ++ [p.number]) :
    ∃ x device, (s.engine c.stream).issued[k]? = some x ∧
      (s.engine c.stream).log[k]? = some device ∧
      Copied (overwrite c.data p.offset p.len (s.shared.mapped p.buffer.addr)) x device := by
  have hpm : p ∈ c.flying s.shared := hp ▸ mem_cons_self
  obtain ⟨y, hy, hof⟩ := hn.pieceOf t c hc p hpm
  have hnu := hn.inFlight t c hc hok
  rw [hp, map_cons] at hnu
  have ho : ∀ j, j ∈ numbersOf t (s.engine c.stream).issued →
      ∀ z, (s.engine c.stream).issued[j]? = some z → z.owner = t := by
    intro j hj z hz
    obtain ⟨z', hz', hzt⟩ := mem_numbersOf.mp hj
    obtain rfl : z = z' := Option.mem_unique hz hz'
    exact hzt
  have hyt := ho p.number (by rw [hnu]; simp) y hy
  rcases mem_append.mp hk with hk | hk
  · obtain ⟨x, device, hx, hde, hco⟩ := h.copied t c hc k hk
    refine ⟨x, device, hx, hde, fun j hj => ?_⟩
    have hne : k ≠ p.number := by
      have hno := nodup_numbersOf t (s.engine c.stream).issued
      rw [hnu] at hno
      rintro rfl
      exact (nodup_append.mp hno).2.2 p.number hk p.number mem_cons_self rfl
    have hxt := ho k (by rw [hnu]; exact mem_append_left _ hk) x hx
    have hdi := (hpl.tiled t c hc).disjoint hx hy hxt hyt hne
    rw [hof.offset, hof.size] at hdi
    rw [getElem?_overwrite_of_outside (by omega)]
    exact hco j hj
  · obtain rfl := mem_singleton.mp hk
    have hd := lt_of_lt_of_le hlt (hcou.intCntr_le c.stream).1
    refine ⟨y, _, hy, getElem?_eq_getElem hd, fun j hj => ?_⟩
    have hm : y ∈ ownTransfers t (s.engine c.stream).issued :=
      mem_filter.mpr ⟨mem_of_getElem? hy, decide_eq_true hyt⟩
    have hle := ((hpl.tiled t c hc).mem_range hm).2
    have hr := ht.inRange
    rw [hof.size] at hj
    rw [hof.offset, getElem?_overwrite hj (by rw [hof.offset, hof.size] at hle; omega)]
    exact congrArg some (h.buffered t c hc p hpm y _ hy (getElem?_eq_getElem hd) j hj)

theorem Content.afterCall (h : s.Content) (hcou : s.Counts) (hi : s.Indexed)
    (hn : s.Numbered) (hpl : s.Placed) (hc : s.calls[t]? = some c)
    (ht : Tidy s.shared c) (r : Reply) : (s.afterCall t r c).Content := by
  have hs := stream_step t r s.shared c
  have hl := log_afterCall s t r c
  have hca := flying_step_cases ht t r
  have hm : (s.afterCall t r c).shared.mapped = s.shared.mapped := mapped_step t r s.shared c
  refine ⟨fun u d hd k hk => ?_, fun u d hd p hp x device hx hde => ?_⟩
  · rcases getElem?_set_cases hd with ⟨rfl, rfl⟩ | ⟨hut, hd⟩
    · rw [hs, hl]
      have hsa : ∀ data, (∃ x device, (s.engine c.stream).issued[k]? = some x ∧
          (s.engine c.stream).log[k]? = some device ∧ Copied data x device) →
          ∃ x device,
            ((s.afterCall u r c).engine c.stream).issued[k]? = some x ∧
            (s.engine c.stream).log[k]? = some device ∧ Copied data x device :=
        fun data ⟨x, device, hx, hre⟩ => ⟨x, device, getElem?_issued_mono hx, hre⟩
      rcases hca with ⟨b, -, -, -, -, hco, hda⟩ |
        ⟨p, rest, -, hp, -, hlt, hr, -, hok, hco, hda⟩ |
        ⟨-, -, -, -, -, -, hco, hda⟩ | ⟨-, -, -, -, hco, hda⟩ <;>
        rw [hco] at hk <;> rw [hda] <;> refine hsa _ ?_
      · exact h.copied u c hc k hk
      · exact h.copied_copyback hcou hn hpl hc ht hp hok hlt hr hk
      · exact h.copied u c hc k hk
      · exact h.copied u c hc k hk
    · obtain ⟨x, device, hx, hde, hco⟩ := h.copied u d hd k hk
      exact ⟨x, device, getElem?_issued_mono hx, by rw [hl]; exact hde, hco⟩
  · rw [hm]
    -- the transfer of an old piece is the one it had before
    have ho : ∀ e, s.calls[u]? = some e → e.stream = d.stream → p ∈ e.flying s.shared →
        ∀ k < p.len, s.shared.mapped p.buffer.addr k =
          device (wrappingAdd x.desc.addrDevice k) := by
      intro e he hes hp
      obtain ⟨y, hy, -⟩ := hn.pieceOf u e he p hp
      have hy' : ((s.afterCall t r c).engine e.stream).issued[p.number]? =
          some y := getElem?_issued_mono hy
      rw [hes] at hy'
      obtain rfl : x = y := Option.mem_unique hx hy'
      rw [hl] at hde
      exact h.buffered u e he p hp x device hy (hes ▸ hde)
    rcases getElem?_set_cases hd with ⟨rfl, rfl⟩ | ⟨hut, hd⟩
    · rcases hca with ⟨b, hpc, -, hf, -⟩ | ⟨q, rest, -, hq, hf, -⟩ |
        ⟨-, hf, -⟩ | ⟨-, hf, -⟩ <;> rw [afterCall, hf] at hp
      · rcases mem_append.mp hp with hp | hp
        · exact ho c hc hs.symm hp
        · -- a transfer that has just been issued is not completed
          obtain rfl := mem_singleton.mp hp
          have hle := (hcou.intCntr_le c.stream).2
          have hlt := lt_of_getElem? hde
          rw [hl, hs] at hlt
          rw [Engine.done, ← hi.cntr_of_schedule hc hpc] at hle
          exact absurd hlt (not_lt.mpr hle)
      · exact ho c hc hs.symm (hq ▸ mem_cons_of_mem q hp)
      · exact absurd hp not_mem_nil
      · exact ho c hc hs.symm hp
    · rw [flying_afterCall_of_ne hi hc hd hut] at hp
      exact ho d hd rfl hp

theorem channel_afterEngine (s : System) (st : Bool) (f : Engine ByteMem → Engine ByteMem)
    (mp : ℕ → ByteMem) : (s.afterEngine st f mp).shared.channel =
      update s.shared.channel st
        { s.shared.channel st with engine := f (s.engine st) } :=
  rfl

theorem log_complete_cases {stream : Bool} {dev : ByteMem} {mp : ℕ → ByteMem}
    (hx : (s.engine stream).issued[(s.engine stream).done]? = some x)
    (st : Bool) :
    let s' := s.afterEngine stream (fun e => e.complete fun _ => dev) mp
    st = stream ∧ (s'.engine st).log =
        (s.engine st).log ++ [dev] ∨
      st ≠ stream ∧ (s'.engine st).log = (s.engine st).log := by
  by_cases hs : st = stream
  · subst hs
    refine .inl ⟨rfl, ?_⟩
    rw [engine, channel_afterEngine, update_self, Engine.complete, hx]
  · refine .inr ⟨hs, ?_⟩
    rw [engine, channel_afterEngine, update_of_ne hs]

theorem Content.complete (h : s.Content) (hn : s.Numbered) (hcu : s.Custody)
    (how : s.Owned buffers) (hb : (buffers.map addr).Nodup) {st : Bool} {dev : ByteMem}
    (hx : (s.engine st).issued[(s.engine st).done]? = some x) :
    (s.afterEngine st (fun e => e.complete fun _ => dev)
      (update s.shared.mapped x.desc.addrHost
        (fetched dev x (s.shared.mapped x.desc.addrHost)))).Content := by
  refine ⟨fun t c hc k hk => ?_, fun t c hc p hp y device' hy hd => ?_⟩
  · obtain ⟨y, device', hy, hd, hco⟩ := h.copied t c hc k hk
    refine ⟨y, device', ?_, ?_, hco⟩
    · rw [issued_afterEngine (Engine.works_complete _)]
      exact hy
    · rcases log_complete_cases hx c.stream with ⟨-, hl⟩ | ⟨-, hl⟩ <;> rw [hl]
      · rw [getElem?_append_left (lt_of_getElem? hd)]
        exact hd
      · exact hd
  · rw [flying_afterEngine] at hp
    rw [issued_afterEngine (Engine.works_complete _)] at hy
    -- the engine does not write to the buffers of other transfers
    have ho : (s.engine c.stream).log[p.number]? = some device' →
        (c.stream = st → p.number ≠ (s.engine st).done) →
        ∀ k < p.len, update s.shared.mapped x.desc.addrHost
          (fetched dev x (s.shared.mapped x.desc.addrHost)) p.buffer.addr k =
            device' (wrappingAdd y.desc.addrDevice k) := by
      intro hd hot k hk
      have hne := addr_ne_of_inFlight how hb hcu (le_refl _) hx hc hp hot
      rw [update_of_ne hne]
      exact h.buffered t c hc p hp y device' hy hd k hk
    rcases log_complete_cases hx c.stream with ⟨hs, hl⟩ | ⟨hs, hl⟩ <;> rw [hl] at hd
    · rcases getElem?_concat_cases hd with ⟨hnu, rfl⟩ | hd
      · intro k hk
        obtain ⟨z, hz, hof⟩ := hn.pieceOf t c hc p hp
        rw [hnu, hs] at hy hz
        obtain rfl : x = y := Option.mem_unique hx hy
        obtain rfl : x = z := Option.mem_unique hx hz
        simp only [afterEngine]
        rw [← hof.addr, update_self, fetched, if_pos (by rw [hof.size]; exact hk)]
      · refine ho hd fun _ hnu => ?_
        have hlt := lt_of_getElem? hd
        rw [hnu, hs, Engine.done] at hlt
        exact absurd hlt (lt_irrefl _)
    · exact ho hd fun hs' => absurd hs' hs

theorem content_step (h : s.Content) (hco : s.Counts) (hi : s.Indexed) (ht : s.AllTidy)
    (hn : s.Numbered) (hpl : s.Placed) (hcu : s.Custody) (how : s.Owned buffers)
    (hb : (buffers.map addr).Nodup) (a : Action) : (s.step a).Content := by
  cases a with
  | call stream ptr data =>
    refine ⟨fun t c hc k hk => ?_, fun t c hc p hp => ?_⟩
    · rcases getElem?_concat_cases hc with ⟨-, rfl⟩ | hc
      · exact absurd hk not_mem_nil
      · exact h.copied t c hc k hk
    · rcases getElem?_concat_cases hc with ⟨-, rfl⟩ | hc
      · exact absurd hp not_mem_nil
      · exact h.buffered t c hc p hp
  | step t reply =>
    rcases step_call_cases s t reply with heq | ⟨c, hc, heq⟩ <;> rw [heq]
    · exact h
    · exact h.afterCall hco hi hn hpl hc
        (ht c (mem_of_getElem? hc)) reply
  | complete stream device =>
    rcases step_complete_cases s stream device with heq | ⟨x, hx, heq⟩ <;> rw [heq]
    · exact h
    · exact h.complete hn hcu how hb hx
  | raise stream =>
    rw [step_raise]
    have hl : ∀ st, ((s.afterEngine stream Engine.raise s.shared.mapped).shared.channel
        st).engine.log = (s.engine st).log :=
      forall_channel_afterEngine (P := fun st ch => ch.engine.log =
        (s.engine st).log) (fun _ => rfl) (Engine.log_raise _)
    refine ⟨fun t c hc k hk => ?_, fun t c hc p hp x device hx hd => ?_⟩
    · rw [issued_afterEngine Engine.works_raise, hl]
      exact h.copied t c hc k hk
    · rw [flying_afterEngine] at hp
      rw [issued_afterEngine Engine.works_raise] at hx
      rw [hl] at hd
      exact h.buffered t c hc p hp x device hx hd

/-! ### Runs -/

/-- Buffers are dropped by calls that fail. -/
def LostByFailed (s : System) : Prop :=
  ∀ q ∈ s.shared.lost, ∃ c, s.calls[q.1]? = some c ∧ c.pc.failed = true

theorem lostByFailed_step (h : s.LostByFailed) (ht : s.AllTidy) (a : Action) :
    (s.step a).LostByFailed := by
  refine step_rule h (fun stream ptr data q hq => ?_) (fun t reply c hc => ?_) (fun _ _ _ _ => h) a
  · obtain ⟨c, hc, hf⟩ := h q hq
    exact ⟨c, getElem?_concat_of_some hc _, hf⟩
  have hs := getElem?_afterCall_self hc reply
  have ho : ∀ q ∈ s.shared.lost, ∃ d, (s.afterCall t reply c).calls[q.1]? = some d ∧
      d.pc.failed = true := by
    intro q hq
    obtain ⟨d, hd, hf⟩ := h q hq
    by_cases hqt : q.1 = t
    · rw [hqt, hc, Option.some.injEq] at hd
      subst hd
      refine ⟨_, (congrArg (fun i => (s.afterCall t reply c).calls[i]?) hqt).trans hs, ?_⟩
      exact failed_step t reply s.shared c hf
    · exact ⟨d, (getElem?_afterCall_of_ne s reply c hqt).trans hd, hf⟩
  intro q hq
  rw [afterCall] at hq
  rcases holding_step_cases (ht c (mem_of_getElem? hc)) t reply with
    ⟨b, -, hl, -⟩ | ⟨b, -, hl, -⟩ | ⟨-, hl, hf, -⟩ | ⟨-, hl, -⟩ <;>
    rw [hl] at hq
  · exact ho q hq
  · exact ho q hq
  · rcases mem_append.mp hq with hq | hq
    · exact ho q hq
    · obtain ⟨b, -, rfl⟩ := mem_map.mp hq
      exact ⟨_, hs, hf⟩
  · exact ho q hq

/-- **The invariant** of the read path. -/
structure Inv (buffers : List DMABuffer) (s : System) : Prop where
  counts : s.Counts
  indexed : s.Indexed
  tidy : s.AllTidy
  owned : s.Owned buffers
  numbered : s.Numbered
  placed : s.Placed
  custody : s.Custody
  content : s.Content
  lostByFailed : s.LostByFailed

theorem inv_step (hb : (buffers.map addr).Nodup) (h : s.Inv buffers) (a : Action) :
    (s.step a).Inv buffers where
  counts := counts_step h.counts a
  indexed := indexed_step h.indexed a
  tidy := allTidy_step h.tidy a
  owned := owned_step h.owned h.tidy a
  numbered := numbered_step h.numbered h.indexed h.tidy a
  placed := placed_step h.placed h.numbered h.tidy a
  custody := custody_step h.custody h.counts h.indexed h.tidy a
  content := content_step h.content h.counts h.indexed h.tidy h.numbered h.placed h.custody
    h.owned hb a
  lostByFailed := lostByFailed_step h.lostByFailed h.tidy a

theorem inv_new (hb : (buffers.map addr).Nodup) (ver : Bool)
    (mp : ℕ → ByteMem) : (new buffers ver mp).Inv buffers where
  counts := ⟨fun _ => Engine.inOrder_idle, fun _ => rfl⟩
  indexed := ⟨fun _ _ hc => absurd hc (by simp [new]), fun _ => rfl⟩
  tidy := fun _ hc => absurd hc not_mem_nil
  owned := by
    refine ExactlyOne.of_gathered (hb.of_map _) (p := Place.pool) (fun p hp => ?_) rfl
    cases p with
    | pool => exact absurd rfl hp
    | _ => rfl
  numbered := ⟨fun _ _ hx => absurd hx not_mem_nil, fun _ _ hc => absurd hc (by simp [new]),
    fun _ _ hc => absurd hc (by simp [new]), fun _ _ hc => absurd hc (by simp [new])⟩
  placed := ⟨fun _ _ hc => absurd hc (by simp [new]), fun _ hc => absurd hc not_mem_nil,
    fun _ _ hc => absurd hc (by simp [new])⟩
  custody := fun _ _ _ _ hx => absurd hx (by simp [new, Engine.idle])
  content := ⟨fun _ _ hc => absurd hc (by simp [new]),
    fun _ _ hc => absurd hc (by simp [new])⟩
  lostByFailed := fun _ hq => absurd hq not_mem_nil

/-- The piece that a call copies back: its transfer is completed, was issued for this place and this
buffer, and was not copied back before. -/
structure Due (s : System) (t : ℕ) (c : CopyFrom) (e : UsedBuffer) (b : DMABuffer) : Prop where
  completed : e.cntr < (s.engine c.stream).done
  fresh : e.cntr ∉ c.copied
  inRange : e.offset + e.len ≤ c.data.length
  transfer : ∃ x, (s.engine c.stream).issued[e.cntr]? = some x ∧ x.owner = t ∧
    x.desc.addrHost = b.addr ∧ x.offset = e.offset ∧ x.desc.size = e.len

/-- What a call has read: all of its transfers were copied back, every byte of the data is the one
that the device had, or that the stream delivered, when its transfer was completed, and the call has
no buffers and lost none. -/
structure Complete (s : System) (t : ℕ) (c : CopyFrom) : Prop where
  all : ∀ (k : ℕ) (x : Transfer), (s.engine c.stream).issued[k]? = some x →
    x.owner = t → k ∈ c.copied
  bytes : ∀ k < c.data.length, ∃ (i : ℕ) (x : Transfer) (device : ByteMem),
    (s.engine c.stream).issued[i]? = some x ∧ x.owner = t ∧
      x.offset ≤ k ∧ k < x.offset + x.desc.size ∧
      (s.engine c.stream).log[i]? = some device ∧
      c.data[k]? = some (device (if c.stream then wrappingAdd x.desc.addrDevice (k - x.offset)
        else (c.ptr + k + devOffset s.shared.isVersal) % 2 ^ 64))
  holding : c.holding = []
  lost : ∀ b, (t, b) ∉ s.shared.lost

/-- **Correctness of the read path.** A piece is copied back when it is due, and only once, with the
bytes of the device; a call that has returned is complete; when all calls have returned all buffers
are in the pool. -/
structure ReadSafe (buffers : List DMABuffer) (s : System) : Prop where
  due : ∀ (t : ℕ) (c : CopyFrom) (last : Bool) (used i : ℕ) (e : UsedBuffer) (b : DMABuffer),
    s.calls[t]? = some c → c.pc = .copyback last used i e b → s.Due t c e b
  copied : ∀ (t : ℕ) (c : CopyFrom), s.calls[t]? = some c → c.copied.Nodup ∧
    ∀ k ∈ c.copied, ∃ x device, (s.engine c.stream).issued[k]? = some x ∧
      x.owner = t ∧ (s.engine c.stream).log[k]? = some device ∧
      Copied c.data x device
  returned : ∀ (t : ℕ) (c : CopyFrom), s.calls[t]? = some c → c.pc = .returned (.ok ()) →
    s.Complete t c
  pool : (∀ c ∈ s.calls, c.pc = .returned (.ok ())) → s.shared.fromDevBuffer.Perm buffers

theorem Inv.owner_of_mem {k : ℕ} (hk : k ∈ numbersOf t (s.engine c.stream).issued)
    (hx : (s.engine c.stream).issued[k]? = some x) : x.owner = t := by
  obtain ⟨y, hy, hyt⟩ := mem_numbersOf.mp hk
  obtain rfl : x = y := Option.mem_unique hx hy
  exact hyt

theorem Inv.due (h : s.Inv buffers) {last : Bool} {used i : ℕ} {e : UsedBuffer} {b : DMABuffer}
    (hc : s.calls[t]? = some c) (hpc : c.pc = .copyback last used i e b) : s.Due t c e b := by
  have ht := h.tidy c (mem_of_getElem? hc)
  have hm : (⟨e.cntr, b, e.offset, e.len⟩ : Piece) ∈ c.flying s.shared := by
    simp [flying, pieces, hpc, Pc.piece]
  have hnu := h.numbered.inFlight t c hc (by rw [hpc]; rfl)
  have hi : e.cntr ∈ (c.flying s.shared).map Piece.number := mem_map_of_mem hm
  obtain ⟨x, hx, hof⟩ := h.numbered.pieceOf t c hc _ hm
  have hxt : x.owner = t := Inv.owner_of_mem (by rw [hnu]; exact mem_append_right _ hi) hx
  refine ⟨?_, fun hco => ?_, ?_, x, hx, hxt, hof.addr, hof.offset, hof.size⟩
  · have hlt := ht.ready last used i e b hpc
    have hu := ht.used_le
    rw [hpc, Pc.used] at hu
    have hd := (h.counts.intCntr_le c.stream).1
    omega
  · have hn := nodup_numbersOf t (s.engine c.stream).issued
    rw [hnu] at hn
    exact (nodup_append.mp hn).2.2 _ hco _ hi rfl
  · have ho : x ∈ ownTransfers t (s.engine c.stream).issued :=
      mem_filter.mpr ⟨mem_of_getElem? hx, decide_eq_true hxt⟩
    have hle := ((h.placed.tiled t c hc).mem_range ho).2
    rw [reach_eq (by simp [hpc]), hof.offset, hof.size] at hle
    have hr := ht.inRange
    simp only at hle
    omega

theorem Inv.complete (h : s.Inv buffers) (hc : s.calls[t]? = some c)
    (hr : c.pc = .returned (.ok ())) : s.Complete t c := by
  have hti := h.tidy c (mem_of_getElem? hc)
  have hp : c.pieces = [] := by
    rw [pieces, hr, hti.returned hr]
    rfl
  have hfl : c.flying s.shared = [] := by
    rw [flying, hp, ahead_eq_nil _ (by simp [hr])]
    rfl
  have hn := h.numbered.inFlight t c hc (by rw [hr]; rfl)
  rw [hfl, map_nil, append_nil] at hn
  refine ⟨fun k x hx hxt => ?_, fun k hk => ?_, ?_, fun b hb => ?_⟩
  · rw [← hn]
    exact mem_numbersOf.mpr ⟨x, hx, hxt⟩
  · have ht := h.placed.tiled t c hc
    have hra := hti.inRange
    rw [hti.issuedAll (by rw [hr]; rfl)] at hra
    rw [reach_eq (by simp [hr]), show c.ptrBuffer = c.data.length from hra] at ht
    obtain ⟨x, hx, hle, hlt⟩ := ht.exists_mem (Nat.zero_le k) hk
    obtain ⟨hm, hxt⟩ := mem_filter.mp hx
    obtain ⟨i, hi⟩ := getElem?_of_mem hm
    have hco : i ∈ c.copied := by
      rw [← hn]
      exact mem_numbersOf.mpr ⟨x, hi, of_decide_eq_true hxt⟩
    obtain ⟨y, device, hy, hde, hbyt⟩ := h.content.copied t c hc i hco
    obtain rfl : x = y := Option.mem_unique hi hy
    refine ⟨i, x, device, hi, of_decide_eq_true hxt, hle, hlt, hde, ?_⟩
    have hby := hbyt (k - x.offset) (by omega)
    rw [Nat.add_sub_cancel' hle] at hby
    rw [hby]
    split
    · rfl
    · rename_i hme
      have ha := h.placed.device t c hc (by simpa using hme) x hx
      rw [ha, wrappingAdd, Nat.mod_add_mod]
      congr 3
      omega
  · rw [CopyFrom.holding, hp, hr]
    rfl
  · obtain ⟨d, hd, hf⟩ := h.lostByFailed (t, b) hb
    obtain rfl : c = d := Option.mem_unique hc hd
    rw [hr] at hf
    exact absurd hf (by simp [Pc.failed])

theorem Inv.readSafe (hb : (buffers.map addr).Nodup) (h : s.Inv buffers) :
    s.ReadSafe buffers where
  due t c last used i e b hc hpc := h.due hc hpc
  copied t c hc := by
    obtain ⟨rest, hre⟩ := h.numbered.copied t c hc
    have hn := nodup_numbersOf t (s.engine c.stream).issued
    rw [← hre] at hn
    refine ⟨(nodup_append.mp hn).1, fun k hk => ?_⟩
    obtain ⟨x, device, hx, hd, hby⟩ := h.content.copied t c hc k hk
    have hxt : x.owner = t := Inv.owner_of_mem (by rw [← hre]; exact mem_append_left _ hk) hx
    exact ⟨x, device, hx, hxt, hd, hby⟩
  returned t c hc hr := h.complete hc hr
  pool ha := by
    refine Multiset.coe_eq_coe.mp (h.owned.eq_all_of_gathered (hb.of_map _)
      (p := Place.pool) fun p hp => ?_)
    rcases p with _ | t | _
    · exact absurd rfl hp
    · cases hc : s.calls[t]? with
      | none =>
        rw [contents, hc]
        rfl
      | some c =>
        rw [contents_call hc, (h.complete hc (ha c (mem_of_getElem? hc))).holding]
        rfl
    · have hno : s.shared.lost = [] := by
        refine eq_nil_iff_forall_not_mem.mpr fun q hq => ?_
        obtain ⟨c, hc, hf⟩ := h.lostByFailed q hq
        rw [ha c (mem_of_getElem? hc)] at hf
        exact absurd hf (by simp [Pc.failed])
      rw [contents, hno]
      rfl

/-- **The read path** is correct in every state of every run. -/
theorem readSafe_of_mem_trace (hbuffers : (buffers.map addr).Nodup) (isVersal : Bool)
    (mapped : ℕ → ByteMem) (actions : List Action) :
    ∀ s ∈ Runs.trace step (new buffers isVersal mapped) actions, s.ReadSafe buffers := by
  intro s hs
  exact (Runs.forall_mem_trace (P := Inv buffers) (fun _ a h => inv_step hbuffers h a)
    (inv_new hbuffers isVersal mapped) actions s hs).readSafe hbuffers

def small : DMABuffer :=
  ⟨0, 2, 0x1000⟩

/-- Three bytes are read through the buffer, in two pieces. -/
def threeBytes (device : ByteMem) : List Action :=
  .call false 0x40 [0, 0, 0] :: List.replicate 11 (.step 0 .ok) ++
    [.complete false device, .raise false] ++ List.replicate 15 (.step 0 .ok) ++
    [.complete false device, .raise false] ++ List.replicate 17 (.step 0 .ok)

theorem readSafe_of_mem_trace_three_bytes :
    ∃ s ∈ Runs.trace step (new [small] false fun _ _ => 0)
        (threeBytes fun a => BitVec.ofNat 8 a),
      s.calls.map (fun c => (c.pc, c.data)) = [(.returned (.ok ()), [0x40, 0x41, 0x42])] ∧
        s.ReadSafe [small] := by
  have hmem : Runs.run step (new [small] false fun _ _ => 0)
      (threeBytes fun a => BitVec.ofNat 8 a) ∈ Runs.trace step
        (new [small] false fun _ _ => 0) (threeBytes fun a => BitVec.ofNat 8 a) :=
    Runs.run_mem_trace _ _
  have hbuffers : ([small].map addr).Nodup := by decide
  exact ⟨_, hmem, by decide +kernel, readSafe_of_mem_trace hbuffers false (fun _ _ => 0)
    (threeBytes fun a => BitVec.ofNat 8 a) _ hmem⟩

end System

end Tapasco.CopyFrom
