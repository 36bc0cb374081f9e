import Tapasco.Placement

/-!
# What the Hardware Sees at Launch

If `Job::start` succeeds, then at the moment the start register is written each argument that is not
a stream stands in its own argument register, as its value or as the address of its buffer, and the
data of every transfer to the device is in device memory at that address.
-/

open Exec FreeList ByteMem List

namespace Tapasco

/-! ### Reading registers back -/

/-- The number a word stands for. -/
def ValType.toNat : ValType → ℕ
  | .u32 x => x.toNat
  | .u64 x => x.toNat

def ValType.isU32 : ValType → Bool
  | .u32 _ => true
  | .u64 _ => false

theorem tapascoReadVolatile_of_holds {regs : ByteMem} {off : ℕ} {v : ValType}
    (h : Holds regs off v.bytes) : tapascoReadVolatile regs off v.isU32 = v.toNat := by
  cases v with
  | u32 x =>
    have hx : x.toNat < 256 ^ 4 := x.isLt
    rw [Holds, ValType.bytes, length_leBytes] at h
    rw [tapascoReadVolatile, ValType.isU32, if_pos rfl, h, ofLeBytes_leBytes,
      Nat.mod_eq_of_lt hx, ValType.toNat]
  | u64 x =>
    have hx : x.toNat < 256 ^ 8 := x.isLt
    rw [Holds, ValType.bytes, length_leBytes] at h
    rw [tapascoReadVolatile, ValType.isU32, if_neg Bool.false_ne_true, h, ofLeBytes_leBytes,
      Nat.mod_eq_of_lt hx, ValType.toNat]

namespace Job

variable {σ : Type} {y : DataTransferPrealloc} {args' : List PEParameter} {L : MemId → List Segment}

/-! ### Copies to separate places -/

/-- The two buffers do not overlap. -/
def Apart (x y : DataTransferPrealloc) : Prop :=
  x.memory = y.memory → x.deviceAddress + x.data.bytes.length ≤ y.deviceAddress ∨
    y.deviceAddress + y.data.bytes.length ≤ x.deviceAddress

variable {x : DataTransferPrealloc}

/-- The memory of the buffer holds its data. -/
def DataHeld (w : World σ) (x : DataTransferPrealloc) : Prop :=
  Holds (w.bytes x.memory) x.deviceAddress x.data.bytes

theorem bytes_sent_self {w : World σ} (ht : x.toDevice = true) : DataHeld (sent w x) x := by
  rw [DataHeld, sent, if_pos ht, World.write]
  simp only [Function.update_self]
  exact holds_writeBytes _ _ _

theorem DataHeld.sent {w : World σ} (h : DataHeld w x)
    (ha : Apart x y) : DataHeld (sent w y) x := by
  rw [DataHeld, Job.sent]
  split
  · simp only [World.write]
    by_cases hm : x.memory = y.memory
    · rw [hm, Function.update_self]
      exact Holds.writeBytes (hm ▸ h) (ha hm)
    · rw [Function.update_of_ne hm]
      exact h
  · exact h

theorem DataHeld.foldl_sent {xs : List DataTransferPrealloc} {w : World σ} (h : DataHeld w x)
    (ha : ∀ y ∈ xs, Apart x y) : DataHeld (xs.foldl Job.sent w) x := by
  induction xs generalizing w with
  | nil => exact h
  | cons y xs ih =>
    rw [forall_mem_cons] at ha
    exact ih (h.sent ha.1) ha.2

/-- **Copies to separate places** do not disturb each other. -/
theorem holds_foldl_sent {xs : List DataTransferPrealloc} (ha : xs.Pairwise Apart) (w : World σ)
    (hx : x ∈ xs) (ht : x.toDevice = true) : DataHeld (xs.foldl Job.sent w) x := by
  induction xs generalizing w with
  | nil => exact absurd hx not_mem_nil
  | cons y xs ih =>
    obtain ⟨hy, hxs⟩ := pairwise_cons.mp ha
    rcases mem_cons.mp hx with rfl | hx
    · exact (bytes_sent_self ht).foldl_sent hy
    · exact ih hxs (Job.sent w y) hx

theorem foldl_sent_frame (xs : List DataTransferPrealloc) (w : World σ) :
    (xs.foldl Job.sent w).allocator = w.allocator ∧
      (xs.foldl Job.sent w).registers = w.registers := by
  induction xs generalizing w with
  | nil => exact ⟨rfl, rfl⟩
  | cons x xs ih =>
    obtain ⟨ha, hr⟩ := ih (Job.sent w x)
    have hf : (Job.sent w x).allocator = w.allocator ∧
        (Job.sent w x).registers = w.registers := by
      rw [Job.sent]
      split <;> exact ⟨rfl, rfl⟩
    exact ⟨ha.trans hf.1, hr.trans hf.2⟩

section

variable [Allocator σ] [LawfulAllocator σ]

variable {w : World σ} {args : List PEParameter} {arg : PEParameter}

theorem apart_of_liveIn {w₀ : World σ} (h : Later w₀ w) {x : DataTransferPrealloc}
    (hx : LiveIn (liveMap w) x) (hy : LiveIn (liveMap w) y)
    (hne : x.memory = y.memory → x.deviceAddress ≠ y.deviceAddress) : Apart x y := by
  intro hm
  obtain ⟨s, hs, hsb, hsl⟩ := hx
  obtain ⟨t, ht, htb, htl⟩ := hy
  have hst : s ≠ t := fun heq => hne hm (by rw [← hsb, ← htb, heq])
  have hd : s.Disjoint t := by
    have ha := LawfulAllocator.disjoint (h x.memory)
    rw [← hm] at ht
    exact ha.forall hs ht hst
  simp only [Segment.Disjoint, Segment.stop, hsb, htb] at hd
  exact hd.imp (Nat.add_le_add_left hsl _).trans (Nat.add_le_add_left htl _).trans

/-! ### The launch -/

/-- What the caller promises about preallocated buffers: they are distinct live
allocations that are large enough. -/
structure PreallocsLive (w : World σ) (args : List PEParameter) : Prop where
  live : ∀ x ∈ preallocs args, LiveIn (liveMap w) x
  distinct : Distinct (preallocs args)

/-- The buffer has a new live segment, its address is in argument register `k`, and its data, if it
has any, in device memory. -/
def BufferLaunched (pe : PE) (w₀ w : World σ) (k : ℕ) (m : MemId) (x : DataTransferAlloc) : Prop :=
  ∃ a, tapascoReadVolatile w.registers (argOffset pe k) false = a ∧
    (∀ o, x.fixed = some o → a = o) ∧
    (∃ s ∈ liveMap w m, s.base = a ∧ x.data.bytes.length ≤ s.size) ∧
    (∀ s ∈ liveMap w₀ m, s.base ≠ a) ∧
    (x.toDevice = true → Holds (w.bytes m) a x.data.bytes)

/-- Argument `k` is in place: its value or the address of its buffer is in its register, and the
data of a transfer to the device is at that address. `w₀` is before the launch. -/
def Launched (pe : PE) (w₀ w : World σ) (k : ℕ) : PEParameter → Prop
  | .single32 x => tapascoReadVolatile w.registers (argOffset pe k) true = x.toNat
  | .single64 x => tapascoReadVolatile w.registers (argOffset pe k) false = x.toNat
  | .deviceAddress a => tapascoReadVolatile w.registers (argOffset pe k) false = a
  | .dataTransferPrealloc x =>
    tapascoReadVolatile w.registers (argOffset pe k) false = x.deviceAddress ∧
      (x.toDevice = true → Holds (w.bytes x.memory) x.deviceAddress x.data.bytes)
  | .dataTransferAlloc x => BufferLaunched pe w₀ w k x.memory x
  | .dataTransferLocal x =>
    ∃ m, pe.localMemory = some m ∧ BufferLaunched pe w₀ w k m (x.inMemory m)
  | .dataTransferStream _ => False
  | .virtualAddress _ => False

omit [Allocator σ] [LawfulAllocator σ] in
theorem isStream_toRegister (arg : PEParameter) : (toRegister arg).isStream = arg.isStream := by
  cases arg <;> rfl

omit [Allocator σ] [LawfulAllocator σ] in
theorem preallocs_map_localize (pe : PE) (args : List PEParameter) :
    preallocs (args.map (localize pe)) = preallocs args := by
  rw [preallocs, filterMap_map]
  refine filterMap_congr fun arg _ => ?_
  cases arg with
  | dataTransferLocal x =>
    rw [Function.comp_apply, localize]
    cases pe.localMemory <;> rfl
  | _ => rfl

theorem PreallocsLive.map_localize (h : PreallocsLive w args) (pe : PE) :
    PreallocsLive w (args.map (localize pe)) :=
  ⟨preallocs_map_localize pe args ▸ h.live, preallocs_map_localize pe args ▸ h.distinct⟩

omit [Allocator σ] [LawfulAllocator σ] in
theorem isStream_of_placedAs {pe : PE} {L' : MemId → List Segment} {arg' : PEParameter}
    (h : Placing.PlacedAs L L' (localize pe arg) arg') : arg'.isStream = arg.isStream := by
  have hl : (localize pe arg).isStream = arg.isStream := by
    cases arg with
    | dataTransferLocal x =>
      rw [localize]
      cases pe.localMemory <;> rfl
    | _ => rfl
  rcases h with ⟨-, rfl⟩ | ⟨x, a, hx, rfl, -⟩
  · exact hl
  · rw [← hl, hx]
    rfl

omit [Allocator σ] [LawfulAllocator σ] in
theorem wellTyped_localize {pe : PE} (h : arg.WellTyped) : (localize pe arg).WellTyped := by
  cases arg with
  | dataTransferLocal x =>
    rw [localize]
    cases pe.localMemory <;> exact h
  | _ => exact h

theorem launched_of_placedAs {pe : PE} {w₀ : World σ} (hla : Later w₀ w) {k : ℕ}
    {arg' : PEParameter} (ht : arg.WellTyped) (hst : arg.isStream = false)
    (hp : Placing.PlacedAs (liveMap w₀) (liveMap w) (localize pe arg) arg')
    (hbu : ∀ x, arg' = .dataTransferPrealloc x →
      LiveIn (liveMap w) x ∧ (x.toDevice = true → DataHeld w x))
    {v : ValType} (hv : argValue (toRegister arg') = some v)
    (hh : Holds w.registers (argOffset pe k) v.bytes) : Launched pe w₀ w k arg := by
  have hr := tapascoReadVolatile_of_holds hh
  -- an address in a register reads back as itself
  have had : ∀ a, v = .u64 (BitVec.ofNat 64 a) → a < 2 ^ 64 →
      tapascoReadVolatile w.registers (argOffset pe k) false = a := by
    rintro a rfl ha
    rw [ValType.isU32, ValType.toNat, BitVec.toNat_ofNat, Nat.mod_eq_of_lt ha] at hr
    exact hr
  have hb : ∀ x, LiveIn (liveMap w) x → x.deviceAddress < 2 ^ 64 := by
    rintro x ⟨s, hs, hsb, -⟩
    have hsp := LawfulAllocator.in_space (hla x.memory) s hs
    rw [Segment.stop, hsb] at hsp
    exact lt_of_lt_of_le (Nat.lt_add_of_pos_right hsp.1) hsp.2
  -- a transfer for which memory was allocated
  have hal : ∀ x a, arg' = .dataTransferPrealloc (DataTransferAlloc.placedAt x a) →
      (∀ o, x.fixed = some o → a = o) → FreshIn (liveMap w₀) (x.placedAt a) →
      BufferLaunched pe w₀ w k x.memory x := by
    rintro x a rfl hf hfr
    obtain ⟨hl, hd⟩ := hbu _ rfl
    have hva := (Option.some.inj hv).symm
    exact ⟨a, had a hva (hb _ hl), hf, hl, hfr, hd⟩
  rcases hp with ⟨hk, rfl⟩ | ⟨x, a, hx, rfl, hf, -, hfr⟩
  · cases arg with
    | single32 x =>
      obtain rfl := Option.some.inj hv
      exact hr
    | single64 x =>
      obtain rfl := Option.some.inj hv
      exact hr
    | deviceAddress a => exact had a (Option.some.inj hv).symm ht
    | dataTransferPrealloc x =>
      obtain ⟨hl, hd⟩ := hbu x rfl
      exact ⟨had _ (Option.some.inj hv).symm (hb x hl), hd⟩
    | dataTransferLocal x =>
      rw [localize] at hk hv
      cases hm : pe.localMemory with
      | none => rw [hm] at hv; exact absurd hv (by simp [toRegister, argValue])
      | some m => rw [hm] at hk; exact absurd hk (by simp [PEParameter.isAlloc])
    | dataTransferAlloc x => exact absurd hk (by simp [localize, PEParameter.isAlloc])
    | dataTransferStream x => exact absurd hst (by simp [PEParameter.isStream])
    | virtualAddress p => exact absurd hv (by simp [localize, toRegister, argValue])
  · cases arg with
    | dataTransferLocal y =>
      rw [localize] at hx
      cases hm : pe.localMemory with
      | none => rw [hm] at hx; simp at hx
      | some m =>
        rw [hm] at hx
        obtain rfl := PEParameter.dataTransferAlloc.inj hx
        exact ⟨m, hm, hal _ a rfl hf hfr⟩
    | dataTransferAlloc y =>
      obtain rfl := PEParameter.dataTransferAlloc.inj hx
      exact hal y a rfl hf hfr
    | _ => exact absurd hx (by simp [localize])

omit [Allocator σ] [LawfulAllocator σ] in
/-- The `k`-th parameter that is not a stream, before and after the first three passes. -/
theorem exists_placedAs_of_filter {L' : MemId → List Segment} {pe : PE}
    (h : List.Forall₂ (Placing.PlacedAs L L') (args.map (localize pe)) args') {k : ℕ}
    (ha : (args.filter fun arg => !arg.isStream)[k]? = some arg) :
    ∃ arg' ∈ args', ((args'.map toRegister).filter fun arg => !arg.isStream)[k]? =
      some (toRegister arg') ∧ Placing.PlacedAs L L' (localize pe arg) arg' := by
  have hk := rel_filter (p := fun arg => !arg.isStream) (q := fun arg => !arg.isStream)
    (fun _ _ hp => by simp only [isStream_of_placedAs hp])
    (forall₂_map_left_iff.mp h)
  obtain ⟨arg', ha', hp⟩ := Lists.exists_getElem?_of_forall₂ hk ha
  refine ⟨arg', (mem_filter.mp (mem_of_getElem? ha')).1, ?_, hp⟩
  have hf : ((args'.map toRegister).filter fun arg => !arg.isStream) =
      (args'.filter fun arg => !arg.isStream).map toRegister := by
    rw [filter_map]
    simp only [Function.comp_def, isStream_toRegister]
  rw [hf, getElem?_map, ha']
  rfl

/-- All buffers are live and apart, so after all copies each of them holds its data. -/
theorem dataHeld_of_placing {w₀ : World σ} (hl : Later w₀ w) (h : Placing L args args' (liveMap w))
    (hli : ∀ x ∈ preallocs args, LiveIn L x) (hd : Distinct (preallocs args)) :
    ∀ x ∈ preallocs args', LiveIn (liveMap w) x ∧
      (x.toDevice = true → DataHeld ((preallocs args').foldl sent w) x) := by
  obtain ⟨hb, hd'⟩ := h.buffers (distinctBases_liveMap hl) hli hd
  have ha : (preallocs args').Pairwise Apart :=
    hd'.imp_of_mem fun hx hy hne =>
      apart_of_liveIn hl (hb _ hx).1 (hb _ hy).1 hne
  exact fun x hx => ⟨(hb x hx).1, holds_foldl_sent ha w hx⟩

omit [Allocator σ] [LawfulAllocator σ] in
theorem registers_of_prepare {s s₁ s₂ : JobState σ} {pe : PE} (hp : s.pe = some pe)
    (hsv : pe.svmInUse = false) (hst : handleStreamTransfers true true args s = (.ok args', s₁))
    (hs : setArguments 0 args' s₁ = (.ok (), s₂)) :
    ∃ (regs : ByteMem) (pe' : PE), s₂.pe = some pe' ∧ pe'.offset = pe.offset ∧
      s₂.world = { s.world with registers := regs } ∧
      (∀ x < argOffset pe 0, regs x = s.world.registers x) ∧
      ∀ k arg, (args.filter fun arg => !arg.isStream)[k]? = some arg →
        ∃ v, argValue arg = some v ∧ Holds regs (argOffset pe k) v.bytes := by
  obtain ⟨r, xs, heq, hr⟩ := handleStreamTransfers_spec hp true true args
  rw [heq, Prod.mk.injEq] at hst
  obtain ⟨rfl, rfl⟩ := hst
  obtain ⟨rfl, -⟩ : args' = (args.filter fun arg => !arg.isStream) ∧ _ := by simpa using hr
  have ho : (noted pe (xs.map CopyBack.stream)).offset = pe.offset := by
    rw [(noted_eq pe _).1]
  obtain ⟨r, regs, heq, hr, -, hf⟩ := setArguments_spec
    (s := { s with pe := some (noted pe (xs.map CopyBack.stream)) }) rfl 0
    (args.filter fun arg => !arg.isStream)
  rw [heq, Prod.mk.injEq] at hs
  obtain ⟨rfl, rfl⟩ := hs
  have hv : ∀ k arg, (args.filter fun arg => !arg.isStream)[k]? = some arg → ∃ v,
      argValue arg = some v ∧
        Holds regs (argOffset (noted pe (xs.map CopyBack.stream)) k) v.bytes := by
    simpa [svmInUse_noted, hsv, valueOf_false] using hr
  rw [argOffset, ho] at hf
  refine ⟨regs, _, rfl, ho, rfl, hf, fun k arg ha => ?_⟩
  rw [argOffset, ← ho]
  exact hv k arg ha

/-- What the passes and the register loop leave behind: nothing below the argument registers is
written, and the arguments are in place. -/
theorem launched_of_prepare {s s₅ : JobState σ} {pe : PE} {args : List PEParameter}
    {unused : List Buffer} (hpe : s.pe = some pe) (hsvm : pe.svmInUse = false)
    (hvalid : Later s.world s.world) (htyped : ∀ arg ∈ args, arg.WellTyped)
    (hpre : PreallocsLive s.world args) (hprepare : prepare args s = (.ok unused, s₅)) :
    (∃ pe', s₅.pe = some pe' ∧ pe'.offset = pe.offset) ∧
      (∀ x < argOffset pe 0, s₅.world.registers x = s.world.registers x) ∧
      ∀ k arg, (args.filter fun arg => !arg.isStream)[k]? = some arg →
        Launched pe s.world s₅.world k arg := by
  obtain ⟨args₁, s₁, args₂, s₂, args₃, s₃, args₄, s₄, hlocal, halloc, htransfer, hstreams, hset⟩ :=
    exists_passes_of_prepare hprepare
  obtain ⟨rfl, rfl⟩ := map_localize_of_handleLocalMemories hpe hlocal
  have htyped₁ : ∀ arg ∈ args.map (localize pe), arg.WellTyped := fun arg harg => by
    obtain ⟨b, hb, rfl⟩ := mem_map.mp harg
    exact wellTyped_localize (htyped b hb)
  obtain ⟨hstate₂, hlater₂, hplacing⟩ := placed_of_collect hpe hsvm hvalid htyped₁ halloc
  have hpe₂ : s₂.pe = some pe := by rw [hstate₂]; exact hpe
  obtain ⟨r, s', hcollect, hpure⟩ := bind_eq_ok_iff.mp htransfer
  rw [pure_apply, Prod.mk.injEq, Outcome.ok.injEq, Prod.mk.injEq] at hpure
  obtain ⟨⟨rfl, rfl⟩, rfl⟩ := hpure
  obtain ⟨rfl, rfl⟩ := collect_transferArg_ok hpe₂ hcollect
  obtain ⟨regs, pe', hpe', ho, hworld, hbelow, hvalues⟩ :=
    registers_of_prepare rfl ((svmInUse_noted pe _).trans hsvm) hstreams hset
  have hoffset : (noted pe ((preallocs args₂).flatMap (notesOf pe.svmInUse))).offset =
      pe.offset := by
    rw [(noted_eq pe _).1]
  rw [argOffset, hoffset] at hbelow
  have hfst : (args₂.map (registered pe.svmInUse)).map Prod.fst = args₂.map toRegister := map_map
  rw [hfst] at hvalues
  -- the surroundings when the PE is started
  obtain ⟨w, hw⟩ : ∃ w, w = { (preallocs args₂).foldl sent s₂.world with registers := regs } :=
    ⟨_, rfl⟩
  have hallocator : w.allocator = s₂.world.allocator := by
    rw [hw]
    exact (foldl_sent_frame (preallocs args₂) s₂.world).1
  have hlive := liveMap_congr hallocator
  have hlater := hlater₂.congr hallocator
  have hbuffers : ∀ x ∈ preallocs args₂, LiveIn (liveMap w) x ∧
      (x.toDevice = true → DataHeld w x) := by
    rw [hlive, hw]
    exact dataHeld_of_placing hlater₂ hplacing (hpre.map_localize pe).live
      (hpre.map_localize pe).distinct
  rw [hworld, ← hw]
  refine ⟨⟨pe', hpe', ho.trans hoffset⟩, fun x hx => ?_, fun k arg harg => ?_⟩
  · rw [hw, ← congrArg (·.world.registers) hstate₂,
      ← (foldl_sent_frame (preallocs args₂) s₂.world).2]
    exact hbelow x hx
  obtain ⟨arg', hmem, harg', hplaced⟩ := exists_placedAs_of_filter
    (hplacing.pointwise (distinctBases_liveMap hlater₂)) harg
  have hstream : arg ∈ args ∧ arg.isStream = false := by
    simpa using mem_filter.mp (mem_of_getElem? harg)
  obtain ⟨v, hv, hheld⟩ := hvalues k (toRegister arg') harg'
  refine launched_of_placedAs hlater (htyped arg hstream.1) hstream.2 (hlive ▸ hplaced)
    (fun x hx => hbuffers x ?_) hv ?_
  · exact mem_filterMap.mpr ⟨arg', hmem, by rw [hx]; rfl⟩
  · rw [hw, argOffset, ← hoffset]
    exact hheld

/-- **What the hardware sees at launch**: a start prepares the launch and then starts the PE. If it
succeeds, then before the PE is started the start register has not been written, the `k`-th argument
that is not a stream is in argument register `k`, and the data of the transfers to the device is in
device memory; and nothing but the start register is written from there on. -/
theorem launched_of_start {s s' : JobState σ} {pe : PE} {args : List PEParameter}
    {unused : List Buffer} (hpe : s.pe = some pe) (hsvm : pe.svmInUse = false)
    (hvalid : Later s.world s.world) (htyped : ∀ arg ∈ args, arg.WellTyped)
    (hpre : PreallocsLive s.world args) (hstart : start args s = (.ok unused, s')) :
    (start args : JobM σ (List Buffer)) = (do
      let unused ← prepare args
      startPe
      pure unused) ∧
    ∃ (s₁ : JobState σ) (pe' : PE), prepare args s = (.ok unused, s₁) ∧
      (∀ x < argOffset pe 0, s₁.world.registers x = s.world.registers x) ∧
      (∀ k arg, (args.filter fun arg => !arg.isStream)[k]? = some arg →
        Launched pe s.world s₁.world k arg) ∧
      startPe s₁ = (.ok (), s') ∧ s'.pe = some { pe' with active := true } ∧
      s'.world = { s₁.world with
        registers := tapascoWriteVolatile s₁.world.registers pe.offset (.u32 1) } := by
  obtain ⟨s₁, hprepare, hgo⟩ := exists_prepare_of_start hstart
  obtain ⟨⟨pe', hpe', hoffset⟩, hbelow, hlaunched⟩ :=
    launched_of_prepare hpe hsvm hvalid htyped hpre hprepare
  refine ⟨rfl, s₁, pe', hprepare, hbelow, hlaunched, hgo, ?_⟩
  rw [startPe_eq hpe'] at hgo
  split at hgo
  · simp at hgo
  · obtain ⟨-, rfl⟩ := Prod.mk.inj hgo
    exact ⟨rfl, by rw [hoffset]⟩

end

/-- A PE with local memory. -/
def sharedMemoryPe : PE :=
  { id := 0, typeId := 14, offset := 0x1000, active := false, copyBack := none,
    localMemory := some 1, interruptId := 4, svmInUse := false }

/-- A job on the PE, next to an allocator of 1024 bytes for each memory. -/
def sharedMemoryJob : JobState GenericAllocator where
  pe := some sharedMemoryPe
  scheduler := .single { pe := [], localMemory := some 1 }
  world :=
    { allocator := fun _ => { memoryFree := [⟨0, 1024⟩], memoryUsed := [], alignment := 64 }
      poisoned := fun _ => false
      bytes := fun _ _ => 0
      registers := fun _ => 0
      env := { copyTo := fun _ => .done, copyFrom := fun _ => .done,
               stream := fun _ => .finished [] }
      copyTos := 0
      copyFroms := 0
      joins := 0 }

/-- A value, two buffers in the same memory, and a stream between them. -/
def sharedMemoryArgs : List PEParameter :=
  [.single32 7,
   .dataTransferAlloc { data := ⟨0x5000, [1, 2, 3]⟩, fromDevice := false, toDevice := true,
                        memory := 1, free := true, fixed := none },
   .dataTransferStream { data := ⟨0x6000, [9]⟩, memory := 0, c2h := false },
   .dataTransferLocal { data := ⟨0x7000, [4, 5]⟩, fromDevice := true, toDevice := true,
                        free := true, fixed := none }]

theorem later_sharedMemoryJob : Later sharedMemoryJob.world sharedMemoryJob.world := fun _ =>
  GenericAllocator.later_new (show GenericAllocator.new 0 1024 64 = .ok _ from rfl)
    (by decide) (by decide)

theorem launched_of_start_shared_memory :
    ∃ (s₁ : JobState GenericAllocator) (pe' : PE),
      prepare sharedMemoryArgs sharedMemoryJob = (.ok [⟨0x5000, [1, 2, 3]⟩], s₁) ∧
      (∀ x < argOffset sharedMemoryPe 0, s₁.world.registers x = 0) ∧
      (∀ k arg, (sharedMemoryArgs.filter fun arg => !arg.isStream)[k]? = some arg →
        Launched sharedMemoryPe sharedMemoryJob.world s₁.world k arg) ∧
      startPe s₁ = (.ok (), (start sharedMemoryArgs sharedMemoryJob).2) ∧
      (start sharedMemoryArgs sharedMemoryJob).2.pe = some { pe' with active := true } ∧
      (start sharedMemoryArgs sharedMemoryJob).2.world = { s₁.world with
        registers := tapascoWriteVolatile s₁.world.registers 0x1000 (.u32 1) } := by
  have hresult : (start sharedMemoryArgs sharedMemoryJob).1 = .ok [⟨0x5000, [1, 2, 3]⟩] := by
    rfl
  have hnone : preallocs sharedMemoryArgs = [] := by decide
  have hpre : PreallocsLive sharedMemoryJob.world sharedMemoryArgs :=
    ⟨by simp [hnone], by rw [hnone]; exact List.Pairwise.nil⟩
  exact (launched_of_start rfl rfl later_sharedMemoryJob
    (by simp [sharedMemoryArgs, PEParameter.WellTyped]) hpre (Prod.ext hresult rfl)).2

end Job

end Tapasco
