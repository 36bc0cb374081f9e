import Tapasco.AllocatorSpec
import Tapasco.Job

/-!
# The Passes of a Launch

This module says what each pass of `Job::start` does, as one lemma a pass, for a job that has its PE
and does not use shared virtual memory. Later proofs use these descriptions only.
-/

open Exec FreeList List

namespace Tapasco

open LawfulAllocator PEParameter

/-! ### Kinds of parameters -/

namespace PEParameter

def isLocal : PEParameter → Bool
  | .dataTransferLocal _ => true
  | _ => false

/-- A transfer that needs device memory. -/
def isAlloc : PEParameter → Bool
  | .dataTransferAlloc _ => true
  | _ => false

def isStream : PEParameter → Bool
  | .dataTransferStream _ => true
  | _ => false

/-- The preallocated transfer, if the parameter is one. -/
def asPrealloc : PEParameter → Option DataTransferPrealloc
  | .dataTransferPrealloc x => some x
  | _ => none

theorem eq_of_asPrealloc {arg : PEParameter} {x : DataTransferPrealloc}
    (h : arg.asPrealloc = some x) : arg = .dataTransferPrealloc x := by
  cases arg <;> simp_all [asPrealloc]

def asStream : PEParameter → Option DataTransferStream
  | .dataTransferStream x => some x
  | _ => none

/-- What the types of the source guarantee: an address is a 64-bit word, and a slice has
less than `2 ^ 63` bytes. -/
def WellTyped : PEParameter → Prop
  | .deviceAddress a => a < 2 ^ 64
  | .dataTransferLocal x => x.data.bytes.length < 2 ^ 63
  | .dataTransferAlloc x => x.data.bytes.length < 2 ^ 63
  | .dataTransferPrealloc x => x.data.bytes.length < 2 ^ 63
  | _ => True

end PEParameter

def preallocs (args : List PEParameter) : List DataTransferPrealloc :=
  args.filterMap asPrealloc

/-- The transfer to local memory with its memory filled in. -/
def DataTransferLocal.inMemory (x : DataTransferLocal) (m : MemId) : DataTransferAlloc :=
  { data := x.data, fromDevice := x.fromDevice, toDevice := x.toDevice, memory := m,
    free := x.free, fixed := x.fixed }

/-- The transfer with the address it was given. -/
def DataTransferAlloc.placedAt (x : DataTransferAlloc) (a : DeviceAddress) : DataTransferPrealloc :=
  { data := x.data, deviceAddress := a, fromDevice := x.fromDevice, toDevice := x.toDevice,
    memory := x.memory, free := x.free }

namespace Job

variable {σ : Type}

variable {s : JobState σ} {pe : PE} {arg : PEParameter}
  {args args' : List PEParameter} {s' : JobState σ} {x : DataTransferPrealloc}

theorem thePe_of_some (hpe : s.pe = some pe) : thePe s = (.ok pe, s) := by
  rw [thePe, hpe]

theorem giveBack_of_ok {sched : JobScheduler} (hpe : s.pe = some pe)
    (h : s.scheduler.releasePe pe = (.ok (), sched)) :
    giveBack s = (.ok (), { s with pe := none, scheduler := sched }) :=
  (bind_of_ok (thePe_of_some hpe)).trans (by rw [h])

theorem addCopyback_of_some (hpe : s.pe = some pe) (param : CopyBack) :
    addCopyback param s = (.ok (), { s with pe := some (pe.addCopyback param) }) :=
  bind_of_ok (thePe_of_some hpe)

/-! ### Local memories -/

/-- The parameter after the first pass. -/
def localize (pe : PE) : PEParameter → PEParameter
  | .dataTransferLocal x =>
    match pe.localMemory with
    | some m => .dataTransferAlloc (x.inMemory m)
    | none => .dataTransferLocal x
  | arg => arg

section

variable {s : JobState σ} {pe : PE} (hpe : s.pe = some pe)

include hpe

theorem localArg_eq_ok {arg : PEParameter} (h : arg.isLocal = true → pe.localMemory ≠ none) :
    localArg arg s = (.ok (localize pe arg), s) := by
  cases arg with
  | dataTransferLocal x =>
    obtain ⟨m, hm⟩ := Option.ne_none_iff_exists'.mp (h rfl)
    simp only [localArg, localize, hm]
    rw [bind_of_ok (thePe_of_some hpe)]
    simp only [hm]
    rfl
  | _ => rfl

theorem localArg_eq_err {arg : PEParameter} (h : arg.isLocal = true)
    (hn : pe.localMemory = none) : localArg arg s = (.err .noLocalMemory, s) := by
  cases arg with
  | dataTransferLocal x =>
    rw [localArg, bind_of_ok (thePe_of_some hpe)]
    simp only [hn]
    rfl
  | _ => exact absurd h (by simp [isLocal])

theorem handleLocalMemories_eq_ok (h : ∀ arg ∈ args, arg.isLocal = true → pe.localMemory ≠ none) :
    handleLocalMemories args s = (.ok (args.map (localize pe)), s) := by
  rw [handleLocalMemories]
  induction args with
  | nil => rfl
  | cons arg args ih =>
    rw [forall_mem_cons] at h
    exact collect_eq_ok_cons.mpr
      ⟨_, s, _, localArg_eq_ok hpe h.1, ih h.2, map_cons⟩

theorem handleLocalMemories_eq_err (h : ∃ arg ∈ args, arg.isLocal = true)
    (hn : pe.localMemory = none) : handleLocalMemories args s = (.err .noLocalMemory, s) := by
  rw [handleLocalMemories]
  induction args with
  | nil => simp at h
  | cons arg args ih =>
    cases hl : arg.isLocal with
    | true => exact collect_eq_err_cons.mpr (.inl (localArg_eq_err hpe hl hn))
    | false =>
      refine collect_eq_err_cons.mpr (.inr ⟨_, s, localArg_eq_ok hpe ?_, ih ?_⟩)
      · exact fun ht => absurd (hl.symm.trans ht) (by simp)
      · obtain ⟨b, hb, hbl⟩ := h
        rcases mem_cons.mp hb with rfl | hb
        · exact absurd (hl.symm.trans hbl) (by simp)
        · exact ⟨b, hb, hbl⟩

end

theorem map_localize_of_handleLocalMemories (hpe : s.pe = some pe)
    (h : handleLocalMemories args s = (.ok args', s')) :
    args' = args.map (localize pe) ∧ s' = s := by
  by_cases hl : ∀ arg ∈ args, arg.isLocal = true → pe.localMemory ≠ none
  · rw [handleLocalMemories_eq_ok hpe hl, Prod.mk.injEq, Outcome.ok.injEq] at h
    exact ⟨h.1.symm, h.2.symm⟩
  push Not at hl
  obtain ⟨arg, ha, hi, hn⟩ := hl
  rw [handleLocalMemories_eq_err hpe ⟨arg, ha, hi⟩ hn] at h
  simp at h

theorem isLocal_localize (h : arg.isLocal = true → pe.localMemory ≠ none) :
    (localize pe arg).isLocal = false := by
  cases arg with
  | dataTransferLocal x =>
    obtain ⟨m, hm⟩ := Option.ne_none_iff_exists'.mp (h rfl)
    simp only [localize, hm]
    rfl
  | _ => rfl

theorem not_isLocal_of_handleLocalMemories (hpe : s.pe = some pe)
    (h : handleLocalMemories args s = (.ok args', s')) : ∀ arg ∈ args', arg.isLocal = false := by
  intro arg' ha'
  obtain ⟨rfl, rfl⟩ := map_localize_of_handleLocalMemories hpe h
  obtain ⟨arg, ha, rfl⟩ := mem_map.mp ha'
  refine isLocal_localize fun hl hn => ?_
  rw [handleLocalMemories_eq_err hpe ⟨arg, ha, hl⟩ hn] at h
  simp at h

/-! ### Allocations -/

/-- What the allocation pass does to the live segments of the memories: each transfer that
needs memory adds a segment that is large enough, at the fixed address if it has one. -/
inductive Placing : (MemId → List Segment) → List PEParameter → List PEParameter →
    (MemId → List Segment) → Prop
  | nil (L : MemId → List Segment) : Placing L [] [] L
  | keep {L L' : MemId → List Segment} {arg : PEParameter} {args args' : List PEParameter}
      (harg : arg.isAlloc = false) (h : Placing L args args' L') :
      Placing L (arg :: args) (arg :: args') L'
  | place {L L' : MemId → List Segment} {x : DataTransferAlloc} {a k : ℕ}
      {args args' : List PEParameter} (hk : x.data.bytes.length ≤ k)
      (hfixed : ∀ o, x.fixed = some o → a = o)
      (h : Placing (Function.update L x.memory (L x.memory ++ [⟨a, k⟩])) args args' L') :
      Placing L (.dataTransferAlloc x :: args) (.dataTransferPrealloc (x.placedAt a) :: args') L'

section

variable [Allocator σ] [LawfulAllocator σ]

/-- The live segments of all memories. -/
def liveMap (w : World σ) : MemId → List Segment := fun m =>
  live (w.allocator m)

/-- All allocators are in states that the allocators of `w₀` can reach. -/
def Later (w₀ w : World σ) : Prop :=
  ∀ m, LawfulAllocator.Later (w₀.allocator m) (w.allocator m)

theorem liveMap_congr {w w' : World σ} (h : w.allocator = w'.allocator) : liveMap w = liveMap w' :=
  funext fun m => congrArg live (congrFun h m)

theorem Later.congr {w₀ w w' : World σ} (hlater : Later w₀ w') (h : w.allocator = w'.allocator) :
    Later w₀ w := by
  rw [Later, h]
  exact hlater

omit [LawfulAllocator σ] in
theorem allocateArg_of_not_isAlloc {arg : PEParameter} (h : arg.isAlloc = false)
    (s : JobState σ) : allocateArg arg s = (.ok arg, s) := by
  cases arg with
  | dataTransferAlloc x => exact absurd h (by simp [isAlloc])
  | _ => rfl

variable {s : JobState σ}

omit [LawfulAllocator σ] in
theorem exists_of_allocateArg_err {arg : PEParameter} {e : JobError}
    (h : allocateArg arg s = (.err e, s')) :
    ∃ x, arg = .dataTransferAlloc x ∧ allocateFor x s = (.err e, s') := by
  cases hk : arg.isAlloc with
  | false =>
    rw [allocateArg_of_not_isAlloc hk] at h
    simp at h
  | true =>
    cases arg with
    | dataTransferAlloc x =>
      rcases bind_eq_err_iff.mp h with h | ⟨a, s₁, -, hp⟩
      · exact ⟨x, rfl, h⟩
      · simp at hp
    | _ => exact absurd hk (by simp [isAlloc])

omit [Allocator σ] [LawfulAllocator σ] in
theorem setAllocator_self (w : World σ) (m : MemId) : w.setAllocator m (w.allocator m) = w := by
  rw [World.setAllocator, Function.update_eq_self]

theorem liveMap_setAllocator (w : World σ) (m : MemId) (a : σ) :
    liveMap (w.setAllocator m a) = Function.update (liveMap w) m (live a) := by
  funext n
  by_cases h : n = m
  · subst h
    simp [liveMap, World.setAllocator]
  · simp [liveMap, World.setAllocator, h]

theorem Later.setAllocator {w₀ w : World σ} (h : Later w₀ w) {m : MemId} {a : σ}
    (ha : LawfulAllocator.Later (w₀.allocator m) a) : Later w₀ (w.setAllocator m a) := by
  intro n
  by_cases hn : n = m
  · subst hn
    simpa [World.setAllocator] using ha
  · simpa [World.setAllocator, hn] using h n

omit [Allocator σ] [LawfulAllocator σ] in
theorem exists_of_withAllocator_eq_ok {α : Type} {m : MemId} {f : σ → Except AllocatorError α × σ}
    {a : α} (h : withAllocator m f s = (.ok a, s')) :
    s.world.poisoned m = false ∧ ∃ b, f (s.world.allocator m) = (.ok a, b) ∧
      s' = { s with world := s.world.setAllocator m b } := by
  rw [withAllocator] at h
  cases hp : s.world.poisoned m with
  | true =>
    rw [if_pos hp] at h
    simp at h
  | false =>
    rw [hp, if_neg Bool.false_ne_true] at h
    match hf : f (s.world.allocator m) with
    | (.ok a', b) =>
      simp only [hf, Prod.mk.injEq, Outcome.ok.injEq] at h
      exact ⟨rfl, b, by rw [h.1], h.2.symm⟩
    | (.error e, b) =>
      simp only [hf, Prod.mk.injEq] at h
      exact absurd h.1 (by simp)

/-- The request that a transfer makes to the allocator of its memory. -/
def request (x : DataTransferAlloc) (a : σ) : Except AllocatorError DeviceAddress × σ :=
  match x.fixed with
  | some offset => Allocator.allocateFixed a x.data.bytes.length offset
  | none => Allocator.allocate a x.data.bytes.length (some x.data.ptr)

theorem request_cases {a b : σ} (h : LawfulAllocator.Later a b) {x : DataTransferAlloc}
    (hl : x.data.bytes.length < 2 ^ 63) :
    (∃ e, request x b = (.error e, b)) ∨
      ∃ addr k b', request x b = (.ok addr, b') ∧ x.data.bytes.length ≤ k ∧
        (∀ o, x.fixed = some o → addr = o) ∧
        live b' = live b ++ [⟨addr, k⟩] ∧
        LawfulAllocator.Later a b' := by
  cases hf : x.fixed with
  | none =>
    simp only [request, hf]
    rcases allocate h hl (some x.data.ptr) with
      he | ⟨addr, k, b', hok, hk, hli, hb'⟩
    · exact .inl he
    · exact .inr ⟨addr, k, b', hok, hk, by simp, hli, hb'⟩
  | some offset =>
    simp only [request, hf]
    rcases allocateFixed h hl offset with he | ⟨k, b', hok, hk, hli, hb'⟩
    · exact .inl he
    · exact .inr ⟨offset, k, b', hok, hk, fun o ho => Option.some.inj ho, hli, hb'⟩

omit [LawfulAllocator σ] in
theorem allocateFor_eq {pe : PE} (hpe : s.pe = some pe) (hsvm : pe.svmInUse = false)
    (x : DataTransferAlloc) : allocateFor x s = withAllocator x.memory (request x) s := by
  refine (bind_of_ok (thePe_of_some hpe)).trans ?_
  rw [hsvm, if_neg Bool.false_ne_true]
  cases hf : x.fixed with
  | none => simp only [withAllocator, request, hf]
  | some offset => simp only [withAllocator, request, hf]

section

variable {w₀ : World σ} {s : JobState σ} {pe : PE} (hpe : s.pe = some pe)
  (hsvm : pe.svmInUse = false) (hlater : Later w₀ s.world)

include hpe hsvm hlater

theorem allocateFor_cases {x : DataTransferAlloc} (hl : x.data.bytes.length < 2 ^ 63) :
    (∃ e, allocateFor x s = (.err e, s)) ∨
      ∃ a k b, allocateFor x s = (.ok a, { s with world := s.world.setAllocator x.memory b }) ∧
        x.data.bytes.length ≤ k ∧ (∀ o, x.fixed = some o → a = o) ∧
        live b = live (s.world.allocator x.memory) ++ [⟨a, k⟩] ∧
        LawfulAllocator.Later (w₀.allocator x.memory) b := by
  rw [allocateFor_eq hpe hsvm]
  by_cases hp : s.world.poisoned x.memory = true
  · exact .inl ⟨.mutexError, if_pos hp⟩
  rcases request_cases (hlater x.memory) hl with ⟨e, he⟩ | ⟨a, k, b, hok, hs⟩
  · refine .inl ⟨.allocatorError e, ?_⟩
    simp only [withAllocator, if_neg hp, he, setAllocator_self]
  · refine .inr ⟨a, k, b, ?_, hs⟩
    simp only [withAllocator, if_neg hp, hok]

theorem eq_of_allocateArg_err {arg : PEParameter} (ht : arg.WellTyped) {e : JobError}
    (h : allocateArg arg s = (.err e, s')) : s' = s := by
  obtain ⟨x, rfl, hx⟩ := exists_of_allocateArg_err h
  rcases allocateFor_cases hpe hsvm hlater ht with ⟨e', he⟩ | ⟨a, k, b, hok, -⟩
  · rw [he, Prod.mk.injEq] at hx
    exact hx.2.symm
  · exact absurd (hok.symm.trans hx) (by simp)

end

/-- Only the allocators changed, and only by placing the transfers of `args`. -/
structure Placed (w₀ : World σ) (s s' : JobState σ) (args args' : List PEParameter) : Prop where
  state : s' = { s with world := { s.world with allocator := s'.world.allocator } }
  later : Later w₀ s'.world
  placing : Placing (liveMap s.world) args args' (liveMap s'.world)

/-- **The allocation pass** places the transfers that need memory, in order. -/
theorem placed_of_collect {w₀ : World σ} {pe : PE} (hpe : s.pe = some pe)
    (hsvm : pe.svmInUse = false) (hlater : Later w₀ s.world) (ht : ∀ arg ∈ args, arg.WellTyped)
    (h : collect allocateArg args s = (.ok args', s')) : Placed w₀ s s' args args' := by
  induction args generalizing s args' with
  | nil =>
    obtain ⟨rfl, rfl⟩ := ok_inj h
    exact ⟨rfl, hlater, .nil _⟩
  | cons arg args ih =>
    rw [forall_mem_cons] at ht
    obtain ⟨arg', s₁, args₁, har, hr, rfl⟩ := collect_eq_ok_cons.mp h
    cases arg with
    | dataTransferAlloc x =>
      rw [allocateArg] at har
      obtain ⟨a, s₂, ha, hpu⟩ := bind_eq_ok_iff.mp har
      obtain ⟨rfl, rfl⟩ := ok_inj hpu
      rcases allocateFor_cases hpe hsvm hlater ht.1 with
        ⟨e, he⟩ | ⟨a', k, b, hok, hk, hf, hl, hb⟩
      · exact absurd (ha.symm.trans he) (by simp)
      rw [hok] at ha
      obtain ⟨rfl, rfl⟩ := ok_inj ha
      obtain ⟨hs, hl', hp⟩ :=
        ih (s := { s with world := s.world.setAllocator x.memory b }) hpe
          (hlater.setAllocator hb) ht.2 hr
      refine ⟨?_, hl', .place hk hf ?_⟩
      · rw [hs]
        rfl
      · rw [liveMap_setAllocator, hl] at hp
        exact hp
    | _ =>
      rw [allocateArg_of_not_isAlloc rfl] at har
      obtain ⟨rfl, rfl⟩ := ok_inj har
      obtain ⟨hs, hl', hp⟩ := ih hpe hlater ht.2 hr
      exact ⟨hs, hl', .keep rfl hp⟩

end

/-! ### Transfers to the device -/

/-- What is noted at the PE for a transfer. -/
def noteOf (x : DataTransferPrealloc) : List CopyBack :=
  if x.fromDevice then [.transfer x]
  else if x.free then [.free x.deviceAddress x.memory] else []

/-- What is noted at the PE for a transfer, with or without shared virtual memory. -/
def notesOf (svm : Bool) (x : DataTransferPrealloc) : List CopyBack :=
  if svm && !x.fromDevice then [.returned x] else noteOf x

/-- The buffer that goes back to the caller at once. -/
def unusedOf : PEParameter → List Buffer
  | .dataTransferPrealloc x => if x.fromDevice then [] else [x.data]
  | _ => []

/-- The parameter after the third pass. -/
def toRegister : PEParameter → PEParameter
  | .dataTransferPrealloc x => .deviceAddress x.deviceAddress
  | arg => arg

/-- The DMA engine carries out the next transfer, if one is made. -/
def CopyOk (w : World σ) (x : DataTransferPrealloc) : Prop :=
  x.toDevice = true → w.env.copyTo w.copyTos = .done

/-- The surroundings after the data of a transfer was sent. -/
def sent (w : World σ) (x : DataTransferPrealloc) : World σ :=
  if x.toDevice then
    { w with copyTos := w.copyTos + 1 }.write x.memory x.deviceAddress x.data.bytes
  else w

def noted (pe : PE) (notes : List CopyBack) : PE :=
  notes.foldl PE.addCopyback pe

/-- The job after a transfer was sent and noted. -/
def transferred (s : JobState σ) (x : DataTransferPrealloc) : JobState σ :=
  { s with pe := s.pe.map fun pe => noted pe (noteOf x), world := sent s.world x }

theorem noted_append (pe : PE) (l l' : List CopyBack) :
    noted pe (l ++ l') = noted (noted pe l) l' :=
  foldl_append

theorem noted_eq (pe : PE) (notes : List CopyBack) :
    noted pe notes = { pe with copyBack := (noted pe notes).copyBack } ∧
      (noted pe notes).copyBack.getD [] = pe.copyBack.getD [] ++ notes := by
  induction notes generalizing pe with
  | nil => exact ⟨rfl, (append_nil _).symm⟩
  | cons c notes ih =>
    obtain ⟨heq, hn⟩ := ih (pe.addCopyback c)
    refine ⟨heq, hn.trans ?_⟩
    rw [PE.addCopyback, Option.getD_some, append_assoc]
    rfl

section

variable {s : JobState σ} {pe : PE} (hpe : s.pe = some pe)

include hpe

theorem noteTransfer_eq (x : DataTransferPrealloc) :
    noteTransfer x s =
      (.ok (if pe.svmInUse then [] else unusedOf (.dataTransferPrealloc x)),
        { s with pe := some (noted pe (notesOf pe.svmInUse x)) }) := by
  rw [noteTransfer, bind_of_ok (thePe_of_some hpe), notesOf, noteOf, unusedOf]
  cases pe.svmInUse <;> cases x.fromDevice
  case false.false =>
    cases x.free with
    | false =>
      rw [← show { s with pe := some pe } = s by rw [← hpe]]
      rfl
    | true => exact bind_of_ok (addCopyback_of_some hpe _)
  all_goals exact bind_of_ok (addCopyback_of_some hpe _)

theorem transferArg_eq_ok (hc : CopyOk s.world x) :
    transferArg (.dataTransferPrealloc x) s =
      (.ok (.deviceAddress x.deviceAddress,
          if pe.svmInUse then [] else unusedOf (.dataTransferPrealloc x)),
        { s with pe := some (noted pe (notesOf pe.svmInUse x)), world := sent s.world x }) := by
  have hn := noteTransfer_eq (s := { s with world := sent s.world x }) hpe x
  rw [transferArg]
  by_cases ht : x.toDevice = true
  · have hd : copyTo x.memory x.data.bytes x.deviceAddress s =
        (.ok (), { s with world := sent s.world x }) := by
      rw [sent, if_pos ht]
      simp only [copyTo, hc ht]
    rw [if_pos ht]
    exact (bind_of_ok hd).trans (bind_of_ok hn)
  · rw [sent, if_neg ht] at hn ⊢
    rw [if_neg ht]
    exact bind_of_ok hn

theorem transferArg_eq_transferred (hsvm : pe.svmInUse = false)
    (hc : CopyOk s.world x) : transferArg (.dataTransferPrealloc x) s =
      (.ok (.deviceAddress x.deviceAddress, unusedOf (.dataTransferPrealloc x)),
        transferred s x) := by
  rw [transferArg_eq_ok hpe hc, hsvm, transferred, hpe]
  rfl

omit hpe in
theorem transferArg_eq_err (hc : ¬ CopyOk s.world x) :
    ∃ b, transferArg (.dataTransferPrealloc x) s = (.err .dmaError,
      { s with world := { s.world with copyTos := s.world.copyTos + 1, bytes := b } }) := by
  rw [CopyOk, Classical.not_imp] at hc
  obtain ⟨ht, hne⟩ := hc
  cases hr : s.world.env.copyTo s.world.copyTos with
  | done => exact absurd hr hne
  | failed n =>
    refine ⟨(s.world.write x.memory x.deviceAddress (x.data.bytes.take n)).bytes, ?_⟩
    rw [transferArg, if_pos ht]
    refine bind_of_err ?_
    simp only [copyTo, hr]
    rfl

end

theorem transferArg_of_asPrealloc_none (h : arg.asPrealloc = none) (s : JobState σ) :
    transferArg arg s = (.ok (toRegister arg, unusedOf arg), s) := by
  cases arg with
  | dataTransferPrealloc x => exact absurd h (by simp [asPrealloc])
  | _ => rfl

theorem preallocs_cons_of_none (h : arg.asPrealloc = none) (args : List PEParameter) :
    preallocs (arg :: args) = preallocs args :=
  filterMap_cons_none h

theorem preallocs_cons_prealloc (x : DataTransferPrealloc) (args : List PEParameter) :
    preallocs (.dataTransferPrealloc x :: args) = x :: preallocs args := rfl

theorem svmInUse_noted (pe : PE) (notes : List CopyBack) :
    (noted pe notes).svmInUse = pe.svmInUse := by
  rw [(noted_eq pe notes).1]

theorem active_noted (pe : PE) (notes : List CopyBack) : (noted pe notes).active = pe.active := by
  rw [(noted_eq pe notes).1]

theorem pe_transferred (hpe : s.pe = some pe) (x : DataTransferPrealloc) :
    (transferred s x).pe = some (noted pe (noteOf x)) := by
  rw [transferred, hpe]
  rfl

theorem env_sent (w : World σ) (x : DataTransferPrealloc) : (sent w x).env = w.env := by
  rw [sent]
  split <;> rfl

/-- What the third pass makes of a parameter, and the buffer that it returns for it. -/
def registered (svm : Bool) (arg : PEParameter) : PEParameter × List Buffer :=
  (toRegister arg, if svm then [] else unusedOf arg)

/-- **The transfer pass** sends and notes the transfers in order, unless a copy fails. -/
theorem collect_transferArg_cases (hpe : s.pe = some pe) (args : List PEParameter) :
    ((∃ i, s.world.env.copyTo i ≠ .done) ∧
        ∃ s', collect transferArg args s = (.err .dmaError, s')) ∨
      collect transferArg args s = (.ok (args.map (registered pe.svmInUse)), { s with
        pe := some (noted pe ((preallocs args).flatMap (notesOf pe.svmInUse)))
        world := (preallocs args).foldl sent s.world }) := by
  induction args generalizing s pe with
  | nil =>
    refine .inr ?_
    rw [collect_nil, preallocs, filterMap_nil, flatMap_nil, noted, foldl_nil, ← hpe]
    rfl
  | cons arg args ih =>
    cases hx : arg.asPrealloc with
    | none =>
      have ha : transferArg arg s = (.ok (registered pe.svmInUse arg), s) := by
        cases arg with
        | dataTransferPrealloc x => simp [asPrealloc] at hx
        | _ => cases hv : pe.svmInUse <;> rfl
      rw [preallocs_cons_of_none hx]
      rcases ih hpe with ⟨hn, s', hs⟩ | hok
      · exact .inl ⟨hn, s', collect_eq_err_cons.mpr (.inr ⟨_, s, ha, hs⟩)⟩
      · exact .inr (collect_eq_ok_cons.mpr ⟨_, s, _, ha, hok, rfl⟩)
    | some x =>
      obtain rfl := eq_of_asPrealloc hx
      by_cases hc : CopyOk s.world x
      · have ha := transferArg_eq_ok hpe hc
        rcases ih (s := { s with
          pe := some (noted pe (notesOf pe.svmInUse x)), world := sent s.world x }) rfl with
          ⟨hn, s', hs⟩ | hok
        · rw [env_sent] at hn
          exact .inl ⟨hn, s', collect_eq_err_cons.mpr (.inr ⟨_, _, ha, hs⟩)⟩
        · rw [svmInUse_noted, ← noted_append] at hok
          exact .inr (collect_eq_ok_cons.mpr ⟨_, _, _, ha, hok, rfl⟩)
      · obtain ⟨b, hb⟩ := transferArg_eq_err hc
        exact .inl ⟨⟨_, (Classical.not_imp.mp hc).2⟩, _, collect_eq_err_cons.mpr (.inl hb)⟩

theorem collect_transferArg_ok (hpe : s.pe = some pe) {r : List (PEParameter × List Buffer)}
    (h : collect transferArg args s = (.ok r, s')) :
    r = args.map (registered pe.svmInUse) ∧ s' = { s with
      pe := some (noted pe ((preallocs args).flatMap (notesOf pe.svmInUse)))
      world := (preallocs args).foldl sent s.world } := by
  obtain ⟨-, s₁, he⟩ | hok := collect_transferArg_cases hpe args
  · exact absurd (h.symm.trans he) (by simp)
  · exact ok_inj (h.symm.trans hok)

/-! ### Streams -/

theorem handleStreamTransfers_cons (h : arg.isStream = false) (c2h h2c : Bool)
    (args : List PEParameter) (s : JobState σ) :
    handleStreamTransfers c2h h2c (arg :: args) s =
      (handleStreamTransfers c2h h2c args >>= fun rest => pure (arg :: rest)) s := by
  cases arg with
  | dataTransferStream x => exact absurd h (by simp [isStream])
  | _ => rfl

/-- **The stream pass** notes the streams and takes them out of the list, unless there are too many.
-/
theorem handleStreamTransfers_spec (hpe : s.pe = some pe) (c2h h2c : Bool)
    (args : List PEParameter) :
    ∃ r xs, handleStreamTransfers c2h h2c args s =
        (r, { s with pe := some (noted pe (xs.map CopyBack.stream)) }) ∧
      (r = .ok (args.filter fun arg => !arg.isStream) ∧ xs = args.filterMap asStream ∨
        r = .err .tooManyStreams ∧ (∃ arg ∈ args, arg.isStream = true) ∧
          (c2h = true → h2c = true → xs ≠ [])) := by
  have hs : { s with pe := some (noted pe ([].map CopyBack.stream)) } = s := by
    rw [map_nil, noted, foldl_nil, ← hpe]
  fun_induction handleStreamTransfers (σ := σ) c2h h2c args generalizing s pe with
  | case1 => exact ⟨.ok [], [], by rw [hs]; rfl, .inl ⟨rfl, rfl⟩⟩
  | case2 c2h h2c args x hm ih =>
    obtain ⟨r, xs, heq, hr⟩ := ih (s := { s with pe := some (pe.addCopyback (.stream x)) }) rfl rfl
    refine ⟨r, x :: xs, (bind_of_ok (addCopyback_of_some hpe _)).trans heq, hr.imp ?_ ?_⟩
    · rintro ⟨rfl, rfl⟩
      exact ⟨rfl, rfl⟩
    · exact fun h => ⟨h.1, ⟨_, mem_cons_self, rfl⟩, fun _ _ => cons_ne_nil x xs⟩
  | case3 c2h h2c args x hm =>
    refine ⟨.err .tooManyStreams, [], by rw [hs]; rfl, .inr ⟨rfl, ⟨_, mem_cons_self, rfl⟩, ?_⟩⟩
    rintro rfl rfl
    simp at hm
  | case4 c2h h2c args arg hno ih =>
    obtain ⟨r, xs, heq, ⟨rfl, rfl⟩ | ⟨rfl, hex, hne⟩⟩ := ih hpe hs
    · refine ⟨_, _, bind_of_ok heq, .inl ?_⟩
      cases arg with
      | dataTransferStream x => exact absurd rfl (hno x)
      | _ => exact ⟨rfl, rfl⟩
    · exact ⟨_, xs, bind_of_err heq,
        .inr ⟨rfl, hex.imp fun b hb => ⟨mem_cons_of_mem _ hb.1, hb.2⟩, hne⟩⟩

/-! ### Argument registers -/

def argOffset (pe : PE) (k : ℕ) : ℕ :=
  pe.offset + 0x20 + k * 0x10

/-- The value a parameter puts into its register. -/
def argValue : PEParameter → Option ValType
  | .single32 x => some (.u32 x)
  | .single64 x => some (.u64 x)
  | .deviceAddress a => some (.u64 (BitVec.ofNat 64 a))
  | _ => none

/-- The value that a parameter puts into its register. A virtual address is one if shared virtual
memory is used. -/
def valueOf (svm : Bool) : PEParameter → Option ValType
  | .virtualAddress p => if svm then some (.u64 (BitVec.ofNat 64 p)) else none
  | arg => argValue arg

theorem valueOf_false (arg : PEParameter) : valueOf false arg = argValue arg := by
  cases arg <;> rfl

section

variable {s : JobState σ} {pe : PE} (hpe : s.pe = some pe)

include hpe

theorem setArgument_cases (i : ℕ) (arg : PEParameter) :
    (∃ v, valueOf pe.svmInUse arg = some v ∧ setArgument i arg s = (.ok (), { s with world :=
        { s.world with registers :=
          tapascoWriteVolatile s.world.registers (argOffset pe i) v } })) ∨
      valueOf pe.svmInUse arg = none ∧ ∃ e, setArgument i arg s = (.err e, s) := by
  cases arg with
  | single32 _ | single64 _ | deviceAddress _ =>
    exact .inl ⟨_, rfl, bind_of_ok (thePe_of_some hpe)⟩
  | virtualAddress p =>
    have hg : setArgument i (.virtualAddress p) s = _ := bind_of_ok (thePe_of_some hpe)
    rw [hg]
    cases hsvm : pe.svmInUse with
    | false => exact .inr ⟨rfl, _, rfl⟩
    | true => exact .inl ⟨_, rfl, bind_of_ok (thePe_of_some hpe)⟩
  | _ => exact .inr ⟨rfl, _, rfl⟩

/-- **The register loop** writes each value to its own register and nothing below the first one; it
may fail at a parameter that is no register value, after it has written the values before. -/
theorem setArguments_spec (i : ℕ) (args : List PEParameter) :
    ∃ r regs, setArguments i args s =
        (r, { s with world := { s.world with registers := regs } }) ∧
      (r = .ok () ∧ (∀ k arg, args[k]? = some arg → ∃ v, valueOf pe.svmInUse arg = some v ∧
          ByteMem.Holds regs (argOffset pe (i + k)) v.bytes) ∨ ∃ e, r = .err e) ∧
      (∀ arg rest v, args = arg :: rest → valueOf pe.svmInUse arg = some v →
        ByteMem.Holds regs (argOffset pe i) v.bytes) ∧
      ∀ x < argOffset pe i, regs x = s.world.registers x := by
  induction args generalizing s i with
  | nil => exact ⟨.ok (), s.world.registers, rfl, .inl ⟨rfl, by simp⟩, by simp, fun _ _ => rfl⟩
  | cons arg args ih =>
    rcases setArgument_cases hpe i arg with ⟨v, hv, hs⟩ | ⟨hv, e, he⟩
    · obtain ⟨r, regs, heq, hr, -, hf⟩ := ih (s := { s with world :=
        { s.world with registers :=
          tapascoWriteVolatile s.world.registers (argOffset pe i) v } }) hpe (i + 1)
      have hn : argOffset pe (i + 1) = argOffset pe i + 0x10 := by
        simp only [argOffset]
        omega
      have hl := v.length_bytes_le
      have hh : ByteMem.Holds regs (argOffset pe i) v.bytes :=
        (ByteMem.holds_writeBytes s.world.registers _ v.bytes).congr fun x _ hx =>
          hf x (by omega)
      refine ⟨r, regs, (bind_of_ok hs).trans heq, hr.imp_left ?_, ?_, fun x hx => ?_⟩
      · rintro ⟨rfl, hva⟩
        refine ⟨rfl, fun k b hb => ?_⟩
        cases k with
        | zero =>
          obtain rfl : arg = b := Option.some.inj hb
          exact ⟨v, hv, hh⟩
        | succ k =>
          obtain ⟨u, hu, hh'⟩ := hva k b hb
          rw [show i + (k + 1) = i + 1 + k by omega]
          exact ⟨u, hu, hh'⟩
      · rintro _ _ v' ⟨⟩ hv'
        obtain rfl : v = v' := Option.mem_unique hv hv'
        exact hh
      · rw [hf x (by omega)]
        exact ByteMem.writeBytes_of_outside (.inl hx)
    · refine ⟨.err e, s.world.registers, bind_of_err he, .inr ⟨e, rfl⟩, ?_, fun _ _ => rfl⟩
      rintro _ _ v ⟨⟩ hv'
      exact absurd (hv.symm.trans hv') (by simp)

theorem startPe_eq : startPe s =
    if pe.active then (.err (.peError (.peAlreadyActive pe.id)), s)
    else (.ok (), { s with
      pe := some { pe with active := true }
      world := { s.world with
        registers := tapascoWriteVolatile s.world.registers pe.offset (.u32 1) } }) := by
  refine (bind_of_ok (thePe_of_some hpe)).trans ?_
  cases ha : pe.active with
  | true => simp only [PE.start, ha, if_pos]
  | false => simp only [PE.start, ha, Bool.false_eq_true, if_false]

end

/-! ### The passes of a launch -/

section

variable [Allocator σ] {args : List PEParameter} {s s' : JobState σ} {r : List Buffer}

theorem exists_prepare_of_start (h : start args s = (.ok r, s')) :
    ∃ s₁, prepare args s = (.ok r, s₁) ∧ startPe s₁ = (.ok (), s') := by
  obtain ⟨unused, s₁, h₁, h⟩ := bind_eq_ok_iff.mp h
  obtain ⟨_, s₂, h₂, h⟩ := bind_eq_ok_iff.mp h
  obtain ⟨rfl, rfl⟩ := ok_inj h
  exact ⟨s₁, h₁, h₂⟩

theorem exists_passes_of_prepare (h : prepare args s = (.ok r, s')) :
    ∃ args₁ s₁ args₂ s₂ args₃ s₃ args₄ s₄,
      handleLocalMemories args s = (.ok args₁, s₁) ∧
      handleAllocates args₁ s₁ = (.ok args₂, s₂) ∧
      handleTransfersToDevice args₂ s₂ = (.ok (args₃, r), s₃) ∧
      handleStreamTransfers true true args₃ s₃ = (.ok args₄, s₄) ∧
      setArguments 0 args₄ s₄ = (.ok (), s') := by
  obtain ⟨args₁, s₁, h₁, h⟩ := bind_eq_ok_iff.mp h
  obtain ⟨args₂, s₂, h₂, h⟩ := bind_eq_ok_iff.mp h
  obtain ⟨⟨args₃, unused⟩, s₃, h₃, h⟩ := bind_eq_ok_iff.mp h
  obtain ⟨args₄, s₄, h₄, h⟩ := bind_eq_ok_iff.mp h
  obtain ⟨_, s₅, h₅, h⟩ := bind_eq_ok_iff.mp h
  obtain ⟨rfl, rfl⟩ := ok_inj h
  exact ⟨args₁, s₁, args₂, s₂, args₃, s₃, args₄, s₄, h₁, h₂, h₃, h₄, h₅⟩

end

end Job

end Tapasco
