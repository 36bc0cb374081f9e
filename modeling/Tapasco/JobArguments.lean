import Tapasco.Pe
import Tapasco.Lib.Exec

/-!
# Launch Arguments of the C++ Interface

This module embeds `JobArgumentList` of `tapasco.hpp`. An argument of a launch is a value, a
wrapped pointer, a virtual address or a stream inside of any number of wrappers (`InOnly`,
`OutOnly`, `Local`, `Offset`). The overloads of `set_arg` peel the wrappers off from the
outside, and each of them sets a flag of the list object. The flags are read where a wrapped
pointer is reached, and this is the only place where they are reset.

The parameters are the calls of the functions `tapasco_job_param_*` of the C interface.
-/

namespace Tapasco

inductive ArgumentError where
  | largeArgument
  | smallArgument
  | rawPointer

/-- A parameter, as it is handed to the C interface. -/
inductive JobParam where
  | single32 (param : BitVec 32)
  | single64 (param : BitVec 64)
  | prealloc (ptr addr bytes : ℕ) (toDevice fromDevice free : Bool)
  | localMem (ptr bytes : ℕ) (toDevice fromDevice free usesFixed : Bool) (fixed : ℕ)
  | alloc (ptr bytes : ℕ) (toDevice fromDevice free usesFixed : Bool) (fixed : ℕ)
  | virtualaddress (addr : ℕ)
  | stream (ptr bytes : ℕ) (c2h : Bool)
  deriving DecidableEq

/-- An argument of a launch: a value with its size, a raw pointer, the pointers with a size,
and the wrappers. -/
inductive Argument where
  | value (size : ℕ) (t : ℤ)
  | pointer (t : ℕ)
  | wrappedPointer (value sz : ℕ)
  | virtualAddress (addr : ℕ)
  | inputStream (value sz : ℕ)
  | outputStream (value sz : ℕ)
  | inOnly (value : Argument)
  | outOnly (value : Argument)
  | localMem (value : Argument)
  | offset (value : Argument) (offset : ℕ)

structure ArgumentFlags where
  deviceaddress : ℕ
  fromDevice : Bool
  toDevice : Bool
  free : Bool
  localMem : Bool
  offsetUsed : Bool
  offset : ℕ

def resetState : ArgumentFlags where
  deviceaddress := 2 ^ 64 - 1
  fromDevice := true
  toDevice := true
  free := true
  localMem := false
  offsetUsed := false
  offset := 0

/-- A `JobArgumentList`: its flags and the parameters. -/
structure JobArgumentList where
  flags : ArgumentFlags
  listInner : List JobParam

namespace JobArgumentList

/-- The constructor, which calls `new_list`. -/
def new : JobArgumentList :=
  ⟨resetState, []⟩

/-- A call of `set_arg` or `set_args`. -/
abbrev ArgM := Exec JobArgumentList ArgumentError

def push (p : JobParam) : ArgM PUnit :=
  Exec.modify fun s => { s with listInner := s.listInner ++ [p] }

def setFlags (f : ArgumentFlags → ArgumentFlags) : ArgM PUnit :=
  Exec.modify fun s => { s with flags := f s.flags }

/-- The parameter of a transfer with the given flags. -/
def transferParam (f : ArgumentFlags) (ptr bytes : ℕ) : JobParam :=
  if f.deviceaddress ≠ 2 ^ 64 - 1 then
    .prealloc ptr f.deviceaddress bytes f.toDevice f.fromDevice f.free
  else if f.localMem then
    .localMem ptr bytes f.toDevice f.fromDevice f.free f.offsetUsed f.offset
  else .alloc ptr bytes f.toDevice f.fromDevice f.free f.offsetUsed f.offset

def memop (ptr bytes : ℕ) : ArgM PUnit :=
  Exec.modify fun s =>
    { flags := resetState, listInner := s.listInner ++ [transferParam s.flags ptr bytes] }

/-- **The overloads of `set_arg`.** -/
def setArg : Argument → ArgM PUnit
  | .value size t =>
    if size = 4 then push (.single32 (BitVec.ofInt 32 t))
    else if size = 8 then push (.single64 (BitVec.ofInt 64 t))
    else if 8 < size then Exec.fail .largeArgument
    else Exec.fail .smallArgument
  | .pointer _ => Exec.fail .rawPointer
  | .localMem t => do
    setFlags fun f => { f with localMem := true }
    setArg t
  | .outOnly t => do
    setFlags fun f => { f with toDevice := false }
    setArg t
  | .inOnly t => do
    setFlags fun f => { f with fromDevice := false }
    setArg t
  | .offset t offset => do
    setFlags fun f => { f with offsetUsed := true, offset }
    setArg t
  | .wrappedPointer value sz => memop value sz
  | .virtualAddress addr => push (.virtualaddress addr)
  | .inputStream value sz => push (.stream value sz false)
  | .outputStream value sz => push (.stream value sz true)

def setArgs : List Argument → ArgM PUnit
  | [] => pure ⟨⟩
  | t :: args => do
    setArg t
    setArgs args

end JobArgumentList

/-! ### Wrappers -/

/-- The wrappers around an argument. Of several offsets the innermost one counts. -/
structure Wrappers where
  inOnly : Bool
  outOnly : Bool
  localMem : Bool
  offset : Option ℕ

namespace Wrappers

def bare : Wrappers :=
  ⟨false, false, false, none⟩

/-- Both kinds of wrappers, where an offset of `v` hides one of `w`. -/
def beneath (w v : Wrappers) : Wrappers where
  inOnly := w.inOnly || v.inOnly
  outOnly := w.outOnly || v.outOnly
  localMem := w.localMem || v.localMem
  offset := v.offset <|> w.offset

def flags (w : Wrappers) : ArgumentFlags :=
  { resetState with
    fromDevice := !w.inOnly
    toDevice := !w.outOnly
    localMem := w.localMem
    offsetUsed := w.offset.isSome
    offset := w.offset.getD 0 }

/-- Each wrapper of `w` is one of `v` as well. -/
structure Within (w v : Wrappers) : Prop where
  inOnly : w.inOnly = true → v.inOnly = true
  outOnly : w.outOnly = true → v.outOnly = true
  localMem : w.localMem = true → v.localMem = true
  offset : w.offset.isSome = true → v.offset.isSome = true

@[simp] theorem bare_beneath (v : Wrappers) : bare.beneath v = v := by
  obtain ⟨i, o, l, f⟩ := v
  cases f <;> rfl

@[simp] theorem beneath_bare (w : Wrappers) : w.beneath bare = w := by
  obtain ⟨i, o, l, f⟩ := w
  simp [beneath, bare]

@[simp] theorem flags_bare : bare.flags = resetState := rfl

theorem beneath_eq_right_iff (w v : Wrappers) : w.beneath v = v ↔ w.Within v := by
  obtain ⟨i, o, l, f⟩ := w
  obtain ⟨i', o', l', f'⟩ := v
  constructor
  · intro h
    rw [beneath, mk.injEq] at h
    obtain ⟨hi, ho, hl, hf⟩ := h
    refine ⟨fun h => ?_, fun h => ?_, fun h => ?_, fun h => ?_⟩
    · simpa [show i = true from h] using hi.symm
    · simpa [show o = true from h] using ho.symm
    · simpa [show l = true from h] using hl.symm
    · cases f' with
      | some _ => rfl
      | none =>
        have hn : f = none := by simpa using hf
        simp [hn] at h
  · rintro ⟨hi, ho, hl, hf⟩
    rw [beneath, mk.injEq]
    refine ⟨?_, ?_, ?_, ?_⟩
    · cases i <;> simp_all
    · cases o <;> simp_all
    · cases l <;> simp_all
    · cases f <;> cases f' <;> simp_all

theorem offset_ext {f f' : Option ℕ} (hs : f.isSome = f'.isSome) (hg : f.getD 0 = f'.getD 0) :
    f = f' := by
  cases f with
  | none => exact (Option.isSome_eq_false_iff.mp hs.symm |> Option.isNone_iff_eq_none.mp).symm
  | some a =>
    obtain ⟨b, rfl⟩ := Option.isSome_iff_exists.mp hs.symm
    exact congrArg some hg

/-- **The parameter of a transfer shows its wrappers.** -/
theorem transferParam_inj {w v : Wrappers} {ptr bytes : ℕ}
    (h : JobArgumentList.transferParam w.flags ptr bytes =
      JobArgumentList.transferParam v.flags ptr bytes) : w = v := by
  obtain ⟨i, o, l, f⟩ := w
  obtain ⟨i', o', l', f'⟩ := v
  cases l <;> cases l' <;>
    simp only [JobArgumentList.transferParam, flags, resetState, ne_eq, not_true_eq_false,
      if_false, if_true, Bool.false_eq_true, reduceCtorEq, JobParam.alloc.injEq,
      JobParam.localMem.injEq, Bool.not_eq_eq_eq_not, Bool.not_not, true_and] at h
  all_goals
    obtain ⟨ho, hi, hs, hg⟩ := h
    rw [hi, ho, offset_ext hs hg]

end Wrappers

namespace Argument

/-- The argument inside of all wrappers. -/
def core : Argument → Argument
  | .inOnly t | .outOnly t | .localMem t | .offset t _ => t.core
  | a => a

/-- The wrappers around an argument. -/
def wrappers : Argument → Wrappers
  | .inOnly t => { t.wrappers with inOnly := true }
  | .outOnly t => { t.wrappers with outOnly := true }
  | .localMem t => { t.wrappers with localMem := true }
  | .offset t o => { t.wrappers with offset := t.wrappers.offset <|> some o }
  | _ => .bare

/-- The argument is a wrapped pointer inside of wrappers. -/
def isTransfer (a : Argument) : Bool :=
  match a.core with
  | .wrappedPointer _ _ => true
  | _ => false

def isSupported (a : Argument) : Bool :=
  match a.core with
  | .value size _ => size = 4 ∨ size = 8
  | .pointer _ => false
  | _ => true

end Argument

namespace JobArgumentList

/-- **The wrappers of an argument** set their flags one after the other. -/
theorem setArg_core (a : Argument) (w : Wrappers) (l : List JobParam) :
    setArg a ⟨w.flags, l⟩ = setArg a.core ⟨(w.beneath a.wrappers).flags, l⟩ := by
  induction a generalizing w with
  | inOnly t ih =>
    have hb : ({ w with inOnly := true } : Wrappers).beneath t.wrappers =
        w.beneath (Argument.inOnly t).wrappers := by
      simp [Wrappers.beneath, Argument.wrappers]
    rw [← hb]
    exact ih { w with inOnly := true }
  | outOnly t ih =>
    have hb : ({ w with outOnly := true } : Wrappers).beneath t.wrappers =
        w.beneath (Argument.outOnly t).wrappers := by
      simp [Wrappers.beneath, Argument.wrappers]
    rw [← hb]
    exact ih { w with outOnly := true }
  | localMem t ih =>
    have hb : ({ w with localMem := true } : Wrappers).beneath t.wrappers =
        w.beneath (Argument.localMem t).wrappers := by
      simp [Wrappers.beneath, Argument.wrappers]
    rw [← hb]
    exact ih { w with localMem := true }
  | offset t o ih =>
    have hb : ({ w with offset := some o } : Wrappers).beneath t.wrappers =
        w.beneath (Argument.offset t o).wrappers := by
      simp only [Wrappers.beneath, Argument.wrappers]
      cases t.wrappers.offset <;> rfl
    rw [← hb]
    exact ih { w with offset := some o }
  | _ => exact congrArg (fun w : Wrappers => setArg _ ⟨w.flags, l⟩) (Wrappers.beneath_bare w).symm

/-- **One argument**: a transfer reads all flags that are set and resets them; a value, an
address or a stream does not look at them and leaves them set; other arguments are refused. -/
theorem setArg_eq (a : Argument) :
    (a.isTransfer = true ∧ a.isSupported = true ∧ ∃ value sz, ∀ (w : Wrappers) l,
      setArg a ⟨w.flags, l⟩ =
        (.ok ⟨⟩, ⟨resetState, l ++ [transferParam (w.beneath a.wrappers).flags value sz]⟩)) ∨
    (a.isTransfer = false ∧ a.isSupported = true ∧ ∃ p, ∀ (w : Wrappers) l,
      setArg a ⟨w.flags, l⟩ = (.ok ⟨⟩, ⟨(w.beneath a.wrappers).flags, l ++ [p]⟩)) ∨
    (a.isTransfer = false ∧ a.isSupported = false ∧ ∃ e, ∀ (w : Wrappers) l,
      setArg a ⟨w.flags, l⟩ = (.err e, ⟨(w.beneath a.wrappers).flags, l⟩)) := by
  simp only [setArg_core a, Argument.isTransfer, Argument.isSupported]
  generalize a.wrappers = v
  induction a with
  | inOnly t ih | outOnly t ih | localMem t ih | offset t o ih => exact ih
  | value size t =>
    by_cases h4 : size = 4
    · subst h4
      exact .inr (.inl ⟨rfl, rfl, .single32 (BitVec.ofInt 32 t), fun w l => rfl⟩)
    by_cases h8 : size = 8
    · subst h8
      exact .inr (.inl ⟨rfl, rfl, .single64 (BitVec.ofInt 64 t), fun w l => rfl⟩)
    refine .inr (.inr ⟨rfl, by simp [Argument.core, h4, h8],
      if 8 < size then .largeArgument else .smallArgument, fun w l => ?_⟩)
    show setArg (.value size t) _ = _
    rw [setArg, if_neg h4, if_neg h8]
    split <;> rfl
  | pointer t => exact .inr (.inr ⟨rfl, rfl, .rawPointer, fun w l => rfl⟩)
  | wrappedPointer value sz => exact .inl ⟨rfl, rfl, value, sz, fun w l => rfl⟩
  | virtualAddress addr => exact .inr (.inl ⟨rfl, rfl, .virtualaddress addr, fun w l => rfl⟩)
  | inputStream value sz =>
    exact .inr (.inl ⟨rfl, rfl, .stream value sz false, fun w l => rfl⟩)
  | outputStream value sz =>
    exact .inr (.inl ⟨rfl, rfl, .stream value sz true, fun w l => rfl⟩)

/-! ### Sequences of arguments -/

/-- The wrappers whose flags are still set after an argument. -/
def leftAfter (w : Wrappers) (a : Argument) : Wrappers :=
  if a.isTransfer then .bare else w.beneath a.wrappers

/-- The wrappers whose flags are still set after some arguments: those around the arguments
since the last wrapped pointer. -/
def leftOver (args : List Argument) : Wrappers :=
  args.foldl leftAfter .bare

/-- **Some arguments**: they are accepted and leave the flags of the wrappers that are left
over, or one of them is refused. -/
theorem setArgs_eq (args : List Argument) (w : Wrappers) (l : List JobParam) :
    ((∀ a ∈ args, a.isSupported = true) ∧ ∃ l', setArgs args ⟨w.flags, l⟩ =
      (.ok ⟨⟩, ⟨(args.foldl leftAfter w).flags, l'⟩)) ∨
    (¬(∀ a ∈ args, a.isSupported = true) ∧ ∃ e s, setArgs args ⟨w.flags, l⟩ = (.err e, s)) := by
  induction args generalizing w l with
  | nil => exact .inl ⟨by simp, l, rfl⟩
  | cons a args ih =>
    rw [List.foldl_cons, leftAfter, List.forall_mem_cons, setArgs]
    obtain ⟨ht, hs, value, sz, heq⟩ | ⟨ht, hs, p, heq⟩ | ⟨-, hs, e, heq⟩ := setArg_eq a
    · rw [Exec.bind_of_ok (heq w l), hs, ht]
      simpa using ih .bare (l ++ [transferParam (w.beneath a.wrappers).flags value sz])
    · rw [Exec.bind_of_ok (heq w l), hs, ht]
      simpa using ih (w.beneath a.wrappers) (l ++ [p])
    · exact .inr ⟨by simp [hs], e, _, Exec.bind_of_err (heq w l)⟩

/-- **Independence**: whatever was accepted before it, each argument does what it does alone:
it appends the parameter that it appends to a new list, or it is refused in the same way. -/
def Independent (args : List Argument) : Prop :=
  ∀ pre a post s, args = pre ++ a :: post → setArgs pre new = (.ok ⟨⟩, s) →
    (setArg a s).1 = (setArg a new).1 ∧
      (setArg a s).2.listInner = s.listInner ++ (setArg a new).2.listInner

theorem setArg_eq_alone_iff (a : Argument) (w : Wrappers) (l : List JobParam) :
    ((setArg a ⟨w.flags, l⟩).1 = (setArg a new).1 ∧
      (setArg a ⟨w.flags, l⟩).2.listInner = l ++ (setArg a new).2.listInner) ↔
      (a.isTransfer = true → w.Within a.wrappers) := by
  have hn : new = ⟨Wrappers.bare.flags, []⟩ := rfl
  rw [hn]
  obtain ⟨ht, -, value, sz, heq⟩ | ⟨ht, -, p, heq⟩ | ⟨ht, -, e, heq⟩ := setArg_eq a
  · rw [heq w l, heq .bare [], Wrappers.bare_beneath, List.nil_append,
      ← Wrappers.beneath_eq_right_iff]
    constructor
    · rintro ⟨-, hl⟩ -
      have hp := List.append_cancel_left hl
      rw [List.cons.injEq] at hp
      exact Wrappers.transferParam_inj hp.1
    · intro h
      rw [h ht]
      exact ⟨rfl, rfl⟩
  · rw [heq w l, heq .bare []]
    simp [ht]
  · rw [heq w l, heq .bare []]
    simp [ht]

/-- **Wrappers are independent** exactly if every wrapped pointer that is reached has all the
wrappers itself that are around the arguments since the last wrapped pointer. -/
theorem independent_iff (args : List Argument) :
    Independent args ↔
      ∀ pre a post, args = pre ++ a :: post → (∀ b ∈ pre, b.isSupported = true) →
        a.isTransfer = true → (leftOver pre).Within a.wrappers := by
  constructor
  · intro h pre a post hsplit hpre
    obtain ⟨-, l, hok⟩ | ⟨hnot, -⟩ := setArgs_eq pre .bare []
    · exact (setArg_eq_alone_iff a (leftOver pre) l).mp (h pre a post _ hsplit hok)
    · exact absurd hpre hnot
  · intro h pre a post s hsplit hs
    obtain ⟨hpre, l, hok⟩ | ⟨-, e, s', herr⟩ := setArgs_eq pre .bare []
    · obtain ⟨-, rfl⟩ := Prod.mk.inj (hs.symm.trans hok)
      exact (setArg_eq_alone_iff a (leftOver pre) l).mpr (h pre a post hsplit hpre)
    · exact absurd (hs.symm.trans herr) (by simp)

/-- **A wrapper around a value affects the next pointer**: after an input-only value a plain pointer
is not copied back. -/
theorem inOnly_value_leaks :
    setArgs [.inOnly (.value 4 7), .wrappedPointer 64 16] new =
        (.ok ⟨⟩, ⟨resetState, [.single32 7, .alloc 64 16 true false true false 0]⟩) ∧
      setArg (.wrappedPointer 64 16) new =
        (.ok ⟨⟩, ⟨resetState, [.alloc 64 16 true true true false 0]⟩) ∧
      ¬Independent [.inOnly (.value 4 7), .wrappedPointer 64 16] := by
  refine ⟨rfl, rfl, fun h => ?_⟩
  have hpushed := (h [.inOnly (.value 4 7)] (.wrappedPointer 64 16) [] _ rfl rfl).2
  exact absurd hpushed (by decide)

end JobArgumentList

end Tapasco
