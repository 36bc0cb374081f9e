import Mathlib.Logic.Basic

/-!
# Computations with State, Errors and Panics

A call of an imperative program reads and changes a state and ends in one of three ways:
it returns a value, it returns an error, or it panics. What it changed before an error or
a panic stays changed. `Exec σ ε α` is the type of such calls; it is a monad, so that a
body with early returns is written as a `do` block.
-/

universe u

/-- The result of a call that may also panic. -/
inductive Outcome (ε α : Type u) where
  | ok (a : α)
  | err (e : ε)
  | panic
  deriving DecidableEq

/-- A call on a state of type `σ`. -/
def Exec (σ ε α : Type u) : Type u :=
  σ → Outcome ε α × σ

namespace Exec

variable {σ ε α β : Type u}

instance : Monad (Exec σ ε) where
  pure a := fun s => (.ok a, s)
  bind f g := fun s =>
    match f s with
    | (.ok a, s') => g a s'
    | (.err e, s') => (.err e, s')
    | (.panic, s') => (.panic, s')

/-- Return an error. -/
def fail (e : ε) : Exec σ ε α :=
  fun s => (.err e, s)

/-- Panic, for example in an `unwrap` of nothing. -/
def abort : Exec σ ε α :=
  fun s => (.panic, s)

/-- Change the state. -/
def modify (f : σ → σ) : Exec σ ε PUnit :=
  fun s => (.ok ⟨⟩, f s)

@[simp] theorem pure_apply (a : α) (s : σ) : (pure a : Exec σ ε α) s = (.ok a, s) := rfl

@[simp] theorem fail_apply (e : ε) (s : σ) : (fail e : Exec σ ε α) s = (.err e, s) := rfl

@[simp] theorem modify_apply (f : σ → σ) (s : σ) :
    (modify f : Exec σ ε PUnit) s = (.ok ⟨⟩, f s) := rfl

theorem ok_inj {a b : α} {s s' : σ} (h : ((.ok a, s) : Outcome ε α × σ) = (.ok b, s')) :
    a = b ∧ s = s' := by
  simpa using h

variable {f : Exec σ ε α} {g : α → Exec σ ε β} {s : σ} {as : List α}

theorem bind_apply (f : Exec σ ε α) (g : α → Exec σ ε β) (s : σ) : (f >>= g) s =
    match f s with
    | (.ok a, s') => g a s'
    | (.err e, s') => (.err e, s')
    | (.panic, s') => (.panic, s') := rfl

theorem bind_of_ok {s' : σ} {a : α} (h : f s = (.ok a, s')) : (f >>= g) s = g a s' := by
  rw [bind_apply, h]

theorem bind_of_err {s' : σ} {e : ε} (h : f s = (.err e, s')) : (f >>= g) s = (.err e, s') := by
  rw [bind_apply, h]

theorem bind_of_panic {s' : σ} (h : f s = (.panic, s')) : (f >>= g) s = (.panic, s') := by
  rw [bind_apply, h]

theorem bind_congr_apply {f' : Exec σ ε α} {s' : σ} (h : f s = f' s') (g : α → Exec σ ε β) :
    (f >>= g) s = (f' >>= g) s' := by
  rw [bind_apply, bind_apply, h]

theorem bind_assoc_apply {γ : Type u} (f : Exec σ ε α) (g : α → Exec σ ε β)
    (k : β → Exec σ ε γ) (s : σ) : ((f >>= g) >>= k) s = (f >>= fun a => g a >>= k) s := by
  match h : f s with
  | (.ok a, s') =>
    rw [bind_congr_apply (bind_of_ok h) k]
    exact (bind_of_ok (g := fun a => g a >>= k) h).symm
  | (.err e, s') => rw [bind_of_err (bind_of_err h), bind_of_err h]
  | (.panic, s') => rw [bind_of_panic (bind_of_panic h), bind_of_panic h]

instance : LawfulMonad (Exec σ ε) :=
  .mk' _
    (fun f => funext fun s => by
      match h : f s with
      | (.ok a, s') => exact bind_of_ok h
      | (.err e, s') => exact bind_of_err h
      | (.panic, s') => exact bind_of_panic h)
    (fun _ _ => rfl)
    (fun f g k => funext (bind_assoc_apply f g k))

variable {s'' : σ}

/-- **A sequence that returns**: both parts did. -/
theorem bind_eq_ok_iff {b : β} :
    (f >>= g) s = (.ok b, s'') ↔ ∃ a s', f s = (.ok a, s') ∧ g a s' = (.ok b, s'') := by
  constructor
  · intro h
    match hf : f s with
    | (.ok a, s') => exact ⟨a, s', rfl, (bind_of_ok hf).symm.trans h⟩
    | (.err e, s') => exact absurd ((bind_of_err hf).symm.trans h) (by simp)
    | (.panic, s') => exact absurd ((bind_of_panic hf).symm.trans h) (by simp)
  · rintro ⟨a, s', hf, hg⟩
    exact (bind_of_ok hf).trans hg

/-- **A sequence that fails**: its first part failed, or it returned and the second part
failed. -/
theorem bind_eq_err_iff {e : ε} :
    (f >>= g) s = (.err e, s'') ↔
      f s = (.err e, s'') ∨ ∃ a s', f s = (.ok a, s') ∧ g a s' = (.err e, s'') := by
  constructor
  · intro h
    match hf : f s with
    | (.ok a, s') => exact .inr ⟨a, s', rfl, (bind_of_ok hf).symm.trans h⟩
    | (.err e', s') =>
      have heq := (bind_of_err (g := g) hf).symm.trans h
      rw [Prod.mk.injEq, Outcome.err.injEq] at heq
      obtain ⟨rfl, rfl⟩ := heq
      exact .inl rfl
    | (.panic, s') => exact absurd ((bind_of_panic hf).symm.trans h) (by simp)
  · rintro (hf | ⟨a, s', hf, hg⟩)
    · exact bind_of_err hf
    · exact (bind_of_ok hf).trans hg

theorem bind_pure_snd (f : Exec σ ε α) (g : α → β) (s : σ) :
    ((f >>= fun a => pure (g a)) s).2 = (f s).2 := by
  match h : f s with
  | (.ok a, s') => rw [bind_of_ok h]; rfl
  | (.err e, s') => rw [bind_of_err h]
  | (.panic, s') => rw [bind_of_panic h]

/-! ### Lists -/

/-- Make a call on each element of a list until one does not return, and collect the
results. -/
def collect (f : α → Exec σ ε β) : List α → Exec σ ε (List β)
  | [] => pure []
  | a :: as => do
    let b ← f a
    let bs ← collect f as
    pure (b :: bs)

theorem collect_nil (f : α → Exec σ ε β) (s : σ) : collect f [] s = (.ok [], s) := rfl

variable {f : α → Exec σ ε β}

theorem collect_eq_ok_cons {a : α} {r : List β} :
    collect f (a :: as) s = (.ok r, s'') ↔
      ∃ b s' bs, f a s = (.ok b, s') ∧ collect f as s' = (.ok bs, s'') ∧ r = b :: bs := by
  rw [collect, bind_eq_ok_iff]
  constructor
  · rintro ⟨b, s', hf, hre⟩
    obtain ⟨bs, s₂, hb, hr⟩ := bind_eq_ok_iff.mp hre
    obtain ⟨rfl, rfl⟩ := ok_inj hr
    exact ⟨b, s', bs, hf, hb, rfl⟩
  · rintro ⟨b, s', bs, hf, hb, rfl⟩
    exact ⟨b, s', hf, bind_eq_ok_iff.mpr ⟨bs, s'', hb, rfl⟩⟩

theorem collect_eq_err_cons {a : α} {e : ε} :
    collect f (a :: as) s = (.err e, s'') ↔
      f a s = (.err e, s'') ∨ ∃ b s', f a s = (.ok b, s') ∧ collect f as s' = (.err e, s'') := by
  rw [collect, bind_eq_err_iff]
  refine or_congr_right (exists₂_congr fun b s' => and_congr_right fun _ => ?_)
  rw [bind_eq_err_iff]
  refine or_iff_left ?_
  rintro ⟨bs, s₂, -, h⟩
  simp at h

theorem collect_cons_snd_of_ok {a : α} {s' : σ} {b : β} (h : f a s = (.ok b, s')) :
    (collect f (a :: as) s).2 = (collect f as s').2 := by
  rw [collect, bind_of_ok h]
  exact bind_pure_snd (collect f as) (fun bs => b :: bs) s'

/-- **The first error** ends the calls: those on the elements before returned. -/
theorem exists_of_collect_eq_err {e : ε} (h : collect f as s = (.err e, s'')) :
    ∃ pre a post bs s', as = pre ++ a :: post ∧ collect f pre s = (.ok bs, s') ∧
      f a s' = (.err e, s'') := by
  induction as generalizing s with
  | nil => exact absurd h (by simp [collect_nil])
  | cons a as ih =>
    rcases collect_eq_err_cons.mp h with ha | ⟨b, s₁, hb, hr⟩
    · exact ⟨[], a, as, [], s, rfl, rfl, ha⟩
    · obtain ⟨pre, a', post, bs, s', rfl, hp, ha'⟩ := ih hr
      exact ⟨a :: pre, a', post, b :: bs, s', rfl,
        collect_eq_ok_cons.mpr ⟨b, s₁, bs, hb, hp, rfl⟩, ha'⟩

theorem collect_of_reads {g : α → β} (h : ∀ a ∈ as, f a s = (.ok (g a), s)) :
    collect f as s = (.ok (as.map g), s) := by
  induction as with
  | nil => rfl
  | cons a as ih =>
    rw [List.forall_mem_cons] at h
    exact collect_eq_ok_cons.mpr ⟨g a, s, as.map g, h.1, ih h.2, rfl⟩

theorem collect_of_panic (h : ∀ a ∈ as, (∃ b, f a s = (.ok b, s)) ∨ f a s = (.panic, s))
    (hp : ∃ a ∈ as, f a s = (.panic, s)) : collect f as s = (.panic, s) := by
  induction as with
  | nil => simp at hp
  | cons a as ih =>
    rw [List.forall_mem_cons] at h
    rw [collect]
    obtain ⟨b, hb⟩ | ha := h.1
    · have hr : ∃ a ∈ as, f a s = (.panic, s) := by
        simpa [hb] using hp
      rw [bind_of_ok hb, bind_of_panic (ih h.2 hr)]
    · exact bind_of_panic ha

/-! ### Calls that keep a property -/

/-- A frame for calls: how they may change the state, and where they must not panic. -/
structure Frame (σ : Type u) where
  rel : σ → σ → Prop
  safe : σ → Prop
  refl : ∀ s, rel s s
  trans : ∀ {s s' s''}, rel s s' → rel s' s'' → rel s s''
  keep : ∀ {s s'}, rel s s' → safe s → safe s'

/-- The call stays in the frame. -/
def Frame.Obeys (F : Frame σ) (f : Exec σ ε α) : Prop :=
  ∀ s, F.rel s (f s).2 ∧ (F.safe s → (f s).1 ≠ .panic)

/-- The frame of the calls that do not change a part of the state. -/
def Frame.same {γ : Type*} (p : σ → γ) : Frame σ where
  rel s s' := p s' = p s
  safe _ := False
  refl _ := rfl
  trans h h' := h'.trans h
  keep _ := id

/-- The frame of the calls that keep a property, and do not panic where it holds. -/
def Frame.keeping (P : σ → Prop) : Frame σ where
  rel s s' := P s → P s'
  safe := P
  refl _ := id
  trans h h' := h' ∘ h
  keep := id

section

variable {F : Frame σ}

theorem obeys_pure (a : α) : F.Obeys (pure a : Exec σ ε α) :=
  fun s => ⟨F.refl s, fun _ => by simp⟩

theorem obeys_fail (e : ε) : F.Obeys (fail e : Exec σ ε α) :=
  fun s => ⟨F.refl s, fun _ => by simp⟩

theorem obeys_bind {f : Exec σ ε α} {g : α → Exec σ ε β} (hf : F.Obeys f)
    (hg : ∀ a, F.Obeys (g a)) : F.Obeys (f >>= g) := by
  intro s
  obtain ⟨hr, hsa⟩ := hf s
  match h : f s with
  | (.ok a, s') =>
    rw [h] at hr
    rw [bind_of_ok h]
    exact ⟨F.trans hr (hg a s').1, fun hs => (hg a s').2 (F.keep hr hs)⟩
  | (.err e, s') =>
    rw [h] at hr
    rw [bind_of_err h]
    exact ⟨hr, fun _ => by simp⟩
  | (.panic, s') =>
    rw [h] at hr hsa
    rw [bind_of_panic h]
    exact ⟨hr, fun hs => absurd rfl (hsa hs)⟩

theorem obeys_collect {as : List α} (hf : ∀ a ∈ as, F.Obeys (f a)) : F.Obeys (collect f as) := by
  induction as with
  | nil => exact obeys_pure []
  | cons a as ih =>
    rw [List.forall_mem_cons] at hf
    exact obeys_bind hf.1 fun b => obeys_bind (ih hf.2) fun bs => obeys_pure (b :: bs)

end

/-- Where `P` holds, the call does not panic, and `P` holds after it. -/
def Keeps (P : σ → Prop) (f : Exec σ ε α) : Prop :=
  ∀ s, P s → (f s).1 ≠ .panic ∧ P (f s).2

theorem Frame.Obeys.keeps {P : σ → Prop} {f : Exec σ ε α} (h : (Frame.keeping P).Obeys f) :
    Keeps P f :=
  fun s hs => ⟨(h s).2 hs, (h s).1 hs⟩

section

variable {P : σ → Prop}

theorem exists_err_of_keeps {f : Exec σ ε α} {g : α → Exec σ ε β} (hf : Keeps P f)
    (hg : ∀ a s, P s → ∃ e, (g a s).1 = .err e) {s : σ} (hs : P s) :
    ∃ e, ((f >>= g) s).1 = .err e := by
  have hk := hf s hs
  match h : f s with
  | (.ok a, s') =>
    rw [h] at hk
    rw [bind_of_ok h]
    exact hg a s' hk.2
  | (.err e, s') => exact ⟨e, by rw [bind_of_err h]⟩
  | (.panic, s') =>
    rw [h] at hk
    exact absurd rfl hk.1

end

end Exec
