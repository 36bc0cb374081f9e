import Tapasco.Lib.Runs
import Tapasco.Lib.Threads
import Mathlib.Data.List.Nodup

/-!
# The Lock-Free Pool of Fixed Size

`gen_fixed_size_pool.h` keeps a pool of `SZ` elements without locks: a flag for each index,
and a cursor `curr` below which no free index should lie. `fsp_get` takes indices from the
cursor with fetch-and-add until it finds one whose flag it can set; `fsp_put` clears the flag
and then moves the cursor back to the index with compare-and-exchange. This module embeds the
two functions at the level of their atomic steps, for any number of threads.

The counter `refcnt` is only read in an assertion and left out. The cursor has 32 bits and
wraps around.
-/

open Threads List

open Function

namespace Tapasco.Pool

/-- Where a thread is: outside the pool's functions, before the fetch-and-add or the test-and-set of
`fsp_get`, or before one of the three steps of `fsp_put`. -/
inductive Pc where
  | idle
  | getFetch
  | getTest (ret : ℕ)
  | putClear (idx : ℕ)
  | putRead (idx : ℕ)
  | putCas (idx old : ℕ)
  deriving DecidableEq

/-- A caller of the pool, with the indices it has. -/
structure Thread where
  pc : Pc
  held : List ℕ

/-- `fsp_t`: the locks, and where the search goes on. -/
structure Fsp where
  locked : ℕ → Bool
  curr : ℕ

def fspInit : Fsp :=
  ⟨fun _ => false, 0⟩

/-- The next step of `fsp_get` or `fsp_put`. -/
def threadStep (sz : ℕ) (p : Fsp) (c : Thread) : Fsp × Thread :=
  match c.pc with
  | .idle => (p, c)
  | .getFetch =>
    if p.curr < sz then
      ({ p with curr := (p.curr + 1) % 2 ^ 32 }, { c with pc := .getTest p.curr })
    else ({ p with curr := (p.curr + 1) % 2 ^ 32 }, { c with pc := .idle })
  | .getTest ret =>
    if p.locked ret then (p, { c with pc := .getFetch })
    else ({ p with locked := Function.update p.locked ret true }, ⟨.idle, ret :: c.held⟩)
  | .putClear idx =>
    ({ p with locked := Function.update p.locked idx false }, { c with pc := .putRead idx })
  | .putRead idx =>
    if idx < p.curr then (p, { c with pc := .putCas idx p.curr })
    else (p, { c with pc := .idle })
  | .putCas idx old =>
    if p.curr = old then ({ p with curr := idx }, { c with pc := .idle })
    else (p, { c with pc := .putRead idx })

/-- The pool and all its callers. -/
structure System where
  pool : Fsp
  threads : List Thread

/-- A pool with a number of threads that hold nothing. -/
def System.new (k : ℕ) : System :=
  ⟨fspInit, List.replicate k ⟨.idle, []⟩⟩

/-- A thread calls `fsp_get`, or `fsp_put` for an index, or does its next step. -/
inductive Action where
  | get (t : ℕ)
  | put (t idx : ℕ)
  | step (t : ℕ)

def setThread (s : System) (t : ℕ) (r : Fsp × Thread) : System :=
  ⟨r.1, s.threads.set t r.2⟩

def callGet (c : Thread) : Thread :=
  if c.pc = .idle then { c with pc := .getFetch } else c

/-- A call of `fsp_put` by the holder of the index. -/
def callPut (sz idx : ℕ) (c : Thread) : Thread :=
  if c.pc = .idle ∧ idx ∈ c.held then
    if idx < sz then ⟨.putClear idx, c.held.erase idx⟩ else ⟨.idle, c.held.erase idx⟩
  else c

/-- One action of a thread. -/
def systemStep (sz : ℕ) (s : System) : Action → System
  | .get t =>
    match s.threads[t]? with
    | none => s
    | some c => setThread s t (s.pool, callGet c)
  | .put t idx =>
    match s.threads[t]? with
    | none => s
    | some c => setThread s t (s.pool, callPut sz idx c)
  | .step t =>
    match s.threads[t]? with
    | none => s
    | some c => setThread s t (threadStep sz s.pool c)

/-! ### One step of one thread -/

/-- How often a thread owns an index: it holds it, or is about to clear its flag. -/
def owns (idx : ℕ) (c : Thread) : ℕ :=
  c.held.count idx + if c.pc = .putClear idx then 1 else 0

def flag (b : Bool) : ℕ :=
  if b then 1 else 0

/-- The thread has yet to test the flag of the index, or to move the cursor back to it. -/
def Pending (idx : ℕ) (c : Thread) : Prop :=
  c.pc = .getTest idx ∨ c.pc = .putRead idx ∨ ∃ old, c.pc = .putCas idx old

/-- The indices a thread holds or tests exist, and it moves the cursor only back. -/
structure InRange (sz : ℕ) (c : Thread) : Prop where
  held : ∀ idx ∈ c.held, idx < sz
  tested : ∀ ret, c.pc = .getTest ret → ret < sz
  back : ∀ idx old, c.pc = .putCas idx old → idx < old

section

variable {sz idx : ℕ} {p : Fsp} {c : Thread}

/-- **Ownership**: a step changes the flag of an index by as much as its thread's share, if the
thread's flags are set. -/
theorem threadStep_owns (hl : 0 < owns idx c → p.locked idx = true) :
    flag ((threadStep sz p c).1.locked idx) + owns idx c =
      flag (p.locked idx) + owns idx (threadStep sz p c).2 := by
  obtain ⟨pc, held⟩ := c
  cases pc with
  | idle => rfl
  | getFetch =>
    simp only [threadStep]
    split <;> simp [owns]
  | getTest ret =>
    simp only [threadStep]
    by_cases hr : p.locked ret = true
    · simp [hr, owns]
    by_cases hi : ret = idx
    · subst hi
      simp [hr, owns, flag]
      omega
    · simp [hr, owns, update_of_ne (Ne.symm hi), count_cons_of_ne hi]
  | putClear jdx =>
    simp only [threadStep]
    by_cases hi : jdx = idx
    · subst hi
      have hs : p.locked jdx = true := hl (by simp [owns])
      simp [owns, flag, hs]
      omega
    · simp [owns, update_of_ne (Ne.symm hi), hi]
  | putRead jdx =>
    simp only [threadStep]
    split <;> simp [owns]
  | putCas jdx old =>
    simp only [threadStep]
    split <;> simp [owns]

theorem threadStep_inRange (h : InRange sz c) : InRange sz (threadStep sz p c).2 := by
  obtain ⟨pc, held⟩ := c
  obtain ⟨hh, ht, hb⟩ := h
  cases pc with
  | idle => exact ⟨hh, ht, hb⟩
  | getFetch =>
    simp only [threadStep]
    split
    · rename_i hlt
      exact ⟨hh, fun ret heq => by cases heq; exact hlt, nofun⟩
    · exact ⟨hh, nofun, nofun⟩
  | getTest ret =>
    simp only [threadStep]
    split
    · exact ⟨hh, nofun, nofun⟩
    · exact ⟨forall_mem_cons.mpr ⟨ht ret rfl, hh⟩, nofun, nofun⟩
  | putClear idx => exact ⟨hh, nofun, nofun⟩
  | putRead idx =>
    simp only [threadStep]
    split
    · rename_i hlt
      exact ⟨hh, nofun, fun idx old heq => by cases heq; exact hlt⟩
    · exact ⟨hh, nofun, nofun⟩
  | putCas idx old =>
    simp only [threadStep]
    split <;> exact ⟨hh, nofun, nofun⟩

theorem threadStep_clears (hs : p.locked idx = true)
    (hf : (threadStep sz p c).1.locked idx = false) : Pending idx (threadStep sz p c).2 := by
  obtain ⟨pc, held⟩ := c
  cases pc with
  | putClear jdx =>
    by_cases hne : idx = jdx
    · exact .inr (.inl (by rw [hne]; rfl))
    · simp [threadStep, update_of_ne hne, hs] at hf
  | getTest ret =>
    simp only [threadStep] at hf
    split at hf
    · simp [hs] at hf
    · by_cases hne : idx = ret
      · simp [hne] at hf
      · simp [update_of_ne hne, hs] at hf
  | idle => simp [threadStep, hs] at hf
  | getFetch =>
    simp only [threadStep] at hf
    split at hf <;> simp [hs] at hf
  | putRead jdx =>
    simp only [threadStep] at hf
    split at hf <;> simp [hs] at hf
  | putCas jdx old =>
    simp only [threadStep] at hf
    split at hf <;> simp [hs] at hf

/-- **The cursor**: a free index that was not below the cursor or pending in this thread still is
after a step. -/
theorem threadStep_covered (hc : InRange sz c) (hi : idx < sz)
    (hf : (threadStep sz p c).1.locked idx = false) (h : p.curr ≤ idx ∨ Pending idx c) :
    (threadStep sz p c).1.curr ≤ idx ∨ Pending idx (threadStep sz p c).2 := by
  obtain ⟨pc, held⟩ := c
  cases pc with
  | idle => exact h
  | getFetch =>
    have hle : p.curr ≤ idx := h.resolve_right (by simp [Pending])
    simp only [threadStep, if_pos (lt_of_le_of_lt hle hi)]
    rcases eq_or_lt_of_le hle with rfl | hlt
    · exact .inr (.inl rfl)
    · exact .inl ((Nat.mod_le _ _).trans hlt)
  | getTest ret =>
    simp only [threadStep] at hf ⊢
    refine .inl ?_
    -- the index that is tested is taken afterwards
    have hne : ret ≠ idx := by
      rintro rfl
      split at hf <;> simp_all
    have hle : p.curr ≤ idx := h.resolve_right (by simpa [Pending] using hne)
    split <;> exact hle
  | putClear jdx => exact .inl (h.resolve_right (by simp [Pending]))
  | putRead jdx =>
    simp only [threadStep]
    by_cases hlt : jdx < p.curr
    · rw [if_pos hlt]
      refine h.imp_right fun hp => ?_
      obtain rfl : jdx = idx := by simpa [Pending] using hp
      exact .inr (.inr ⟨_, rfl⟩)
    · rw [if_neg hlt]
      refine .inl (h.elim id fun hp => ?_)
      obtain rfl : jdx = idx := by simpa [Pending] using hp
      exact not_lt.mp hlt
  | putCas jdx old =>
    simp only [threadStep]
    by_cases hca : p.curr = old
    · -- the cursor moves back to an index below it
      rw [if_pos hca]
      have hlt := hc.back jdx old rfl
      refine .inl (h.elim (fun hle => ?_) fun hp => ?_)
      · exact le_of_lt (lt_of_lt_of_le (hca ▸ hlt) hle)
      · obtain rfl : jdx = idx := by simpa [Pending] using hp
        exact le_rfl
    · rw [if_neg hca]
      refine h.imp_right fun hp => ?_
      obtain rfl : jdx = idx := by simpa [Pending] using hp
      exact .inr (.inl rfl)

/-! ### Calls -/

theorem owns_callGet : owns idx (callGet c) = owns idx c := by
  rw [callGet]
  split
  · rename_i hpc
    simp [owns, hpc]
  · rfl

theorem pending_callGet (h : Pending idx c) : Pending idx (callGet c) := by
  rw [callGet, if_neg]
  · exact h
  · rintro hpc
    simp [Pending, hpc] at h

theorem inRange_callGet (h : InRange sz c) : InRange sz (callGet c) := by
  rw [callGet]
  split
  · exact ⟨h.held, nofun, nofun⟩
  · exact h

theorem owns_callPut {jdx : ℕ} (hc : InRange sz c) : owns idx (callPut sz jdx c) = owns idx c := by
  rw [callPut]
  split
  · rename_i hca
    obtain ⟨hpc, hm⟩ := hca
    rw [if_pos (hc.held jdx hm)]
    by_cases hi : jdx = idx
    · subst hi
      have hp := count_pos_iff.mpr hm
      simp only [owns, hpc, count_erase_self, if_true, reduceCtorEq, if_false]
      omega
    · simp [owns, hpc, count_erase_of_ne (Ne.symm hi), hi]
  · rfl

theorem pending_callPut {jdx : ℕ} (h : Pending idx c) : Pending idx (callPut sz jdx c) := by
  rw [callPut, if_neg]
  · exact h
  · rintro ⟨hpc, -⟩
    simp [Pending, hpc] at h

theorem inRange_callPut {jdx : ℕ} (h : InRange sz c) : InRange sz (callPut sz jdx c) := by
  have he : ∀ idx ∈ c.held.erase jdx, idx < sz := fun idx hi =>
    h.held idx (mem_of_mem_erase hi)
  rw [callPut]
  split
  · split <;> exact ⟨he, nofun, nofun⟩
  · exact h

end

/-! ### The invariant of the pool -/

/-- The flags say which indices are owned, and a free index is not below the cursor unless
an operation on it is pending. -/
structure Inv (sz : ℕ) (s : System) : Prop where
  inRange : ∀ c ∈ s.threads, InRange sz c
  owned : ∀ idx, total (owns idx) s.threads = flag (s.pool.locked idx)
  covered : ∀ idx < sz, s.pool.locked idx = false →
    s.pool.curr ≤ idx ∨ ∃ c ∈ s.threads, Pending idx c

section

variable {sz t : ℕ} {s : System} {c : Thread}

theorem inv_new (sz k : ℕ) : Inv sz (System.new k) where
  inRange c hc := by
    rw [eq_of_mem_replicate hc]
    exact ⟨nofun, nofun, nofun⟩
  owned idx := total_eq_zero fun c hc => by
    rw [eq_of_mem_replicate hc]
    rfl
  covered idx _ _ := .inl (Nat.zero_le idx)

theorem Inv.locked_of_owns (h : Inv sz s) (hc : s.threads[t]? = some c) {idx : ℕ}
    (hp : 0 < owns idx c) : s.pool.locked idx = true := by
  have hs := total_set (owns idx) hc (d := (⟨.idle, []⟩ : Thread))
  have hz : owns idx ⟨.idle, []⟩ = 0 := rfl
  have how := h.owned idx
  cases hl : s.pool.locked idx with
  | true => rfl
  | false =>
    rw [hl] at how
    have : flag false = 0 := rfl
    omega

theorem Inv.set (h : Inv sz s) (hc : s.threads[t]? = some c) {r : Fsp × Thread}
    (hr : InRange sz r.2)
    (how : ∀ idx, flag (r.1.locked idx) + owns idx c = flag (s.pool.locked idx) + owns idx r.2)
    (hcl : ∀ idx, s.pool.locked idx = true → r.1.locked idx = false → Pending idx r.2)
    (hco : ∀ idx < sz, r.1.locked idx = false → s.pool.curr ≤ idx ∨ Pending idx c →
      r.1.curr ≤ idx ∨ Pending idx r.2) : Inv sz (setThread s t r) where
  inRange d hd := by
    rcases mem_or_eq_of_mem_set hd with hd | rfl
    · exact h.inRange d hd
    · exact hr
  owned idx := by
    have hs := total_set (owns idx) hc (d := r.2)
    have ho := h.owned idx
    have := how idx
    simp only [setThread]
    omega
  covered idx hi hf := by
    have hse : r.2 ∈ (setThread s t r).threads := mem_set (lt_of_getElem? hc) r.2
    have hdon : r.1.curr ≤ idx ∨ Pending idx r.2 →
        (setThread s t r).pool.curr ≤ idx ∨ ∃ d ∈ (setThread s t r).threads, Pending idx d :=
      Or.imp_right fun hp => ⟨r.2, hse, hp⟩
    cases hl : s.pool.locked idx with
    | true => exact hdon (.inr (hcl idx hl hf))
    | false =>
      rcases h.covered idx hi hl with hle | ⟨d, hd, hp⟩
      · exact hdon (hco idx hi hf (.inl hle))
      obtain ⟨u, hu⟩ := getElem?_of_mem hd
      by_cases hut : u = t
      · subst hut
        obtain rfl : c = d := Option.mem_unique hc hu
        exact hdon (hco idx hi hf (.inr hp))
      · refine .inr ⟨d, mem_of_getElem? (i := u) ?_, hp⟩
        rw [setThread, getElem?_set_ne (Ne.symm hut)]
        exact hu

theorem Inv.step (h : Inv sz s) (a : Action) : Inv sz (systemStep sz s a) := by
  cases a with
  | get t =>
    rw [systemStep]
    cases hc : s.threads[t]? with
    | none => exact h
    | some c =>
      refine h.set hc (inRange_callGet (h.inRange c (mem_of_getElem? hc)))
        (fun idx => by rw [owns_callGet]) (fun idx hs hf => ?_)
        fun idx _ _ => Or.imp_right pending_callGet
      exact absurd (hs.symm.trans hf) (by simp)
  | put t idx =>
    rw [systemStep]
    cases hc : s.threads[t]? with
    | none => exact h
    | some c =>
      have hr := h.inRange c (mem_of_getElem? hc)
      refine h.set hc (inRange_callPut hr) (fun idx => by rw [owns_callPut hr])
        (fun idx hs hf => ?_) fun idx _ _ => Or.imp_right pending_callPut
      exact absurd (hs.symm.trans hf) (by simp)
  | step t =>
    rw [systemStep]
    cases hc : s.threads[t]? with
    | none => exact h
    | some c =>
      have hr := h.inRange c (mem_of_getElem? hc)
      exact h.set hc (threadStep_inRange hr)
        (fun idx => threadStep_owns (h.locked_of_owns hc))
        (fun idx => threadStep_clears) fun idx => threadStep_covered hr

theorem Inv.eq_of_owns (h : Inv sz s) {u : ℕ} {d : Thread} (hc : s.threads[t]? = some c)
    (hd : s.threads[u]? = some d) {idx : ℕ} (how : 0 < owns idx c) (ho' : 0 < owns idx d) :
    t = u := by
  by_contra hne
  -- taking the two threads' shares away one after the other
  have hd' : (s.threads.set t ⟨.idle, []⟩)[u]? = some d := by
    rw [getElem?_set_ne hne]
    exact hd
  have hs := total_set (owns idx) hc (d := (⟨.idle, []⟩ : Thread))
  have hs' := total_set (owns idx) hd' (d := (⟨.idle, []⟩ : Thread))
  have hz : owns idx ⟨.idle, []⟩ = 0 := rfl
  have ho := h.owned idx
  rw [h.locked_of_owns hc how] at ho
  have : flag true = 1 := rfl
  omega

theorem Inv.exists_held (h : Inv sz s) (hi : ∀ c ∈ s.threads, c.pc = .idle) {idx : ℕ}
    (hl : s.pool.locked idx = true) : ∃ c ∈ s.threads, idx ∈ c.held := by
  by_contra hno
  have hz : total (owns idx) s.threads = 0 := total_eq_zero fun c hc => by
    have hn : idx ∉ c.held := fun hm => hno ⟨c, hc, hm⟩
    simp [owns, hi c hc, count_eq_zero.mpr hn]
  have how := h.owned idx
  rw [hl, hz] at how
  exact absurd how (by simp [flag])

theorem Inv.curr_le (h : Inv sz s) (hid : ∀ c ∈ s.threads, c.pc = .idle) {idx : ℕ}
    (hi : idx < sz) (hf : s.pool.locked idx = false) : s.pool.curr ≤ idx := by
  refine (h.covered idx hi hf).resolve_right ?_
  rintro ⟨c, hc, hp⟩
  simp [Pending, hid c hc] at hp

end

/-! ### A get on its own -/

/-- The state after thread `t` has called `fsp_get` and done some steps, on its own. -/
def getAlone (sz t n : ℕ) (s : System) : System :=
  Runs.run (systemStep sz) s (.get t :: List.replicate n (.step t))

/-- The thread and the pool after some steps of the thread. -/
def soloRun (sz : ℕ) : ℕ → Fsp × Thread → Fsp × Thread
  | 0, r => r
  | n + 1, r => soloRun sz n (threadStep sz r.1 r.2)

/-- A get on the way to the free index `u`, with what the thread held at first: it is at or
below the index, or it has got one. -/
inductive OnTheWay (u : ℕ) (held : List ℕ) : Fsp × Thread → Prop
  | fetch {p : Fsp} (hfree : p.locked u = false) (hle : p.curr ≤ u) :
      OnTheWay u held (p, ⟨.getFetch, held⟩)
  | test {p : Fsp} {ret : ℕ} (hfree : p.locked u = false) (hle : ret ≤ u)
      (hcurr : ret < u → p.curr ≤ u ∧ (u < 2 ^ 32 → p.curr = ret + 1)) :
      OnTheWay u held (p, ⟨.getTest ret, held⟩)
  | got {p : Fsp} (ret : ℕ) : OnTheWay u held (p, ⟨.idle, ret :: held⟩)

section

variable {sz u : ℕ} {held : List ℕ} {r : Fsp × Thread}

theorem OnTheWay.step (hu : u < sz) (h : OnTheWay u held r) :
    OnTheWay u held (threadStep sz r.1 r.2) := by
  cases h with
  | got ret => exact .got ret
  | @fetch p hf hle =>
    simp only [threadStep, if_pos (lt_of_le_of_lt hle hu)]
    refine .test hf hle fun hlt => ⟨(Nat.mod_le _ _).trans hlt, fun hb => ?_⟩
    exact Nat.mod_eq_of_lt (by omega)
  | @test p ret hf hle hc =>
    simp only [threadStep]
    by_cases hr : p.locked ret = true
    · have hlt : ret < u := lt_of_le_of_ne hle fun heq => by
        rw [heq, hf] at hr
        simp at hr
      rw [if_pos hr]
      exact .fetch hf (hc hlt).1
    · rw [if_neg hr]
      exact .got ret

theorem OnTheWay.soloRun (hu : u < sz) (n : ℕ) (h : OnTheWay u held r) :
    OnTheWay u held (soloRun sz n r) := by
  induction n generalizing r with
  | zero => exact h
  | succ n ih => exact ih (h.step hu)

theorem exists_soloRun_got (hu : u < sz) (hb : u < 2 ^ 32) {p : Fsp}
    (hf : p.locked u = false) (hle : p.curr ≤ u) :
    ∃ n ret, (soloRun sz n (p, ⟨.getFetch, held⟩)).2 = ⟨.idle, ret :: held⟩ := by
  -- by induction on how far the cursor is from the index
  obtain ⟨k, hk⟩ := Nat.exists_eq_add_of_le hle
  induction k generalizing p with
  | zero =>
    obtain rfl : u = p.curr := hk
    exact ⟨2, p.curr, by simp [soloRun, threadStep, hu, hf]⟩
  | succ k ih =>
    have hlt : p.curr < sz := by omega
    have hnex : (p.curr + 1) % 2 ^ 32 = p.curr + 1 := Nat.mod_eq_of_lt (by omega)
    by_cases ht : p.locked p.curr = true
    · obtain ⟨n, ret, hn⟩ := ih (p := { p with curr := p.curr + 1 }) hf
        (by simp only; omega) (by simp only; omega)
      refine ⟨n + 2, ret, ?_⟩
      simp only [soloRun, threadStep, if_pos hlt, hnex, if_pos ht]
      exact hn
    · refine ⟨2, p.curr, ?_⟩
      simp only [soloRun, threadStep, if_pos hlt, if_neg ht]

end

/-! ### The functions without interleaving -/

/-- `fsp_get` as one call that no other thread interrupts. The result is the index, or nothing for
`INVALID_IDX`. -/
def fspGet (sz : ℕ) (p : Fsp) : Option ℕ × Fsp :=
  let r := soloRun sz (2 * sz + 1) (p, ⟨.getFetch, []⟩)
  (r.2.held.head?, r.1)

/-- `fsp_put` as one call that no other thread interrupts. -/
def fspPut (sz idx : ℕ) (p : Fsp) : Fsp :=
  if idx < sz then (soloRun sz 3 (p, ⟨.putClear idx, []⟩)).1 else p

/-- A get that found the flags as in `p`: it has changed none of them yet, or it has set the one it
returns. -/
inductive Getting (sz : ℕ) (p : Fsp) : Fsp × Thread → Prop
  | fetch {q : Fsp} (hq : q.locked = p.locked) : Getting sz p (q, ⟨.getFetch, []⟩)
  | test {q : Fsp} {ret : ℕ} (hq : q.locked = p.locked) (hret : ret < sz) :
      Getting sz p (q, ⟨.getTest ret, []⟩)
  | got {q : Fsp} {ret : ℕ} (hret : ret < sz) (hfree : p.locked ret = false)
      (hq : q.locked = Function.update p.locked ret true) : Getting sz p (q, ⟨.idle, [ret]⟩)
  | failed {q : Fsp} (hq : q.locked = p.locked) : Getting sz p (q, ⟨.idle, []⟩)

section

variable {sz : ℕ} {p : Fsp} {r : Fsp × Thread}

theorem Getting.step (h : Getting sz p r) : Getting sz p (threadStep sz r.1 r.2) := by
  cases h with
  | @fetch q hq =>
    simp only [threadStep]
    split
    · rename_i hlt
      exact .test hq hlt
    · exact .failed hq
  | @test q ret hq hr =>
    simp only [threadStep]
    split
    · exact .fetch hq
    · rename_i hl
      refine .got hr ?_ (by rw [hq])
      rw [← hq]
      simpa using hl
  | got hr hf hq => exact .got hr hf hq
  | failed hq => exact .failed hq

theorem Getting.soloRun (n : ℕ) (h : Getting sz p r) : Getting sz p (soloRun sz n r) := by
  induction n generalizing r with
  | zero => exact h
  | succ n ih => exact ih h.step

/-- **What a get does**: it returns a free index and sets its flag, or it leaves all flags as they
are. -/
theorem fspGet_cases (sz : ℕ) (p : Fsp) :
    (∃ ret < sz, p.locked ret = false ∧ (fspGet sz p).1 = some ret ∧
      (fspGet sz p).2.locked = update p.locked ret true) ∨
    (fspGet sz p).1 = none ∧ (fspGet sz p).2.locked = p.locked := by
  have he : Getting sz p (Pool.soloRun sz (2 * sz + 1) (p, ⟨.getFetch, []⟩)) :=
    (Getting.fetch rfl).soloRun _
  rw [fspGet]
  generalize Pool.soloRun sz (2 * sz + 1) (p, ⟨.getFetch, []⟩) = r at he
  cases he with
  | fetch hq => exact .inr ⟨rfl, hq⟩
  | test hq _ => exact .inr ⟨rfl, hq⟩
  | got hr hf hq => exact .inl ⟨_, hr, hf, rfl, hq⟩
  | failed hq => exact .inr ⟨rfl, hq⟩

theorem soloRun_idle (n : ℕ) (q : Fsp) (held : List ℕ) :
    soloRun sz n (q, ⟨.idle, held⟩) = (q, ⟨.idle, held⟩) := by
  induction n with
  | zero => rfl
  | succ n ih => exact ih

theorem pc_soloRun_last (n : ℕ) (held : List ℕ) (hge : sz ≤ p.curr) :
    (soloRun sz (n + 1) (p, ⟨.getFetch, held⟩)).2.pc = .idle := by
  rw [soloRun]
  simp only [threadStep, if_neg (not_lt.mpr hge), soloRun_idle]

theorem pc_soloRun_get (hs : sz < 2 ^ 32) (held : List ℕ) (k : ℕ) {p : Fsp}
    (hk : sz ≤ p.curr + k) : (soloRun sz (2 * k + 1) (p, ⟨.getFetch, held⟩)).2.pc = .idle := by
  induction k generalizing p with
  | zero => exact pc_soloRun_last 0 held hk
  | succ k ih =>
    by_cases hlt : p.curr < sz
    · rw [show 2 * (k + 1) + 1 = 2 * k + 1 + 1 + 1 by omega, soloRun, soloRun]
      simp only [threadStep, if_pos hlt]
      by_cases hl : p.locked p.curr = true
      · have hn : (p.curr + 1) % 2 ^ 32 = p.curr + 1 := Nat.mod_eq_of_lt (by omega)
        have hk' : sz ≤ (p.curr + 1) % 2 ^ 32 + k := by omega
        rw [if_pos hl]
        exact ih hk'
      · rw [if_neg hl, soloRun_idle]
    · exact pc_soloRun_last _ held (not_lt.mp hlt)

theorem locked_of_fspGet_eq_none (hs : sz < 2 ^ 32) (hn : (fspGet sz p).1 = none) {u : ℕ}
    (hu : u < sz) (hle : p.curr ≤ u) : p.locked u = true := by
  by_contra hf
  have hw : OnTheWay u [] (p, ⟨.getFetch, []⟩) := .fetch (by simpa using hf) hle
  have he := hw.soloRun hu (2 * sz + 1)
  have hi := pc_soloRun_get hs [] sz (p := p) (by omega)
  rw [fspGet] at hn
  generalize Pool.soloRun sz (2 * sz + 1) (p, ⟨.getFetch, []⟩) = r at he hi hn
  cases he with
  | fetch => simp at hi
  | test => simp at hi
  | got ret => simp at hn

theorem fspPut_eq {idx : ℕ} (hi : idx < sz) (p : Fsp) :
    fspPut sz idx p = ⟨update p.locked idx false, min idx p.curr⟩ := by
  have hr : soloRun sz 3 (p, ⟨.putClear idx, []⟩) =
      soloRun sz 1 (if idx < p.curr
        then (⟨update p.locked idx false, p.curr⟩, ⟨.putCas idx p.curr, []⟩)
        else (⟨update p.locked idx false, p.curr⟩, ⟨.idle, []⟩)) := rfl
  rw [fspPut, if_pos hi, hr]
  by_cases hlt : idx < p.curr
  · rw [if_pos hlt, soloRun, soloRun]
    simp only [threadStep, if_true, min_eq_left hlt.le]
  · rw [if_neg hlt, soloRun_idle, min_eq_right (not_lt.mp hlt)]

end

section

variable {sz t : ℕ} {s : System} {c : Thread}

theorem threads_run_steps (n : ℕ) (hc : s.threads[t]? = some c) :
    Runs.run (systemStep sz) s (List.replicate n (.step t)) =
      setThread s t (soloRun sz n (s.pool, c)) := by
  induction n generalizing s c with
  | zero =>
    have hs : s.threads.set t c = s.threads := by
      obtain ⟨hlt, rfl⟩ := List.getElem?_eq_some_iff.mp hc
      exact set_getElem_self hlt
    rw [replicate_zero, Runs.run_nil, soloRun, setThread, hs]
  | succ n ih =>
    have hc' : (setThread s t (threadStep sz s.pool c)).threads[t]? =
        some (threadStep sz s.pool c).2 := by
      rw [setThread, getElem?_set_self (lt_of_getElem? hc)]
    rw [replicate_succ, Runs.run_cons, systemStep, hc, ih hc', soloRun]
    simp only [setThread, set_set]

theorem getAlone_thread (n : ℕ) (hc : s.threads[t]? = some c) (hpc : c.pc = .idle) :
    (getAlone sz t n s).threads[t]? = some (soloRun sz n (s.pool, ⟨.getFetch, c.held⟩)).2 := by
  have hlt := lt_of_getElem? hc
  have hca : callGet c = ⟨.getFetch, c.held⟩ := by rw [callGet, if_pos hpc]
  have hc' : (setThread s t (s.pool, callGet c)).threads[t]? = some ⟨.getFetch, c.held⟩ := by
    rw [setThread, getElem?_set_self hlt, hca]
  rw [getAlone, Runs.run_cons, systemStep, hc, threads_run_steps n hc', setThread,
    getElem?_set_self (by simpa [setThread] using hlt)]
  rfl

end

/-! ### Runs -/

/-- No index is held twice, and when no operation is in progress no free index lies below the
cursor, a get that runs on its own and ends without an index finds all held, and it ends with an
index if there is a free one that a 32-bit number can name. -/
structure Sound (sz : ℕ) (s : System) : Prop where
  once : ∀ c ∈ s.threads, c.held.Nodup
  exclusive : ∀ (t u : ℕ) (c d : Thread) (idx : ℕ), s.threads[t]? = some c →
    s.threads[u]? = some d → idx ∈ c.held → idx ∈ d.held → t = u
  curr_le : (∀ c ∈ s.threads, c.pc = .idle) →
    ∀ idx < sz, s.pool.locked idx = false → s.pool.curr ≤ idx
  fails : (∀ c ∈ s.threads, c.pc = .idle) →
    ∀ (t n : ℕ) (c : Thread), s.threads[t]? = some c →
      (getAlone sz t n s).threads[t]? = some c → ∀ idx < sz, ∃ d ∈ s.threads, idx ∈ d.held
  succeeds : (∀ c ∈ s.threads, c.pc = .idle) →
    ∀ (t : ℕ) (c : Thread), s.threads[t]? = some c → ∀ idx < sz, idx < 2 ^ 32 →
      (∀ d ∈ s.threads, idx ∉ d.held) →
        ∃ n ret, (getAlone sz t n s).threads[t]? = some ⟨.idle, ret :: c.held⟩

theorem Inv.sound {sz : ℕ} {s : System} (h : Inv sz s) : Sound sz s where
  once c hc := by
    obtain ⟨t, ht⟩ := getElem?_of_mem hc
    refine nodup_iff_count_le_one.mpr fun idx => ?_
    have hs := total_set (owns idx) ht (d := (⟨.idle, []⟩ : Thread))
    have how := h.owned idx
    have hfl : flag (s.pool.locked idx) ≤ 1 := by
      rw [flag]
      split <;> omega
    have hz : owns idx ⟨.idle, []⟩ = 0 := rfl
    have hle : c.held.count idx ≤ owns idx c := Nat.le_add_right _ _
    omega
  exclusive t u c d idx hc hd hm hm' :=
    h.eq_of_owns hc hd (Nat.add_pos_left (count_pos_iff.mpr hm) _)
      (Nat.add_pos_left (count_pos_iff.mpr hm') _)
  curr_le hid idx hi hfr := h.curr_le hid hi hfr
  fails hid t n c hc hf idx hi := by
    cases hl : s.pool.locked idx with
    | true => exact h.exists_held hid hl
    | false =>
      have hpc := hid c (mem_of_getElem? hc)
      have hw : OnTheWay idx c.held (s.pool, ⟨.getFetch, c.held⟩) := .fetch hl (h.curr_le hid hi hl)
      rw [getAlone_thread n hc hpc, Option.some.injEq] at hf
      have he := hw.soloRun hi n
      generalize soloRun sz n (s.pool, ⟨.getFetch, c.held⟩) = r at hf he
      cases he with
      | fetch => exact absurd (hf ▸ hpc) (by simp)
      | test => exact absurd (hf ▸ hpc) (by simp)
      | got ret =>
        have hh := congrArg (fun d : Thread => d.held.length) hf
        simp at hh
  succeeds hid t c hc idx hi hb hno := by
    have hfr : s.pool.locked idx = false := by
      cases hl : s.pool.locked idx with
      | false => rfl
      | true =>
        obtain ⟨d, hd, hm⟩ := h.exists_held hid hl
        exact absurd hm (hno d hd)
    obtain ⟨n, ret, hn⟩ := exists_soloRun_got hi hb hfr (h.curr_le hid hi hfr)
    exact ⟨n, ret, by rw [getAlone_thread n hc (hid c (mem_of_getElem? hc)), hn]⟩

/-- **The lock-free pool**: in every interleaving of the atomic steps of any number of threads, no
index is held by two threads, and whenever no operation is in progress every free index is at or
above the cursor, so that a get that follows fails only if all indices are held. -/
theorem sound_of_mem_trace (sz k : ℕ) (as : List Action) :
    ∀ s ∈ Runs.trace (systemStep sz) (System.new k) as, Sound sz s := fun s hs =>
  (Runs.forall_mem_trace (fun _ a h => h.step a) (inv_new sz k) as s hs).sound

/-- Two threads and one index: the second one calls `fsp_get` while the first one puts the
index back. -/
theorem sound_of_mem_trace_two_threads :
    Sound 1 (Runs.run (systemStep 1) (System.new 2)
      [.get 0, .step 0, .step 0, .get 1, .put 0 0, .step 0, .step 1, .step 0, .step 0]) :=
  sound_of_mem_trace 1 2 _ _ (Runs.run_mem_trace _ _)

end Tapasco.Pool
