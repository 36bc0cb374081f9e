import Tapasco.DmaCopyFromSafety

/-!
# The Transfers of a Read

Every call of `do_copy_from` cuts its data into pieces, one for each of its transfers. The
transfers of a call are those that it has copied back, in this order, and then those in
flight. Their places follow each other in the data of the call, and a buffer in flight belongs
to its call alone.
-/

open Word64 Threads List

namespace Tapasco

/-! ### The transfers of a call -/

/-- The numbers of the transfers of a call. -/
def numbersOf (t : ℕ) (l : List Transfer) : List ℕ :=
  (List.range l.length).filter fun i => l[i]?.map Transfer.owner = some t

variable {l : List Transfer} {a b : ℕ} {x : Transfer}

theorem mem_numbersOf {t i : ℕ} : i ∈ numbersOf t l ↔ ∃ x, l[i]? = some x ∧ x.owner = t := by
  rw [numbersOf, mem_filter, List.mem_range, decide_eq_true_iff, Option.map_eq_some_iff]
  refine ⟨fun h => h.2, fun h => ⟨?_, h⟩⟩
  obtain ⟨x, hx, -⟩ := h
  exact lt_of_getElem? hx

theorem nodup_numbersOf (t : ℕ) (l : List Transfer) : (numbersOf t l).Nodup :=
  nodup_range.filter _

/-- A new transfer of the call adds its number. -/
theorem numbersOf_concat (t : ℕ) (l : List Transfer) (x : Transfer) :
    numbersOf t (l ++ [x]) = numbersOf t l ++ if x.owner = t then [l.length] else [] := by
  have ho : (List.range l.length).filter
      (fun i => (l ++ [x])[i]?.map Transfer.owner = some t) = numbersOf t l := by
    refine filter_congr fun i hi => ?_
    rw [getElem?_append_left (List.mem_range.mp hi)]
  rw [numbersOf, length_append, length_singleton, range_succ, filter_append, ho]
  congr 1
  by_cases hx : x.owner = t <;> simp [hx]

/-- The transfers of a call, in order. -/
def ownTransfers (t : ℕ) (l : List Transfer) : List Transfer :=
  l.filter fun x => x.owner = t

theorem ownTransfers_concat (t : ℕ) (l : List Transfer) (x : Transfer) :
    ownTransfers t (l ++ [x]) = ownTransfers t l ++ if x.owner = t then [x] else [] := by
  rw [ownTransfers, filter_append]
  congr 1
  by_cases hx : x.owner = t <;> simp [hx]

/-- The places of the transfers follow each other, from `a` to `b`. -/
def Tiled : ℕ → List Transfer → ℕ → Prop
  | a, [], b => a = b
  | a, x :: l, b => x.offset = a ∧ Tiled (a + x.desc.size) l b

/-- A transfer is added at the end. -/
theorem Tiled.concat (h : Tiled a l b) (hx : x.offset = b) :
    Tiled a (l ++ [x]) (b + x.desc.size) := by
  induction l generalizing a with
  | nil =>
    obtain rfl : a = b := h
    exact ⟨hx, rfl⟩
  | cons y l ih => exact ⟨h.1, ih h.2⟩

theorem Tiled.le (h : Tiled a l b) : a ≤ b := by
  induction l generalizing a with
  | nil => exact le_of_eq h
  | cons y l ih => exact (Nat.le_add_right _ _).trans (ih h.2)

/-- Each transfer lies between the ends. -/
theorem Tiled.mem_range (h : Tiled a l b) (hx : x ∈ l) :
    a ≤ x.offset ∧ x.offset + x.desc.size ≤ b := by
  induction l generalizing a with
  | nil => exact absurd hx not_mem_nil
  | cons y l ih =>
    rcases mem_cons.mp hx with rfl | hx
    · exact ⟨h.1.ge, by rw [h.1]; exact h.2.le⟩
    · obtain ⟨hle, hle'⟩ := ih h.2 hx
      exact ⟨(Nat.le_add_right _ _).trans hle, hle'⟩

/-- No two transfers overlap. -/
theorem Tiled.pairwise (h : Tiled a l b) :
    l.Pairwise fun x y => x.offset + x.desc.size ≤ y.offset := by
  induction l generalizing a with
  | nil => exact List.Pairwise.nil
  | cons y l ih =>
    refine List.Pairwise.cons (fun z hz => ?_) (ih h.2)
    rw [h.1]
    exact (h.2.mem_range hz).1

/-- Every byte between the ends has a transfer. -/
theorem Tiled.exists_mem (h : Tiled a l b) {k : ℕ} (ha : a ≤ k) (hkb : k < b) :
    ∃ x ∈ l, x.offset ≤ k ∧ k < x.offset + x.desc.size := by
  induction l generalizing a with
  | nil =>
    obtain rfl : a = b := h
    omega
  | cons y l ih =>
    by_cases hk : k < a + y.desc.size
    · exact ⟨y, mem_cons_self, by rw [h.1]; exact ⟨ha, hk⟩⟩
    · obtain ⟨x, hx, hp⟩ := ih h.2 (not_lt.mp hk)
      exact ⟨x, mem_cons_of_mem y hx, hp⟩

/-- Different transfers of a call have different bytes. -/
theorem Tiled.disjoint {t i j : ℕ} (h : Tiled a (ownTransfers t l) b) {y : Transfer}
    (hx : l[i]? = some x) (hy : l[j]? = some y) (hxt : x.owner = t) (hyt : y.owner = t)
    (hij : i ≠ j) : x.offset + x.desc.size ≤ y.offset ∨ y.offset + y.desc.size ≤ x.offset := by
  have hp := pairwise_iff_getElem.mp (pairwise_filter.mp h.pairwise)
  obtain ⟨hi, rfl⟩ := List.getElem?_eq_some_iff.mp hx
  obtain ⟨hj, rfl⟩ := List.getElem?_eq_some_iff.mp hy
  rcases lt_or_gt_of_ne hij with hlt | hgt
  · exact .inl (hp i j hi hj hlt (decide_eq_true hxt) (decide_eq_true hyt))
  · exact .inr (hp j i hj hi hgt (decide_eq_true hyt) (decide_eq_true hxt))

namespace CopyFrom

/-! ### What is in flight -/

/-- The piece whose transfer has been issued and is still to be counted. -/
def ahead (s : Shared) (c : CopyFrom) : List Piece :=
  match c.pc with
  | .count b => [⟨(s.channel c.stream).cntr, b, c.ptrBuffer, c.bttThis b⟩]
  | _ => []

/-- The pieces whose transfers were issued and which are not copied back. -/
def flying (s : Shared) (c : CopyFrom) : List Piece :=
  c.pieces ++ c.ahead s

/-- The place up to which transfers were issued. -/
def reach (c : CopyFrom) : ℕ :=
  match c.pc with
  | .count b => c.ptrBuffer + c.bttThis b
  | _ => c.ptrBuffer

variable {c : CopyFrom}

theorem ahead_eq_nil (s : Shared) (h : ∀ b, c.pc ≠ .count b) : c.ahead s = [] := by
  rw [ahead]
  split
  · rename_i b hb
    exact absurd hb (h b)
  · rfl

theorem reach_eq (h : ∀ b, c.pc ≠ .count b) : c.reach = c.ptrBuffer := by
  rw [reach]
  split
  · rename_i b hb
    exact absurd hb (h b)
  · rfl

/-- **What a step does to what is in flight.** It issues a transfer, copies the first piece back,
drops all, or leaves them alone. -/
theorem flying_step_cases {s : Shared} (h : Tidy s c) (t : ℕ) (r : Reply) :
    let s' := (step t r s c).1
    let c' := (step t r s c).2
    let issued := (s.channel c.stream).engine.issued
    let issued' := (s'.channel c.stream).engine.issued
    (∃ b, c.pc = .schedule b ∧ issued' = issued ++ [c.transfer s t b] ∧
      c'.flying s' = c.flying s ++ [⟨(s.channel c.stream).cntr, b, c.reach, c.bttThis b⟩] ∧
      c'.reach = c.reach + c.bttThis b ∧ c'.copied = c.copied ∧ c'.data = c.data) ∨
    (∃ p rest, issued' = issued ∧ c.flying s = p :: rest ∧ c'.flying s' = rest ∧
      p.number < (s.channel c.stream).intCntr ∧ c.reach = c.ptrBuffer ∧ c'.reach = c.reach ∧
      c.pc.failed = false ∧ c'.copied = c.copied ++ [p.number] ∧
      c'.data = overwrite c.data p.offset p.len (s.mapped p.buffer.addr)) ∨
    (issued' = issued ∧ c'.flying s' = [] ∧ c'.pc.failed = true ∧
      s'.lost = s.lost ++ c.holding.map (fun b => (t, b)) ∧ c.flying s = c.pieces ∧
      c'.reach = c.reach ∧ c'.copied = c.copied ∧ c'.data = c.data) ∨
    issued' = issued ∧ c'.flying s' = c.flying s ∧ c'.reach = c.reach ∧
      c'.pc.failed = c.pc.failed ∧ c'.copied = c.copied ∧ c'.data = c.data := by
  have hs := stream_step t r s c
  rcases issued_step_cases t r s c with
    ⟨b, hpc, hc', hcn, hi⟩ | ⟨b, hpc, -, hi⟩ | ⟨-, hpc, hpc', hcn, hi⟩
  · refine .inl ⟨b, hpc, hi, ?_, ?_, ?_, ?_⟩
    · simp [hc', flying, ahead, pieces, goto, hpc, Pc.piece, reach, hcn, bttThis]
    · simp [hc', reach, goto, hpc, bttThis]
    · rw [hc']
      rfl
    · rw [hc']
      rfl
  · rcases pieces_step_cases h t r with
      ⟨b', hb', hlo, hpt, hpi, hc, hd⟩ | ⟨p, rest, -, -, -, -, hne, -⟩ |
      ⟨-, -, hne, -⟩ | ⟨hne, -⟩
    · obtain rfl : b = b' := by simpa [hpc] using hb'
      refine .inr (.inr (.inr ⟨hi, ?_, ?_, ?_, hc, hd⟩))
      · rw [flying, flying, hpi, ahead_eq_nil _ (by simp [hlo]), ahead, hpc, append_nil]
      · rw [reach_eq (by simp [hlo]), reach, hpc, hpt]
      · rw [hlo, hpc]
        rfl
    all_goals exact absurd hpc (hne b)
  · have hfl : c.flying s = c.pieces := by
      rw [flying, ahead_eq_nil s hpc, append_nil]
    have hf' : (step t r s c).2.flying (step t r s c).1 =
        (step t r s c).2.pieces := by
      rw [flying, ahead_eq_nil _ hpc', append_nil]
    have hr : (step t r s c).2.ptrBuffer = c.ptrBuffer →
        (step t r s c).2.reach = c.reach := fun hpt => by
      rw [reach_eq hpc', reach_eq hpc, hpt]
    rcases pieces_step_cases h t r with
      ⟨b', hb', -⟩ | ⟨p, rest, hp, hlt, hf, -, -, hre, hc, hpt, hd⟩ |
      ⟨-, hf, -, hn, hl, hc, hpt, hd⟩ |
      ⟨-, hf, hpi, hc, hpt, hd⟩
    · exact absurd hb' (hpc b')
    · exact .inr (.inl ⟨p, rest, hi, hfl.trans hp, hf'.trans hre, hlt,
        reach_eq hpc, hr hpt, hf, hc, hd⟩)
    · exact .inr (.inr (.inl ⟨hi, hf'.trans hn, hf, hl, hfl, hr hpt, hc, hd⟩))
    · exact .inr (.inr (.inr ⟨hi, (hf'.trans hpi).trans hfl.symm, hr hpt, hf, hc, hd⟩))

theorem numbersOf_transfer (t : ℕ) (l : List Transfer) (c : CopyFrom) (s : Shared) (b : DMABuffer) :
    numbersOf t (l ++ [c.transfer s t b]) = numbersOf t l ++ [l.length] :=
  (numbersOf_concat t l _).trans (congrArg _ (if_pos rfl))

theorem ownTransfers_transfer (t : ℕ) (l : List Transfer) (c : CopyFrom) (s : Shared)
    (b : DMABuffer) :
    ownTransfers t (l ++ [c.transfer s t b]) = ownTransfers t l ++ [c.transfer s t b] :=
  (ownTransfers_concat t l _).trans (congrArg _ (if_pos rfl))

/-- A call that has failed stays so. -/
theorem failed_step (t : ℕ) (r : Reply) (s : Shared) (c : CopyFrom)
    (h : c.pc.failed = true) : (step t r s c).2.pc.failed = true := by
  fun_cases step t r s c <;> simp_all [Pc.failed]

/-- The piece is the one that the transfer was issued for. -/
structure Piece.Of (p : Piece) (x : Transfer) : Prop where
  addr : x.desc.addrHost = p.buffer.addr
  offset : x.offset = p.offset
  size : x.desc.size = p.len

namespace System

variable {buffers : List DMABuffer}

/-- A step of a call issues a transfer of its own, or none. -/
theorem issued_afterCall_cases (s : System) (t : ℕ) (r : Reply) (c : CopyFrom) (st : Bool) :
    ((s.afterCall t r c).engine st).issued = (s.engine st).issued ∨
    ∃ b, c.pc = .schedule b ∧ st = c.stream ∧
      ((s.afterCall t r c).engine st).issued =
        (s.engine st).issued ++ [c.transfer s.shared t b] := by
  by_cases hs : st = c.stream
  · subst hs
    rcases issued_step_cases t r s.shared c with
      ⟨b, hpc, -, -, hi⟩ | ⟨b, -, -, hi⟩ | ⟨-, -, -, -, hi⟩
    · exact .inr ⟨b, hpc, rfl, hi⟩
    · exact .inl hi
    · exact .inl hi
  · exact .inl (congrArg (fun ch => ch.engine.issued) (channel_step_of_ne t r s.shared c hs))

variable {s : System} {t : ℕ} {c : CopyFrom}

/-- A transfer keeps its number. -/
theorem getElem?_issued_mono {r : Reply} {st : Bool} {i : ℕ}
    (hx : (s.engine st).issued[i]? = some x) :
    ((s.afterCall t r c).engine st).issued[i]? = some x := by
  rcases issued_afterCall_cases s t r c st with heq | ⟨b, -, -, heq⟩ <;> rw [heq]
  · exact hx
  · rw [getElem?_append_left (lt_of_getElem? hx)]
    exact hx

/-- A transfer was there before the step, or is the one that it issues. -/
theorem getElem?_issued_cases {r : Reply} {st : Bool} {i : ℕ}
    (hx : ((s.afterCall t r c).engine st).issued[i]? = some x) :
    (s.engine st).issued[i]? = some x ∨
      ∃ b, c.pc = .schedule b ∧ st = c.stream ∧ x = c.transfer s.shared t b ∧
        i = (s.engine st).issued.length ∧
        ((s.afterCall t r c).engine st).issued.length = i + 1 := by
  rcases issued_afterCall_cases s t r c st with heq | ⟨b, hpc, hs, heq⟩
  · rw [heq] at hx
    exact .inl hx
  rw [heq] at hx ⊢
  rcases getElem?_concat_cases hx with ⟨rfl, rfl⟩ | ho
  · exact .inr ⟨b, hpc, hs, rfl, rfl, length_append⟩
  · exact .inl ho

/-- A step adds no transfer to another call. -/
theorem numbersOf_afterCall_of_ne (s : System) {u : ℕ} (hut : u ≠ t) (r : Reply) (c : CopyFrom)
    (st : Bool) :
    numbersOf u ((s.afterCall t r c).engine st).issued = numbersOf u (s.engine st).issued := by
  rcases issued_afterCall_cases s t r c st with heq | ⟨b, -, -, heq⟩ <;> rw [heq]
  have hne : (c.transfer s.shared t b).owner ≠ u := Ne.symm hut
  rw [numbersOf_concat, if_neg hne, append_nil]

theorem ownTransfers_afterCall_of_ne (s : System) {u : ℕ} (hut : u ≠ t) (r : Reply)
    (c : CopyFrom) (st : Bool) :
    ownTransfers u ((s.afterCall t r c).engine st).issued =
      ownTransfers u (s.engine st).issued := by
  rcases issued_afterCall_cases s t r c st with heq | ⟨b, -, -, heq⟩ <;> rw [heq]
  have hne : (c.transfer s.shared t b).owner ≠ u := Ne.symm hut
  rw [ownTransfers_concat, if_neg hne, append_nil]

/-- A step of a call completes no transfer. -/
theorem log_afterCall (s : System) (t : ℕ) (r : Reply) (c : CopyFrom) (st : Bool) :
    ((s.afterCall t r c).engine st).log = (s.engine st).log := by
  by_cases hs : st = c.stream
  · subst hs
    exact (engine_step t r s.shared c).2
  · exact congrArg (fun ch => ch.engine.log) (channel_step_of_ne t r s.shared c hs)

/-- What other calls have in flight does not change: while one of them is about to count its
transfer it has the lock. -/
theorem flying_afterCall_of_ne (h : s.Indexed) {u : ℕ} {d : CopyFrom} (hc : s.calls[t]? = some c)
    (hd : s.calls[u]? = some d) (hut : u ≠ t) (r : Reply) :
    d.flying (s.afterCall t r c).shared = d.flying s.shared := by
  rw [flying, flying]
  congr 1
  rw [ahead, ahead]
  split
  · rename_i b hb
    have hl : s.shared.lock = some u := h.lock u d hd (by rw [hb]; rfl)
    have hcn : ((s.afterCall t r c).shared.channel d.stream).cntr =
        (s.shared.channel d.stream).cntr := by
      by_cases hs : d.stream = c.stream
      · rw [hs]
        rcases issued_step_cases t r s.shared c with
          ⟨b, -, -, hcn, -⟩ | ⟨b, hpc, -⟩ | ⟨-, -, -, hcn, -⟩
        · exact hcn
        · have hl' : s.shared.lock = some t := h.lock t c hc (by rw [hpc]; rfl)
          exact absurd (Option.mem_unique hl hl') hut
        · exact hcn
      · exact congrArg Channel.cntr (channel_step_of_ne t r s.shared c hs)
    rw [hcn]
  · rfl

/-! ### The transfers of a call are its pieces -/

/-- The transfers of a call are those that it has copied back, in this order, and then those
that it has in flight. -/
structure Numbered (s : System) : Prop where
  owner : ∀ st, ∀ x ∈ (s.engine st).issued,
    ∃ c, s.calls[x.owner]? = some c ∧ c.stream = st
  copied : ∀ (t : ℕ) (c : CopyFrom), s.calls[t]? = some c →
    c.copied <+: numbersOf t (s.engine c.stream).issued
  inFlight : ∀ (t : ℕ) (c : CopyFrom), s.calls[t]? = some c → c.pc.failed = false →
    numbersOf t (s.engine c.stream).issued = c.copied ++ (c.flying s.shared).map Piece.number
  pieceOf : ∀ (t : ℕ) (c : CopyFrom), s.calls[t]? = some c → ∀ p ∈ c.flying s.shared,
    ∃ x, (s.engine c.stream).issued[p.number]? = some x ∧ p.Of x

/-- Under the lock, the counter is the number of the next transfer. -/
theorem Indexed.cntr_of_schedule (h : s.Indexed) (hc : s.calls[t]? = some c) {b : DMABuffer}
    (hpc : c.pc = .schedule b) :
    (s.shared.channel c.stream).cntr = (s.engine c.stream).issued.length := by
  have hi := h.cntr_add_uncounted hc (by rw [hpc]; rfl)
  rw [hpc] at hi
  exact hi

/-- Every transfer still has its call. -/
theorem Numbered.owner_afterCall (h : s.Numbered) (hc : s.calls[t]? = some c) (r : Reply)
    (st : Bool) :
    ∀ x ∈ ((s.afterCall t r c).engine st).issued,
      ∃ d, (s.afterCall t r c).calls[x.owner]? = some d ∧ d.stream = st := by
  intro x hx
  have hs := getElem?_afterCall_self hc r
  have hst := stream_step t r s.shared c
  obtain ⟨i, hi⟩ := getElem?_of_mem hx
  rcases getElem?_issued_cases hi with ho | ⟨b, -, rfl, rfl, -⟩
  · obtain ⟨d, hd, hds⟩ := h.owner st x (mem_of_getElem? ho)
    by_cases hxt : x.owner = t
    · rw [hxt, hc, Option.some.injEq] at hd
      subst hd
      exact ⟨_, hxt ▸ hs, hst.trans hds⟩
    · exact ⟨d, (getElem?_afterCall_of_ne s r c hxt).trans hd, hds⟩
  · exact ⟨_, hs, hst⟩

/-- A step of a call keeps the numbers. -/
theorem Numbered.afterCall (h : s.Numbered) (hind : s.Indexed) (hc : s.calls[t]? = some c)
    (ht : Tidy s.shared c) (r : Reply) : (s.afterCall t r c).Numbered := by
  have hs := stream_step t r s.shared c
  have hca := flying_step_cases ht t r
  have hco := h.copied t c hc
  refine ⟨h.owner_afterCall hc r, fun u d hd => ?_, fun u d hd hf => ?_, fun u d hd p hp => ?_⟩
  · rcases getElem?_set_cases hd with ⟨rfl, rfl⟩ | ⟨hut, hd⟩
    · rw [hs]
      rcases hca with ⟨b, hpc, hi, -, -, heq, -⟩ | ⟨p, rest, hi, hp, -, -, -, -,
        hok, heq, -⟩ | ⟨hi, -, -, -, -, -, heq, -⟩ | ⟨hi, -, -, -, heq, -⟩ <;>
        rw [heq, System.afterCall, hi]
      · rw [numbersOf_concat]
        exact hco.trans (prefix_append _ _)
      · have hn := h.inFlight u c hc hok
        rw [hp] at hn
        refine ⟨rest.map Piece.number, ?_⟩
        rw [hn, append_assoc]
        rfl
      · exact hco
      · exact hco
    · rw [numbersOf_afterCall_of_ne s hut]
      exact h.copied u d hd
  · rcases getElem?_set_cases hd with ⟨rfl, rfl⟩ | ⟨hut, hd⟩
    · rw [hs]
      rcases hca with ⟨b, hpc, hi, hfl, -, heq, -⟩ |
        ⟨p, rest, hi, hp, hfl, -, -, -, hok, heq, -⟩ | ⟨-, -, hfa, -⟩ |
        ⟨hi, hfl, -, hfa, heq, -⟩
      · have hn := h.inFlight u c hc (by rw [hpc]; rfl)
        have hcn := hind.cntr_of_schedule hc hpc
        rw [System.afterCall, hi, heq, hfl, numbersOf_transfer, hn, map_append, hcn, append_assoc]
        rfl
      · have hn := h.inFlight u c hc hok
        rw [System.afterCall, hi, heq, hfl, hn, hp, append_assoc]
        rfl
      · exact absurd (hfa.symm.trans hf) (by simp)
      · rw [System.afterCall, hi, heq, hfl]
        exact h.inFlight u c hc (hfa.symm.trans hf)
    · rw [numbersOf_afterCall_of_ne s hut, flying_afterCall_of_ne hind hc hd hut]
      exact h.inFlight u d hd hf
  · rcases getElem?_set_cases hd with ⟨rfl, rfl⟩ | ⟨hut, hd⟩
    · rw [hs]
      have ho : ∀ q ∈ c.flying s.shared, ∃ x,
          ((s.afterCall u r c).engine c.stream).issued[q.number]? = some x ∧
            q.Of x := by
        intro q hq
        obtain ⟨x, hx, hof⟩ := h.pieceOf u c hc q hq
        exact ⟨x, getElem?_issued_mono hx, hof⟩
      rcases hca with ⟨b, hpc, hi, hfl, -⟩ | ⟨q, rest, -, hq, hfl, -⟩ |
        ⟨-, hfl, -⟩ | ⟨-, hfl, -⟩ <;> rw [System.afterCall, hfl] at hp
      · rcases mem_append.mp hp with hp | hp
        · exact ho p hp
        · obtain rfl := mem_singleton.mp hp
          refine ⟨c.transfer s.shared u b, ?_, rfl, ?_, rfl⟩
          · rw [System.afterCall, hi, hind.cntr_of_schedule hc hpc]
            exact getElem?_concat_length
          · exact (reach_eq (by simp [hpc])).symm
      · exact ho p (hq ▸ mem_cons_of_mem q hp)
      · exact absurd hp not_mem_nil
      · exact ho p hp
    · rw [flying_afterCall_of_ne hind hc hd hut] at hp
      obtain ⟨x, hx, hof⟩ := h.pieceOf u d hd p hp
      exact ⟨x, getElem?_issued_mono hx, hof⟩

/-- The engine issues no transfer. -/
theorem issued_afterEngine {stream : Bool} {f : Engine ByteMem → Engine ByteMem}
    {mp : ℕ → ByteMem} (hf : ∀ e, Engine.Works e (f e)) (st : Bool) :
    ((s.afterEngine stream f mp).engine st).issued = (s.engine st).issued := by
  obtain ⟨e, he, hw⟩ := s.exists_channel_afterEngine stream mp hf st
  rw [engine, he, hw.issued]

theorem flying_afterEngine (s : System) (stream : Bool) (f : Engine ByteMem → Engine ByteMem)
    (mp : ℕ → ByteMem) (c : CopyFrom) :
    c.flying (s.afterEngine stream f mp).shared = c.flying s.shared := by
  have hc : ∀ st, ((s.afterEngine stream f mp).shared.channel st).cntr =
      (s.shared.channel st).cntr :=
    forall_channel_afterEngine (P := fun st ch => ch.cntr = (s.shared.channel st).cntr)
      (fun _ => rfl) rfl
  simp only [flying, ahead, hc]

/-- A step of the engine keeps the numbers. -/
theorem Numbered.afterEngine (h : s.Numbered) {stream : Bool} {f : Engine ByteMem → Engine ByteMem}
    {mp : ℕ → ByteMem} (hf : ∀ e, Engine.Works e (f e)) : (s.afterEngine stream f mp).Numbered := by
  have hi := @issued_afterEngine s stream f mp hf
  refine ⟨fun st x hx => ?_, fun t c hc => ?_, fun t c hc hfa => ?_, fun t c hc p hp => ?_⟩
  · rw [hi] at hx
    exact h.owner st x hx
  · rw [hi]
    exact h.copied t c hc
  · rw [hi, flying_afterEngine]
    exact h.inFlight t c hc hfa
  · rw [flying_afterEngine] at hp
    rw [hi]
    exact h.pieceOf t c hc p hp

/-- A new call has no transfers. -/
theorem Numbered.numbersOf_length (h : s.Numbered) (st : Bool) :
    numbersOf s.calls.length (s.engine st).issued = [] := by
  refine eq_nil_iff_forall_not_mem.mpr fun i hi => ?_
  obtain ⟨x, hx, hl⟩ := mem_numbersOf.mp hi
  obtain ⟨c, hc, -⟩ := h.owner st x (mem_of_getElem? hx)
  have hlt := lt_of_getElem? hc
  omega

/-- **Every action keeps the numbers.** -/
theorem numbered_step (h : s.Numbered) (hi : s.Indexed) (ht : s.AllTidy) (a : Action) :
    (s.step a).Numbered := by
  refine step_rule h (fun stream ptr data => ⟨fun st x hx => ?_, fun t c hc => ?_,
    fun t c hc hfa => ?_, fun t c hc p hp => ?_⟩)
    (fun t reply c hc => h.afterCall hi hc (ht c (mem_of_getElem? hc)) reply)
    (fun _ _ _ hf => h.afterEngine hf) a
  · obtain ⟨c, hc, hs⟩ := h.owner st x hx
    exact ⟨c, getElem?_concat_of_some hc _, hs⟩
  · rcases getElem?_concat_cases hc with ⟨-, rfl⟩ | hc
    · exact nil_prefix
    · exact h.copied t c hc
  · rcases getElem?_concat_cases hc with ⟨rfl, rfl⟩ | hc
    · exact h.numbersOf_length stream
    · exact h.inFlight t c hc hfa
  · rcases getElem?_concat_cases hc with ⟨-, rfl⟩ | hc
    · exact absurd hp not_mem_nil
    · exact h.pieceOf t c hc p hp

/-! ### The transfers of a call cover its data -/

/-- The transfers of a call follow each other in its data, and those of a read of memory in
the memory of the device. -/
structure Placed (s : System) : Prop where
  tiled : ∀ (t : ℕ) (c : CopyFrom), s.calls[t]? = some c →
    Tiled 0 (ownTransfers t (s.engine c.stream).issued) c.reach
  ptrDevice : ∀ c ∈ s.calls, c.stream = false →
    c.ptrDevice % 2 ^ 64 = (c.ptr + c.ptrBuffer) % 2 ^ 64
  device : ∀ (t : ℕ) (c : CopyFrom), s.calls[t]? = some c → c.stream = false →
    ∀ x ∈ ownTransfers t (s.engine c.stream).issued,
      x.desc.addrDevice = (c.ptr + x.offset + devOffset s.shared.isVersal) % 2 ^ 64

end System

/-- The pointers to the device and to the data advance together. -/
theorem ptrDevice_step (t : ℕ) (r : Reply) (s : Shared) (hs : c.stream = false)
    (h : c.ptrDevice % 2 ^ 64 = (c.ptr + c.ptrBuffer) % 2 ^ 64) :
    (step t r s c).2.ptrDevice % 2 ^ 64 =
      ((step t r s c).2.ptr + (step t r s c).2.ptrBuffer) % 2 ^ 64 := by
  fun_cases step t r s c
  case case25 b hpc =>
    simp only [hs, wrappingAdd]
    rw [← add_assoc, Nat.add_mod (c.ptr + c.ptrBuffer), ← h]
    simp
  all_goals exact h

namespace System

variable {buffers : List DMABuffer}

variable {s : System} {c : CopyFrom}

/-- A step of a call keeps the places. -/
theorem Placed.afterCall (h : s.Placed) {t : ℕ} (hc : s.calls[t]? = some c)
    (ht : Tidy s.shared c) (r : Reply) : (s.afterCall t r c).Placed := by
  have hs := stream_step t r s.shared c
  have hm : c ∈ s.calls := mem_of_getElem? hc
  have hca := flying_step_cases ht t r
  refine ⟨fun u d hd => ?_, fun d hd hme => ?_, fun u d hd hme => ?_⟩
  · rcases getElem?_set_cases hd with ⟨rfl, rfl⟩ | ⟨hut, hd⟩
    · rw [hs]
      rcases hca with ⟨b, hpc, hi, -, hr, -⟩ |
        ⟨p, rest, hi, -, -, -, -, hr, -⟩ | ⟨hi, -, -, -, -, hr, -⟩ |
        ⟨hi, -, hr, -⟩ <;>
        rw [System.afterCall, hi, hr]
      · rw [ownTransfers_transfer]
        exact (h.tiled u c hc).concat (reach_eq (by simp [hpc])).symm
      all_goals exact h.tiled u c hc
    · rw [ownTransfers_afterCall_of_ne s hut]
      exact h.tiled u d hd
  · rcases mem_or_eq_of_mem_set hd with ho | rfl
    · exact h.ptrDevice d ho hme
    · rw [hs] at hme
      exact ptrDevice_step t r s.shared hme (h.ptrDevice c hm hme)
  · rw [show (s.afterCall t r c).shared.isVersal = s.shared.isVersal from
      isVersal_step t r s.shared c]
    rcases getElem?_set_cases hd with ⟨rfl, rfl⟩ | ⟨hut, hd⟩
    · rw [hs] at hme ⊢
      rw [ptr_step]
      have ho := h.device u c hc hme
      rcases issued_afterCall_cases s u r c c.stream with heq | ⟨b, hpc, -, heq⟩ <;> rw [heq]
      · exact ho
      · rw [ownTransfers_transfer]
        intro x hx
        rcases mem_append.mp hx with hx | hx
        · exact ho x hx
        obtain rfl := mem_singleton.mp hx
        have hp := h.ptrDevice c hm hme
        simp only [transfer, scheduleDmaTransfer, wrappingAdd]
        rw [Nat.add_mod, hp, ← Nat.add_mod]
    · rw [ownTransfers_afterCall_of_ne s hut]
      exact h.device u d hd hme

theorem Numbered.ownTransfers_length (h : s.Numbered) (st : Bool) :
    ownTransfers s.calls.length (s.engine st).issued = [] := by
  refine filter_eq_nil_iff.mpr fun x hx hl => ?_
  obtain ⟨c, hc, -⟩ := h.owner st x hx
  have hlt := lt_of_getElem? hc
  rw [decide_eq_true_iff] at hl
  omega

/-- **Every action keeps the places.** -/
theorem placed_step (h : s.Placed) (hn : s.Numbered) (ht : s.AllTidy) (a : Action) :
    (s.step a).Placed := by
  refine step_rule h (fun stream ptr data => ⟨fun t c hc => ?_, forall_concat h.ptrDevice
    fun _ => rfl, fun t c hc hm => ?_⟩)
    (fun t reply c hc => h.afterCall hc (ht c (mem_of_getElem? hc)) reply)
    (fun stream f mapped hf => ⟨fun t c hc => ?_, h.ptrDevice, fun t c hc => ?_⟩) a
  · rcases getElem?_concat_cases hc with ⟨rfl, rfl⟩ | hc
    · rw [step, hn.ownTransfers_length]
      rfl
    · exact h.tiled t c hc
  · rcases getElem?_concat_cases hc with ⟨rfl, rfl⟩ | hc
    · rw [step, hn.ownTransfers_length]
      exact fun x hx => absurd hx not_mem_nil
    · exact h.device t c hc hm
  all_goals rw [issued_afterEngine hf]
  · exact h.tiled t c hc
  · exact h.device t c hc

/-! ### Nobody else has a buffer in flight -/

/-- The buffer of a transfer in flight is with the call that issued it, or was dropped. -/
def Custody (s : System) : Prop :=
  ∀ (st : Bool) (i : ℕ) (x : Transfer), (s.engine st).done ≤ i →
    (s.engine st).issued[i]? = some x →
    (∃ c, s.calls[x.owner]? = some c ∧ c.stream = st ∧
      ∃ p ∈ c.flying s.shared, p.number = i ∧ p.buffer.addr = x.desc.addrHost) ∨
    ∃ b, (x.owner, b) ∈ s.shared.lost ∧ b.addr = x.desc.addrHost

/-- A call holds the buffers that it has in flight. -/
theorem mem_holding_of_mem_flying {s : Shared} {p : Piece} (hp : p ∈ c.flying s) :
    p.buffer ∈ c.holding := by
  rw [holding, mem_append]
  rcases mem_append.mp hp with hp | hp
  · exact .inr (mem_map_of_mem hp)
  rw [ahead] at hp
  split at hp
  · rename_i b hb
    rw [mem_singleton.mp hp, hb]
    exact .inl (mem_singleton_self b)
  · exact absurd hp not_mem_nil

/-- A buffer that was dropped stays so. -/
theorem lost_subset_afterCall {t : ℕ} (ht : Tidy s.shared c) (r : Reply) {q : ℕ × DMABuffer}
    (hq : q ∈ s.shared.lost) : q ∈ (s.afterCall t r c).shared.lost := by
  rcases holding_step_cases ht t r with ⟨b, -, hl, -⟩ | ⟨b, -, hl, -⟩ |
    ⟨-, hl, -⟩ | ⟨-, hl, -⟩ <;> rw [System.afterCall, hl]
  · exact hq
  · exact hq
  · exact mem_append_left _ hq
  · exact hq

/-- A step of a call keeps the buffers in flight with their calls. -/
theorem Custody.afterCall (h : s.Custody) (hco : s.Counts) (hind : s.Indexed) {t : ℕ}
    (hc : s.calls[t]? = some c) (ht : Tidy s.shared c) (r : Reply) :
    (s.afterCall t r c).Custody := by
  intro st i x hi hx
  have hse := getElem?_afterCall_self hc r
  have hs := stream_step t r s.shared c
  rw [Engine.done, log_afterCall] at hi
  rcases getElem?_issued_cases hx with ho | ⟨b, hpc, rfl, rfl, hl, -⟩
  · rcases h st i x hi ho with ⟨d, hd, hds, p, hp, hpi, ha⟩ | ⟨b, hb, ha⟩
    · by_cases hxt : x.owner = t
      · rw [hxt, hc, Option.some.injEq] at hd
        subst hd
        have hst : p ∈ (CopyFrom.step t r s.shared c).2.flying
            (s.afterCall t r c).shared → (∃ d, (s.afterCall t r c).calls[x.owner]? =
              some d ∧ d.stream = st ∧ ∃ p ∈ d.flying (s.afterCall t r c).shared,
                p.number = i ∧ p.buffer.addr = x.desc.addrHost) :=
          fun hp => ⟨_, hxt ▸ hse, hs.trans hds, p, hp, hpi, ha⟩
        rcases flying_step_cases ht t r with ⟨b, -, -, hf, -⟩ |
          ⟨q, rest, -, hq, hf, hlt, -⟩ | ⟨-, -, -, hlo, -⟩ | ⟨-, hf, -⟩
        · exact .inl (hst (hf ▸ mem_append_left _ hp))
        · -- the piece that is copied back is not in flight any more
          refine .inl (hst (hf ▸ ?_))
          rw [hq] at hp
          rcases mem_cons.mp hp with rfl | hp
          · have hle := (hco.intCntr_le c.stream).1
            rw [Engine.done, hds] at hle
            rw [hds] at hlt
            omega
          · exact hp
        · refine .inr ⟨p.buffer, ?_, ha⟩
          rw [System.afterCall, hlo, hxt]
          exact mem_append_right _ (mem_map_of_mem (mem_holding_of_mem_flying hp))
        · exact .inl (hst (hf ▸ hp))
      · refine .inl ⟨d, (getElem?_afterCall_of_ne s r c hxt).trans hd, hds, p, ?_, hpi, ha⟩
        rw [flying_afterCall_of_ne hind hc hd hxt]
        exact hp
    · exact .inr ⟨b, lost_subset_afterCall ht r hb, ha⟩
  · refine .inl ⟨_, hse, hs, ?_⟩
    rcases flying_step_cases ht t r with ⟨b', hb', -, hf, -⟩ |
      ⟨q, rest, hiss, -⟩ | ⟨hiss, -⟩ | ⟨hiss, -⟩
    · obtain rfl : b = b' := by simpa [hpc] using hb'
      refine ⟨_, hf ▸ mem_append_right _ (mem_singleton_self _), ?_, rfl⟩
      rw [hl]
      exact hind.cntr_of_schedule hc hpc
    all_goals
      rw [System.afterCall, hiss] at hx
      exact absurd (lt_of_getElem? hx) hl.not_lt

/-- Nobody else has a buffer in flight. -/
theorem custody_step (h : s.Custody) (hco : s.Counts) (hind : s.Indexed) (ht : s.AllTidy)
    (a : Action) : (s.step a).Custody := by
  refine step_rule h (fun stream ptr data st i x hi hx => ?_)
    (fun t reply c hc => h.afterCall hco hind hc (ht c (mem_of_getElem? hc)) reply)
    (fun stream f mapped hf st i x hi hx => ?_) a
  · rcases h st i x hi hx with ⟨c, hc, hr⟩ | hl
    · exact .inl ⟨c, getElem?_concat_of_some hc _, hr⟩
    · exact .inr hl
  · obtain ⟨e, he, hw⟩ := s.exists_channel_afterEngine stream mapped hf st
    simp only [engine, he, hw.issued] at hi hx
    rcases h st i x (hw.done_le.trans hi) hx with ⟨c, hc, hs, p, hp, hr⟩ | hl
    · exact .inl ⟨c, hc, hs, p, by rw [flying_afterEngine]; exact hp, hr⟩
    · exact .inr hl

end System

end CopyFrom

end Tapasco
