import MarketMakerOps.Engine.Runs

/-!
What holds of the book after every run.

* `OrderBook.Invariant`: the representation invariant, over the pool's memory;
* `PriorityBook.Timed`: sequence numbers count the adds, so queues are in
  arrival order until the counter wraps;
* `representation_invariant`: the invariant of every run within capacity, with
  fresh ids and at most `2 ^ 64` adds;
* `never_crossed`: best bid below best ask, after any calls at all.
-/

namespace MarketMakerOps.Engine

open LinkedQueue Priority Fallible

variable {cap : Nat}

/-! ## Sequence numbers -/

/-- After `n` adds: the counter stands at `n`, and each level is in arrival order. -/
structure PriorityBook.Timed (n : Nat) (a : PriorityBook cap) : Prop where
  clock : a.sequence = UInt64.ofNat n
  before : ∀ s, ∀ e ∈ a.queue s, e.sequence.toNat < n
  fifo : ∀ s, (a.queue s).Pairwise fun e f => e.price = f.price → e.sequence < f.sequence

namespace PriorityBook

variable {a a' : PriorityBook cap} {n : Nat}

theorem Timed.empty : Timed 0 (empty cap) :=
  ⟨rfl, by simp [PriorityBook.empty], fun _ => List.Pairwise.nil⟩

theorem Timed.swept (h : a.Timed n) (side : Side) (free : List (Fin cap)) (inc : Resting cap)
    (q : UInt32) : (a.swept free side.opposite
      (sweep side.opposite inc q (a.queue side.opposite))).Timed (n + 1) := by
  obtain ⟨R, hP, hR⟩ := sweep_prefix side.opposite inc q (a.queue side.opposite)
  have hne := side.ne_opposite
  refine ⟨?_, forall_side side ?_ ?_, forall_side side ?_ ?_⟩
  · simp [PriorityBook.swept, h.clock, UInt64.ofNat_add]
  · simp only [PriorityBook.swept, Function.update_of_ne hne]
    exact fun e he => Nat.lt_succ_of_lt (h.before side e he)
  · simp only [PriorityBook.swept, Function.update_self]
    intro e he
    obtain ⟨g, hg, hge⟩ := mem_of_key hR he
    have hseq : g.sequence = e.sequence := (congrArg Resting.sequence hge :)
    rw [← hseq]
    refine Nat.lt_succ_of_lt (h.before side.opposite g ?_)
    rw [hP]
    exact List.mem_append_right _ hg
  · simpa only [PriorityBook.swept, Function.update_of_ne hne] using h.fifo side
  · simp only [PriorityBook.swept, Function.update_self]
    exact sweep_pairwise _ _ (fun _ _ => Iff.rfl) (h.fifo side.opposite) q

theorem Timed.rest {side : Side} (h : a.Timed (n + 1))
    (hs : ∀ s, Sorted (Resting.rank s) (a.queue s))
    {e : Resting cap} (he : e.sequence.toNat = n)
    (hlt : ∀ f ∈ a.queue side, f.sequence.toNat < n) : (a.rest side e).Timed (n + 1) := by
  have hne := side.ne_opposite
  refine ⟨h.clock, forall_side side ?_ ?_, forall_side side ?_ ?_⟩
  · simp only [PriorityBook.rest, Function.update_self, mem_insertLast]
    rintro f (rfl | hf)
    · omega
    · exact h.before side f hf
  · simpa only [PriorityBook.rest, Function.update_of_ne hne.symm] using h.before side.opposite
  · obtain ⟨l₁, l₂, hq, h₁, h₂, hins⟩ := insertLast_split e (hs side)
    have hfifo := h.fifo side
    simp only [PriorityBook.rest, Function.update_self, hins]
    rw [hq] at hfifo hlt
    obtain ⟨hf₁, hf₂, hf⟩ := List.pairwise_append.mp hfifo
    refine List.pairwise_append.mpr ⟨hf₁, List.pairwise_cons.mpr ⟨?_, hf₂⟩, ?_⟩
    · intro f hf hprice
      exact absurd (h₂ f hf) (by simp [Resting.rank, hprice])
    · intro x hx f hf' hprice
      rcases List.mem_cons.mp hf' with rfl | hf'
      · rw [UInt64.lt_iff_toNat_lt, he]
        exact hlt x (List.mem_append_left _ hx)
      · exact hf x hx f hf' hprice
  · simpa only [PriorityBook.rest, Function.update_of_ne hne.symm] using h.fifo side.opposite

theorem Timed.add {build : Build} {side : Side} (h : a.Timed n) (hwf : a.WF) (hn : n < 2 ^ 64)
    {price quantity : UInt32} {id participantId : UInt64} {ts : List Trade}
    (hadd : a.add build side price quantity id participantId = .ok (ts, a')) :
    a'.Timed (n + 1) := by
  obtain ⟨s, free, r, hfree, hr, -, ha'⟩ := add_cases hadd
  have hs : (a.swept free side.opposite r).Timed (n + 1) := hr ▸ h.swept side free _ quantity
  rcases ha' with ⟨-, rfl⟩ | ⟨-, rfl⟩
  · refine hs.rest (hwf.swept side hfree _ quantity hr).sorted ?_ ?_
    · show a.sequence.toNat = n
      rw [h.clock, UInt64.toNat_ofNat_of_lt' hn]
    · simp only [PriorityBook.swept, Function.update_of_ne side.ne_opposite]
      exact h.before side
  · exact ⟨hs.clock, hs.before, hs.fifo⟩

theorem Timed.cancel (h : a.Timed n) (id : UInt64) : (a.cancel id).Timed n := by
  cases hlook : a.index.lookup id with
  | none => simpa [PriorityBook.cancel, hlook] using h
  | some s =>
    simp only [PriorityBook.cancel, hlook]
    exact ⟨h.clock, fun t e he => h.before t e (List.mem_filter.mp he).1,
      fun t => (h.fifo t).sublist List.filter_sublist⟩

end PriorityBook

/-! ## The representation invariant -/

namespace OrderBook

/-- The slots on the free list. -/
def freeSlots (b : OrderBook cap) : List (Fin cap) :=
  walk b.pool.orders.links.next cap b.pool.freeList

/-- The representation invariant. A level's `chain` is a doubly linked queue with null at both
ends; the free list and the chains share out the pool's slots. -/
structure Invariant (b : OrderBook cap) : Prop where
  bids_ascending : b.bids.Pairwise fun x y => x.price < y.price
  asks_descending : b.asks.Pairwise fun x y => x.price > y.price
  level_nonempty : ∀ s, ∀ pl ∈ b.levels s, pl.isEmpty = false
  level_queue : ∀ s, ∀ pl ∈ b.levels s, Queue b.pool.orders.links pl.ends (b.chain pl)
  level_orders : ∀ s, ∀ pl ∈ b.levels s, ∀ o ∈ b.chain pl, (b.pool.orders o).price = pl.price ∧
    (b.pool.orders o).side = s ∧ 0 < (b.pool.orders o).quantity
  level_fifo : ∀ s, ∀ pl ∈ b.levels s, (b.chain pl).Pairwise fun o o' =>
    (b.pool.orders o).sequence < (b.pool.orders o').sequence
  index : ∀ id o, b.orderIndex.lookup id = some o ↔
    (∃ s, o ∈ b.restingSlots s) ∧ (b.pool.orders o).orderId = id
  free_list : FreeChain b.pool.orders.links.next b.pool.freeList b.freeSlots
  free_count : b.pool.freeCount = b.freeSlots.length
  slots : (b.freeSlots ++ b.restingSlots .buy ++ b.restingSlots .sell).Perm (List.finRange cap)
  allocated : ∀ o, b.pool.isAllocated o = true ↔ ∃ s, o ∈ b.restingSlots s

end OrderBook

section Levels

variable {mem : Orders cap} {s : Side} {L : List (PriceLevel cap)} {P : List (Resting cap)}

/-- The queue behind a level, and how it is read. -/
theorem LevelsRep.queue_of_mem (h : LevelsRep mem s L P) (hnd : (P.map Resting.slot).Nodup)
    {pl : PriceLevel cap} (hpl : pl ∈ L) : ∃ q, LevelRep mem s pl q ∧ q.Sublist P ∧
      walk mem.links.next cap pl.head = q.map Resting.slot := by
  have hl := h.level_of_mem hpl
  have hsub : (P.filter fun e => e.price = pl.price).Sublist P := List.filter_sublist
  exact ⟨_, hl, hsub, hl.walk_eq (hnd.sublist (hsub.map _))⟩

/-- Queues in arrival order, on either side of the representation. -/
theorem LevelsRep.fifo_iff (h : LevelsRep mem s L P) (hnd : (P.map Resting.slot).Nodup) :
    (∀ pl ∈ L, (walk mem.links.next cap pl.head).Pairwise fun o o' =>
      (mem o).sequence < (mem o').sequence) ↔
    P.Pairwise fun e f => e.price = f.price → e.sequence < f.sequence := by
  induction L generalizing P with
  | nil => rw [show P = [] from h]; simp
  | cons pl L ih =>
    obtain ⟨q, P', rfl, hl, hlt, h⟩ := h
    rw [List.map_append] at hnd
    obtain ⟨hnd', hndq, -⟩ := List.nodup_append.mp hnd
    have hq : (q.Pairwise fun e f => (mem e.slot).sequence < (mem f.slot).sequence) ↔
        q.Pairwise fun e f => e.price = f.price → e.sequence < f.sequence := by
      refine List.Pairwise.iff_of_mem fun {e f} he hf => ?_
      have hse : (mem e.slot).sequence = e.sequence := congrArg Order.sequence (hl.holds e he)
      have hsf : (mem f.slot).sequence = f.sequence := congrArg Order.sequence (hl.holds f hf)
      rw [hse, hsf, hl.price e he, hl.price f hf]
      simp
    -- orders of different levels have different prices
    have hcross : ∀ e ∈ P', ∀ f ∈ q, e.price = f.price → e.sequence < f.sequence := by
      intro e he f hf heq
      have := h.lt_rank_of_forall hlt he
      rw [heq, hl.price f hf] at this
      exact absurd this (lt_irrefl _)
    rw [List.forall_mem_cons, hl.walk_eq hndq, List.pairwise_map, hq, ih h hnd',
      List.pairwise_append]
    tauto

end Levels

section Invariant

variable {b : OrderBook cap} {a : PriorityBook cap} {n : Nat}

theorem OrderBook.Rep.freeSlots_eq (h : b.Rep a) (hwf : a.WF) : b.freeSlots = a.free := by
  have hlen := (List.nodup_append.mp (perm_finRange_iff.mp hwf.slots).1).1.length_le_card
  rw [Fintype.card_fin] at hlen
  exact h.pool.chain.walk_eq hlen

/-- A represented book with every order indexed and in arrival order meets the invariant. -/
theorem OrderBook.Rep.invariant (h : b.Rep a) (hwf : a.WF) (hix : a.Indexed)
    (htime : a.Timed n) : b.Invariant := by
  have hfree := h.freeSlots_eq hwf
  have hrest := h.restingSlots_eq hwf
  have hmem : ∀ o, (∃ s, o ∈ b.restingSlots s) ↔ o ∈ a.slots := by
    intro o
    simp only [hrest, List.mem_map, PriorityBook.mem_slots]
  have hlevel := fun s (pl : PriceLevel cap) (hpl : pl ∈ b.levels s) =>
    (h.levels s).queue_of_mem (hwf.nodup s) hpl
  obtain ⟨hnd, hall⟩ := perm_finRange_iff.mp hwf.slots
  refine ⟨?_, ?_, ?_, ?_, ?_, ?_, ?_, ?_, ?_, ?_, ?_⟩
  · exact (h.levels .buy).pairwise.imp fun hlt => (before_buy _ _).mpr hlt |> of_decide_eq_true
  · exact (h.levels .sell).pairwise.imp fun hlt => (before_sell _ _).mpr hlt |> of_decide_eq_true
  · intro s pl hpl
    obtain ⟨q, hl, -, -⟩ := hlevel s pl hpl
    rw [Bool.eq_false_iff]
    exact fun he => hl.ne (hl.isEmpty_iff.mp he)
  · intro s pl hpl
    obtain ⟨q, hl, -, hw⟩ := hlevel s pl hpl
    rw [OrderBook.chain, hw]
    exact hl.queue
  · intro s pl hpl o ho
    obtain ⟨q, hl, hsub, hw⟩ := hlevel s pl hpl
    rw [OrderBook.chain, hw] at ho
    obtain ⟨e, he, rfl⟩ := List.mem_map.mp ho
    have hheld := hl.holds e he
    have hqty : (b.pool.orders e.slot).quantity = e.quantity := congrArg Order.quantity hheld
    refine ⟨(congrArg Order.price hheld :).trans (hl.price e he), (congrArg Order.side hheld :), ?_⟩
    rw [hqty]
    exact hwf.positive s e (hsub.subset he)
  · exact fun s => ((h.levels s).fifo_iff (hwf.nodup s)).mpr (htime.fifo s)
  · intro id o
    rw [h.index, hmem, PriorityBook.mem_slots]
    constructor
    · intro hlook
      obtain ⟨s, e, he, hes, heid⟩ := hwf.indexed id o hlook
      refine ⟨⟨s, e, he, hes⟩, ?_⟩
      rw [← hes, ← heid]
      exact congrArg Order.orderId (h.holds he)
    · rintro ⟨⟨s, e, he, rfl⟩, rfl⟩
      have hid : (b.pool.orders e.slot).orderId = e.orderId := congrArg Order.orderId (h.holds he)
      rw [hid]
      exact hix s e he
  · rw [hfree]; exact h.pool.chain
  · rw [hfree]; exact h.pool.count
  · rw [hfree, hrest, hrest, List.append_assoc]
    exact hwf.slots
  · intro o
    rw [h.pool.allocated, hmem]
    constructor
    · exact fun hf => (List.mem_append.mp (hall o)).resolve_left hf
    · exact fun hs hf => (List.nodup_append.mp hnd).2.2 o hf o hs rfl

end Invariant

/-! ## Runs -/

def Call.isAdd : Call → Bool
  | .add .. => true
  | .cancel _ => false

section Runs

variable {x x' : List Trade × OrderBook cap} {n : Nat}

/-- The abstract state behind a run with fresh ids, `n` adds into it. -/
def FreshState (n : Nat) (x : List Trade × OrderBook cap) : Prop :=
  ∃ a : PriorityBook cap, x.2.Rep a ∧ a.WF ∧ a.Indexed ∧ a.Timed n

/-- The adds of a call. -/
def Call.adds (c : Call) : Nat := if c.isAdd then 1 else 0

theorem FreshState.call {build : Build} {c : Call} (h : FreshState n x) (hfresh : c.Fresh x.2)
    (hn : n + c.adds ≤ 2 ^ 64) (hc : OrderBook.call build x c = .ok x') :
    FreshState (n + c.adds) x' := by
  obtain ⟨a, hrep, hwf, hix, htime⟩ := h
  obtain ⟨y', hy', hts, hrep', hwf'⟩ :=
    (call_sim (y := (x.1, a)) build ⟨rfl, hrep, hwf⟩ c).of_ok_left hc
  cases c with
  | cancel id =>
    cases hy'
    exact ⟨a.cancel id, hrep', hwf', hix.cancel hwf id, htime.cancel id⟩
  | add side price quantity id participantId =>
    obtain ⟨⟨ts, a'⟩, hadd, hy'⟩ := bind_eq_ok.mp hy'
    cases hy'
    refine ⟨a', hrep', hwf', hix.add hwf (fun s e he hid => ?_) hadd, htime.add hwf ?_ hadd⟩
    · exact hfresh ((hrep.hasResting hwf id).mpr ⟨s, e, he, hid⟩)
    · simp only [Call.adds, Call.isAdd, if_true] at hn
      omega

/-- A run within capacity and with fresh ids succeeds, and counts its adds. -/
theorem FreshState.run {calls : List Call} (h : FreshState n x)
    (hn : n + calls.countP Call.isAdd ≤ 2 ^ 64)
    (hok : Allowed (OrderBook.call .ndebug) (fun x c => c.Fits x.2 ∧ c.Fresh x.2) x calls) :
    ∃ x', run (OrderBook.call .ndebug) x calls = .ok x' ∧
      FreshState (n + calls.countP Call.isAdd) x' := by
  induction calls generalizing x n with
  | nil => exact ⟨x, rfl, h⟩
  | cons c calls ih =>
    have hcount : n + (c :: calls).countP Call.isAdd =
        n + c.adds + calls.countP Call.isAdd := by
      rw [List.countP_cons, Call.adds]; omega
    rw [hcount] at hn ⊢
    obtain ⟨⟨hfit, hfresh⟩, hrest⟩ := hok
    have hsound : x.2.Sound := h.imp fun _ ha => ⟨ha.1, ha.2.1⟩
    obtain ⟨x₁, hx₁⟩ := call_succeeds hsound hfit
    obtain ⟨x', hx', hfin⟩ := ih (h.call hfresh (by omega) hx₁) hn (hrest x₁ hx₁)
    exact ⟨x', by rw [run_cons, hx₁]; exact hx', hfin⟩

theorem FreshState.new {b₀ : OrderBook cap} (h : OrderBook.new cap = .ok b₀) :
    FreshState 0 (([], b₀) : List Trade × OrderBook cap) := by
  obtain ⟨-, hrep, hwf⟩ := new_agree h
  exact ⟨_, hrep, hwf, by simp [PriorityBook.Indexed, PriorityBook.empty],
    PriorityBook.Timed.empty⟩

end Runs

/-- Every run within capacity and with fresh ids, of at most `2 ^ 64` adds, keeps the invariant. -/
theorem representation_invariant {b₀ : OrderBook cap} (hnew : OrderBook.new cap = .ok b₀)
    {calls : List Call}
    (hok : Allowed (OrderBook.call .ndebug) (fun x c => c.Fits x.2 ∧ c.Fresh x.2) ([], b₀) calls)
    (hadds : calls.countP Call.isAdd ≤ 2 ^ 64) :
    ∃ x, run (OrderBook.call .ndebug) ([], b₀) calls = .ok x ∧ x.2.Invariant := by
  obtain ⟨x, hx, a, hrep, hwf, hix, htime⟩ := (FreshState.new hnew).run (by omega) hok
  exact ⟨x, hx, hrep.invariant hwf hix htime⟩

theorem representation_invariant_two : ∃ b₀, OrderBook.new 2 = .ok b₀ ∧
    ∃ x, run (OrderBook.call .ndebug) ([], b₀)
      [.add .buy 10 5 1 1, .add .buy 10 2 2 2, .cancel 1, .add .sell 9 1 3 3, .cancel 7] = .ok x ∧
      x.2.Invariant :=
  ⟨_, rfl, representation_invariant rfl (by decide) (by decide)⟩

/-! ## The counter wraps -/

/-- A call that rests nothing and advances the counter. -/
def zeroAdd : Call := .add .buy 10 0 1 1

/-- The empty book, its counter at `k`. -/
def idle (k : UInt64) : PriorityBook 2 := { PriorityBook.empty 2 with sequence := k }

theorem idle_zeroAdd (k : UInt64) :
    PriorityBook.call .ndebug ([], idle k) zeroAdd = .ok ([], idle (k + 1)) := by
  have hfree : (idle k).free ≠ [] := by
    show List.finRange 2 ≠ []
    decide
  rw [zeroAdd, PriorityBook.call, PriorityBook.add_zero hfree]
  rfl

theorem idle_zeroAdds (k : UInt64) (n : Nat) :
    run (PriorityBook.call .ndebug) ([], idle k) (List.replicate n zeroAdd) =
      .ok ([], idle (k + UInt64.ofNat n)) := by
  induction n generalizing k with
  | zero => simp
  | succ n ih =>
    rw [List.replicate_succ, run_cons, idle_zeroAdd, ok_bind, ih]
    congr 3
    rw [UInt64.ofNat_add, UInt64.add_comm (UInt64.ofNat n), ← UInt64.add_assoc]
    rfl

/-- Some idle book is represented. -/
def Idle (x : List Trade × OrderBook 2) : Prop := ∃ k, Agree x ([], idle k)

theorem Idle.allowed {x : List Trade × OrderBook 2} (h : Idle x) {c : Call} :
    c.Fits x.2 ∧ c.Fresh x.2 := by
  obtain ⟨k, -, hrep, hwf⟩ := h
  cases c with
  | cancel id => exact ⟨trivial, trivial⟩
  | add side price quantity id participantId =>
    constructor
    · show x.2.restingCount < 2
      rw [hrep.restingCount_eq hwf]
      exact Nat.zero_lt_two
    · intro hrest
      obtain ⟨s, e, he, -⟩ := (hrep.hasResting hwf id).mp hrest
      cases he

theorem Idle.zeroAdd {x x' : List Trade × OrderBook 2} (h : Idle x)
    (hc : OrderBook.call .ndebug x zeroAdd = .ok x') : Idle x' := by
  obtain ⟨k, hk⟩ := h
  obtain ⟨y', hy', hag⟩ := (call_sim .ndebug hk Engine.zeroAdd).of_ok_left hc
  rw [idle_zeroAdd] at hy'
  cases hy'
  exact ⟨k + 1, hag⟩

def firstAdd : Call := .add .buy 10 1 1 1

def secondAdd : Call := .add .buy 10 1 2 2

/-- Two orders at one price, after enough empty adds for the counter to stand at its maximum. -/
def wrapCalls (n : Nat) : List Call := List.replicate n zeroAdd ++ [firstAdd, secondAdd]

theorem idle_firstAdd (k : UInt64) : ∃ y, PriorityBook.call .ndebug ([], idle k) firstAdd = .ok y ∧
    y.2.queue .buy = [⟨0, 1, 10, 1, k, 1⟩] ∧ y.2.queue .sell = [] := ⟨_, rfl, rfl, rfl⟩

theorem idle_bothAdds (k : UInt64) : ∃ y,
    run (PriorityBook.call .ndebug) ([], idle k) [firstAdd, secondAdd] = .ok y ∧
    y.2.queue .buy = [⟨0, 1, 10, 1, k, 1⟩, ⟨1, 2, 10, 1, k + 1, 2⟩] := ⟨_, rfl, rfl⟩

theorem Idle.adds_allowed {x : List Trade × OrderBook 2} (h : Idle x) :
    Allowed (OrderBook.call .ndebug) (fun x c => c.Fits x.2 ∧ c.Fresh x.2) x
      [firstAdd, secondAdd] := by
  refine ⟨h.allowed, fun x₁ hx₁ => ⟨?_, fun _ _ => trivial⟩⟩
  obtain ⟨k, hk⟩ := h
  obtain ⟨y, hy, hbuy, hsell⟩ := idle_firstAdd k
  obtain ⟨y', hy', -, hrep, hwf⟩ := (call_sim .ndebug hk firstAdd).of_ok_left hx₁
  rw [hy] at hy'
  cases hy'
  constructor
  · show x₁.2.restingCount < 2
    rw [hrep.restingCount_eq hwf, hbuy, hsell]
    exact Nat.one_lt_two
  · intro hrest
    obtain ⟨s, e, he, hid⟩ := (hrep.hasResting hwf 2).mp hrest
    cases s with
    | buy =>
      rw [hbuy, List.mem_singleton] at he
      subst he
      cases hid
    | sell =>
      rw [hsell] at he
      cases he

/-- The first order rests under the last sequence number, the second under zero. -/
theorem wrapCalls_breaks_fifo : ∃ b₀, OrderBook.new 2 = .ok b₀ ∧
    Allowed (OrderBook.call .ndebug) (fun x c => c.Fits x.2 ∧ c.Fresh x.2) ([], b₀)
      (wrapCalls (2 ^ 64 - 1)) ∧
    ¬ ∃ x, run (OrderBook.call .ndebug) ([], b₀) (wrapCalls (2 ^ 64 - 1)) = .ok x ∧
      x.2.Invariant := by
  obtain ⟨b₀, hnew⟩ : ∃ b₀ : OrderBook 2, OrderBook.new 2 = .ok b₀ := ⟨_, rfl⟩
  have hidle : Agree (([], b₀) : List Trade × OrderBook 2) ([], idle 0) := new_agree hnew
  refine ⟨b₀, hnew, ?_, ?_⟩
  · have hzero : ∀ x x', Idle x → ∀ c ∈ List.replicate (2 ^ 64 - 1) zeroAdd,
        OrderBook.call .ndebug x c = .ok x' → Idle x' := by
      intro x x' hx c hc hstep
      rw [List.eq_of_mem_replicate hc] at hstep
      exact hx.zeroAdd hstep
    refine (allowed_of_inv ⟨0, hidle⟩ (fun _ hx _ _ => hx.allowed) hzero).append fun x hx => ?_
    obtain ⟨y, hy, hag⟩ := (run_sim .ndebug hidle _).of_ok_left hx
    rw [idle_zeroAdds] at hy
    cases hy
    exact Idle.adds_allowed ⟨_, hag⟩
  · rintro ⟨x, hx, hinv⟩
    obtain ⟨y, hy, -, hrep, hwf⟩ := (run_sim .ndebug hidle _).of_ok_left hx
    rw [wrapCalls, run_append, idle_zeroAdds, ok_bind] at hy
    obtain ⟨y', hy', hbuy⟩ := idle_bothAdds (0 + UInt64.ofNat (2 ^ 64 - 1))
    rw [hy'] at hy
    cases hy
    have hfifo := ((hrep.levels .buy).fifo_iff (hwf.nodup .buy)).mp (hinv.level_fifo .buy)
    rw [hbuy] at hfifo
    have hlt := (List.pairwise_cons.mp hfifo).1 _ List.mem_cons_self rfl
    exact absurd hlt (by decide)

/-! ## Best prices -/

/-- One side is empty, or the best bid is below the best ask. -/
def OrderBook.Uncrossed (b : OrderBook cap) : Prop :=
  ∀ bid ∈ b.bestBid, ∀ ask ∈ b.bestAsk, bid.price < ask.price

/-- The best level holds an order at its price. -/
theorem LevelsRep.exists_of_getLast? {mem : Orders cap} {s : Side} {L : List (PriceLevel cap)}
    {P : List (Resting cap)} {pl : PriceLevel cap} (h : LevelsRep mem s L P)
    (hpl : L.getLast? = some pl) : ∃ e ∈ P, e.price = pl.price := by
  have hp := (h.mem_price pl.price).mpr (List.mem_map_of_mem (List.mem_of_getLast? hpl))
  exact List.mem_map.mp hp

theorem OrderBook.Sound.uncrossed {b : OrderBook cap} (h : b.Sound) : b.Uncrossed := by
  obtain ⟨a, hrep, hwf⟩ := h
  intro bid hbid ask hask
  obtain ⟨e, he, hep⟩ := (hrep.levels .buy).exists_of_getLast? hbid
  obtain ⟨f, hf, hfp⟩ := (hrep.levels .sell).exists_of_getLast? hask
  rw [← hep, ← hfp]
  exact hwf.uncrossed e he f hf

/-- After any calls the book is neither crossed nor locked; within capacity the calls succeed. -/
theorem never_crossed {b₀ : OrderBook cap} (hnew : OrderBook.new cap = .ok b₀) (calls : List Call) :
    (∀ build x, run (OrderBook.call build) ([], b₀) calls = .ok x → x.2.Uncrossed) ∧
    (Allowed (OrderBook.call .ndebug) (fun x c => c.Fits x.2) ([], b₀) calls →
      ∃ x, run (OrderBook.call .ndebug) ([], b₀) calls = .ok x) := by
  refine ⟨fun build x hrun => (run_sound hnew hrun).uncrossed, fun hok => ?_⟩
  have h₀ : b₀.Sound := ⟨_, (new_agree hnew).2⟩
  have hstep : ∀ (x : List Trade × OrderBook cap) (c : Call), x.2.Sound → c.Fits x.2 →
      ∃ x', OrderBook.call .ndebug x c = .ok x' ∧ x'.2.Sound := fun x c hs hfit => by
    obtain ⟨x', hx'⟩ := call_succeeds hs hfit
    exact ⟨x', hx', call_sound hs hx'⟩
  obtain ⟨x, hx, -⟩ := run_total hstep h₀ hok
  exact ⟨x, hx⟩

/-- A buyer fills one ask and is stopped by its own second one. -/
def selfMatchCalls : List Call := [.add .sell 10 1 1 1, .add .sell 11 2 2 2, .add .buy 12 5 3 2]

theorem never_crossed_self_match : ∃ b₀, OrderBook.new 3 = .ok b₀ ∧
    (∀ build x, run (OrderBook.call build) ([], b₀) selfMatchCalls = .ok x → x.2.Uncrossed) ∧
    ∃ x, run (OrderBook.call .ndebug) ([], b₀) selfMatchCalls = .ok x :=
  ⟨_, rfl, (never_crossed rfl selfMatchCalls).1, (never_crossed rfl selfMatchCalls).2 (by decide)⟩

end MarketMakerOps.Engine
