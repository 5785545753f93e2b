import MarketMakerOps.Engine.Refinement

/-!
Runs of the book and what can be seen of it.

* `OrderBook.resting`: the orders of one side in priority order, read off the
  level vector and the queues;
* `OrderBook.Sound`: some well-formed priority book is represented;
* `call_sim`: one call, on both books;
* `run_sound`: the invariant of every run, whatever the arguments;
* `run_succeeds`: with assertions compiled out, a run within capacity succeeds.
-/

namespace MarketMakerOps.Engine

open LinkedQueue Priority Fallible

variable {cap : Nat}

namespace OrderBook

/-- The slots queued at one level, in queue order. -/
def chain (b : OrderBook cap) (pl : PriceLevel cap) : List (Fin cap) :=
  walk b.pool.orders.links.next cap pl.head

/-- The slots of one side, best level first, each level in queue order. -/
def restingSlots (b : OrderBook cap) (s : Side) : List (Fin cap) :=
  (b.levels s).reverse.flatMap b.chain

/-- The orders resting on one side, in priority order. -/
def resting (b : OrderBook cap) (s : Side) : List (Order cap) :=
  (b.restingSlots s).map b.pool.orders

def restingCount (b : OrderBook cap) : Nat :=
  (b.resting .buy).length + (b.resting .sell).length

/-- An order with this id rests in the book. -/
def HasResting (b : OrderBook cap) (id : UInt64) : Prop :=
  ∃ s, ∃ o ∈ b.resting s, o.orderId = id

instance (b : OrderBook cap) (id : UInt64) : Decidable (b.HasResting id) :=
  decidable_of_iff ((∃ o ∈ b.resting .buy, o.orderId = id) ∨ ∃ o ∈ b.resting .sell, o.orderId = id)
    ⟨fun h => h.elim (fun h => ⟨.buy, h⟩) fun h => ⟨.sell, h⟩, fun ⟨s, h⟩ => by
      cases s
      · exact Or.inl h
      · exact Or.inr h⟩

end OrderBook

/-- The call finds a free slot. -/
def Call.Fits (b : OrderBook cap) : Call → Prop
  | .add .. => b.restingCount < cap
  | .cancel _ => True

/-- The call does not reuse the id of a resting order. -/
def Call.Fresh (b : OrderBook cap) : Call → Prop
  | .add _ _ _ id _ => ¬ b.HasResting id
  | .cancel _ => True

instance (b : OrderBook cap) : (c : Call) → Decidable (c.Fits b)
  | .add .. => inferInstanceAs (Decidable (b.restingCount < cap))
  | .cancel _ => inferInstanceAs (Decidable True)

instance (b : OrderBook cap) : (c : Call) → Decidable (c.Fresh b)
  | .add _ _ _ id _ => inferInstanceAs (Decidable (¬ b.HasResting id))
  | .cancel _ => inferInstanceAs (Decidable True)

namespace PriorityBook

/-- One call, its trades recorded. -/
def call (build : Build) (s : List Trade × PriorityBook cap) :
    Call → Except Fault (List Trade × PriorityBook cap)
  | .add side price quantity id participantId => do
    let (ts, a) ← s.2.add build side price quantity id participantId
    pure (s.1 ++ ts, a)
  | .cancel id => .ok (s.1, s.2.cancel id)

end PriorityBook

section Reading

variable {b : OrderBook cap} {a : PriorityBook cap} {mem : Orders cap} {s : Side}
  {L : List (PriceLevel cap)} {P : List (Resting cap)}

theorem LevelRep.walk_eq {pl : PriceLevel cap} (h : LevelRep mem s pl P)
    (hnd : (P.map Resting.slot).Nodup) :
    walk mem.links.next cap pl.head = P.map Resting.slot := by
  have hlen := hnd.length_le_card
  rw [Fintype.card_fin] at hlen
  exact h.queue.walk_eq hlen

/-- Walking the levels from the best one reads the priority list. -/
theorem LevelsRep.walk_eq (h : LevelsRep mem s L P) (hnd : (P.map Resting.slot).Nodup) :
    L.reverse.flatMap (fun pl => walk mem.links.next cap pl.head) = P.map Resting.slot := by
  induction L generalizing P with
  | nil => rw [show P = [] from h]; rfl
  | cons pl L ih =>
    obtain ⟨q, P', rfl, hl, -, h⟩ := h
    rw [List.map_append] at hnd
    obtain ⟨hnd', hndq, -⟩ := List.nodup_append.mp hnd
    rw [List.reverse_cons, List.flatMap_append, ih h hnd', List.map_append]
    simp [hl.walk_eq hndq]

theorem OrderBook.Rep.restingSlots_eq (h : b.Rep a) (hwf : a.WF) (s : Side) :
    b.restingSlots s = (a.queue s).map Resting.slot := (h.levels s).walk_eq (hwf.nodup s)

/-- The resting orders, links aside, are the priority list. -/
theorem OrderBook.Rep.resting_eq (h : b.Rep a) (hwf : a.WF) (s : Side) :
    (b.resting s).map Order.unlinked = (a.queue s).map fun e => e.order s := by
  rw [OrderBook.resting, h.restingSlots_eq hwf, List.map_map, List.map_map]
  exact List.map_congr_left fun e he => h.holds he

theorem OrderBook.Rep.map_resting {β : Type*} (f : Order cap → β)
    (hf : ∀ o, f o.unlinked = f o) (h : b.Rep a) (hwf : a.WF) (s : Side) :
    (b.resting s).map f = (a.queue s).map fun e => f (e.order s) := by
  have := congrArg (List.map f) (h.resting_eq hwf s)
  simpa only [List.map_map, Function.comp_def, hf] using this

theorem OrderBook.Rep.hasResting (h : b.Rep a) (hwf : a.WF) (id : UInt64) :
    b.HasResting id ↔ ∃ s, ∃ e ∈ a.queue s, e.orderId = id := by
  have hids := fun s => h.map_resting Order.orderId (fun _ => rfl) hwf s
  constructor
  · rintro ⟨s, o, ho, rfl⟩
    have := List.mem_map_of_mem (f := Order.orderId) ho
    rw [hids] at this
    obtain ⟨e, he, heq⟩ := List.mem_map.mp this
    exact ⟨s, e, he, heq⟩
  · rintro ⟨s, e, he, rfl⟩
    have := List.mem_map_of_mem (f := fun e : Resting cap => (e.order s).orderId) he
    rw [← hids] at this
    obtain ⟨o, ho, heq⟩ := List.mem_map.mp this
    exact ⟨s, o, ho, heq⟩

theorem OrderBook.Rep.restingCount_eq (h : b.Rep a) (hwf : a.WF) :
    b.restingCount = (a.queue .buy).length + (a.queue .sell).length := by
  have hl := fun s => congrArg List.length (h.resting_eq hwf s)
  simp only [List.length_map] at hl
  rw [OrderBook.restingCount, hl, hl]

/-- A slot is free while fewer than `cap` orders rest. -/
theorem OrderBook.Rep.free_ne_nil (h : b.Rep a) (hwf : a.WF) (hfit : b.restingCount < cap) :
    a.free ≠ [] := by
  intro hfree
  have hlen := hwf.slots.length_eq
  simp only [hfree, List.nil_append, PriorityBook.slots, List.length_append, List.length_map,
    List.length_finRange] at hlen
  rw [h.restingCount_eq hwf] at hfit
  omega

end Reading

/-! ## Calls and runs -/

/-- The recorded trades agree, and the book represents a well-formed priority book. -/
def Agree (x : List Trade × OrderBook cap) (y : List Trade × PriorityBook cap) : Prop :=
  x.1 = y.1 ∧ x.2.Rep y.2 ∧ y.2.WF

section Runs

variable {x : List Trade × OrderBook cap} {y : List Trade × PriorityBook cap}

theorem foldl_record (ts us : List Trade) :
    us.foldl (fun ts t => ts ++ [t]) ts = ts ++ us := by
  induction us generalizing ts with
  | nil => simp
  | cons u us ih => rw [List.foldl_cons, ih, List.append_assoc]; rfl

/-- One call does the same to both books. -/
theorem call_sim (build : Build) (h : Agree x y) (c : Call) :
    Sim Agree (OrderBook.call build x c) (PriorityBook.call build y c) := by
  obtain ⟨hts, hrep, hwf⟩ := h
  cases c with
  | cancel id =>
    obtain ⟨b', hb', hrep'⟩ := cancelOrder_sim build hrep hwf id
    simp only [OrderBook.call, PriorityBook.call, hb', ok_bind]
    exact ⟨hts, hrep', hwf.cancel id⟩
  | add side price quantity id participantId =>
    have hsim := addLimitOrder_sim build side (fun t ts => ts ++ [t]) price quantity id
      participantId x.1 hrep (perm_finRange_iff.mp hwf.slots).1
    simp only [OrderBook.call, PriorityBook.call]
    cases hadd : y.2.add build side price quantity id participantId with
    | error f => rw [hsim.of_error_right hadd]; exact rfl
    | ok r =>
      obtain ⟨r', hr', hst, hrep'⟩ := hsim.of_ok_right hadd
      rw [hr']
      refine ⟨?_, hrep', hwf.add hadd⟩
      rw [hst, foldl_record, hts]

theorem run_sim (build : Build) (h : Agree x y) (calls : List Call) :
    Sim Agree (run (OrderBook.call build) x calls) (run (PriorityBook.call build) y calls) :=
  Sim.run (fun _ _ c h => call_sim build h c) h calls

/-- The new book is empty. -/
theorem new_agree {b₀ : OrderBook cap} (h : OrderBook.new cap = .ok b₀) :
    Agree (([], b₀) : List Trade × OrderBook cap) ([], PriorityBook.empty cap) := by
  obtain ⟨pool, hpool, h⟩ := bind_eq_ok.mp h
  cases h
  have hcap : 0 < cap := by
    by_contra hcap
    simp [OrderPool.new, hcap] at hpool
  obtain ⟨pool', hpool', hrep⟩ := OrderPool.new_spec hcap
  rw [hpool] at hpool'
  cases hpool'
  refine ⟨rfl, ⟨hrep, ?_, rfl, rfl⟩, PriorityBook.WF.empty⟩
  intro s
  cases s <;> exact rfl

/-- With assertions compiled out, adding succeeds while a slot is free. -/
theorem PriorityBook.add_succeeds {a : PriorityBook cap} (h : a.free ≠ []) (side : Side)
    (price quantity : UInt32) (id participantId : UInt64) :
    ∃ r, a.add .ndebug side price quantity id participantId = .ok r := by
  cases hfree : a.free with
  | nil => exact absurd hfree h
  | cons s free =>
    have hcheck : ∀ P : List (Resting cap), levelCheck .ndebug side price P = .ok () := by
      intro P
      simp only [levelCheck, assertThat]
      split <;> rfl
    simp only [PriorityBook.add, hfree, hcheck, ok_bind]
    split
    · exact ⟨_, rfl⟩
    · exact ⟨_, rfl⟩

/-- The book represents some well-formed priority book. -/
def OrderBook.Sound (b : OrderBook cap) : Prop := ∃ a : PriorityBook cap, b.Rep a ∧ a.WF

/-- Every call keeps the book sound, whatever its arguments. -/
theorem call_sound {build : Build} {c : Call} {x' : List Trade × OrderBook cap}
    (h : x.2.Sound) (hc : OrderBook.call build x c = .ok x') : x'.2.Sound := by
  obtain ⟨a, hrep, hwf⟩ := h
  obtain ⟨y', -, -, hrep', hwf'⟩ :=
    (call_sim (y := (x.1, a)) build ⟨rfl, hrep, hwf⟩ c).of_ok_left hc
  exact ⟨y'.2, hrep', hwf'⟩

theorem run_sound {build : Build} {calls : List Call} {b₀ : OrderBook cap}
    {x' : List Trade × OrderBook cap} (hnew : OrderBook.new cap = .ok b₀)
    (hrun : run (OrderBook.call build) ([], b₀) calls = .ok x') : x'.2.Sound := by
  have h₀ : b₀.Sound := ⟨_, (new_agree hnew).2⟩
  have hstep : ∀ (x : List Trade × OrderBook cap) (c : Call) x', x.2.Sound →
      OrderBook.call build x c = .ok x' → x'.2.Sound := fun _ _ _ => call_sound
  exact run_inv hstep h₀ hrun

/-- With assertions compiled out, a call that finds a free slot succeeds. -/
theorem call_succeeds {c : Call} (h : x.2.Sound) (hfit : c.Fits x.2) :
    ∃ x', OrderBook.call .ndebug x c = .ok x' := by
  obtain ⟨a, hrep, hwf⟩ := h
  have hsim := call_sim (y := (x.1, a)) .ndebug ⟨rfl, hrep, hwf⟩ c
  have : ∃ y', PriorityBook.call .ndebug (x.1, a) c = .ok y' := by
    cases c with
    | cancel id => exact ⟨_, rfl⟩
    | add side price quantity id participantId =>
      obtain ⟨r, hr⟩ := PriorityBook.add_succeeds (hrep.free_ne_nil hwf hfit) side price quantity
        id participantId
      exact ⟨(x.1 ++ r.1, r.2), by simp only [PriorityBook.call, hr]; rfl⟩
  obtain ⟨y', hy'⟩ := this
  obtain ⟨x', hx', -⟩ := hsim.of_ok_right hy'
  exact ⟨x', hx'⟩

end Runs

end MarketMakerOps.Engine
