import MarketMakerOps.Engine.Runs

/-!
Whether a sweep meets a resting order of its own participant.

* `meetsSelfLoop`: the match loop watched for its self-match branch;
* `OrderBook.meetsSelf`: the same for a whole `addLimitOrder`;
* `sweepMeetsSelf`, `meetsSelf_eq`: on the priority list it is the first crossing
  order of the participant, reached with quantity left.
-/

namespace MarketMakerOps.Engine

open LinkedQueue Priority Fallible

variable {cap : Nat} {σ : Type}

/-- The loop is about to take its self-match branch. -/
def atSelfMatch (stops : UInt32 → UInt32 → Bool) (incoming : Fin cap) (incomingPrice : UInt32)
    (w : Sweep cap σ) : Bool :=
  let inc := w.pool.orders incoming
  if ¬ (0 < inc.quantity ∧ 0 < w.numLevels) then false else
  match w.levels[w.numLevels - 1]? with
  | none => false
  | some pl =>
    if stops incomingPrice pl.price then false else
    match pl.head with
    | none => false
    | some resting => decide ((w.pool.orders resting).participantId = inc.participantId)

/-- There the loop drops what is left of the incoming order. -/
theorem matchStep_of_atSelfMatch {build : Build} {onTrade : Trade → σ → σ}
    {stops : UInt32 → UInt32 → Bool} {mkTrade : Order cap → Order cap → UInt32 → UInt32 → Trade}
    {incoming : Fin cap} {incomingPrice : UInt32} {w : Sweep cap σ}
    (h : atSelfMatch stops incoming incomingPrice w = true) :
    matchStep build onTrade stops mkTrade incoming incomingPrice w =
      .ok (false, { w with
        pool := { w.pool with orders := w.pool.orders.setQuantity incoming 0 } }) := by
  unfold atSelfMatch at h
  unfold matchStep
  dsimp only at h ⊢
  split at h
  · cases h
  · next hrun =>
    rw [if_neg hrun]
    cases hlev : w.levels[w.numLevels - 1]? with
    | none => simp [hlev] at h
    | some pl =>
      simp only [hlev] at h ⊢
      split at h
      · cases h
      · next hgo =>
        rw [if_neg hgo]
        cases hhead : pl.head with
        | none => simp [hhead] at h
        | some resting =>
          simp only [hhead, decide_eq_true_eq] at h ⊢
          rw [if_pos h]

def meetsSelfLoop (build : Build) (onTrade : Trade → σ → σ) (stops : UInt32 → UInt32 → Bool)
    (mkTrade : Order cap → Order cap → UInt32 → UInt32 → Trade) (incoming : Fin cap)
    (incomingPrice : UInt32) : Nat → Sweep cap σ → Bool
  | 0, _ => false
  | fuel + 1, w =>
    if atSelfMatch stops incoming incomingPrice w then true else
    match matchStep build onTrade stops mkTrade incoming incomingPrice w with
    | .ok (true, w) => meetsSelfLoop build onTrade stops mkTrade incoming incomingPrice fuel w
    | _ => false

namespace OrderBook

/-- The sweep of an incoming order meets its own participant. -/
def matchMeetsSelf (build : Build) (onTrade : Trade → σ → σ) (side : Side) (price : UInt32) (st : σ)
    (b : OrderBook cap) (incoming : Fin cap) : Bool :=
  match side with
  | .buy =>
    if b.bestAsk.any fun ask => price ≥ ask.price then
      meetsSelfLoop build onTrade (fun incomingPrice price => incomingPrice < price)
        (fun inc res price qty => ⟨inc.orderId, res.orderId, price, qty⟩)
        incoming (b.pool.orders incoming).price (cap + 1)
        ⟨b.asks, b.asks.length, b.pool, b.orderIndex, st⟩
    else false
  | .sell =>
    if b.bestBid.any fun bid => price ≤ bid.price then
      meetsSelfLoop build onTrade (fun incomingPrice price => incomingPrice > price)
        (fun inc res price qty => ⟨res.orderId, inc.orderId, price, qty⟩)
        incoming (b.pool.orders incoming).price (cap + 1)
        ⟨b.bids, b.bids.length, b.pool, b.orderIndex, st⟩
    else false

/-- `addLimitOrder` takes the self-match branch. -/
def meetsSelf (build : Build) (onTrade : Trade → σ → σ) (side : Side) (price quantity : UInt32)
    (id participantId : UInt64) (st : σ) (b : OrderBook cap) : Bool :=
  match b.pool.allocate build with
  | .error _ => false
  | .ok (order, pool) =>
    let orders := Function.update pool.orders order
      ((pool.orders order).init id price quantity b.sequence side participantId)
    let b := { b with pool := { pool with orders := orders }, sequence := b.sequence + 1 }
    b.matchMeetsSelf build onTrade side price st order

end OrderBook

/-- The sweep of a priority list meets an order of the incoming participant. -/
def sweepMeetsSelf (opp : Side) (inc : Resting cap) : UInt32 → List (Resting cap) → Bool
  | _, [] => false
  | q, e :: P =>
    if q = 0 ∨ opp.rank e.price < opp.rank inc.price then false
    else if e.participantId = inc.participantId then true
    else if q < e.quantity then false
    else sweepMeetsSelf opp inc (q - e.quantity) P

/-- It does not where every crossing order is another participant's. -/
theorem sweepMeetsSelf_eq_false {opp : Side} {inc : Resting cap} {q : UInt32}
    {P : List (Resting cap)}
    (h : ∀ e ∈ P, ¬ opp.rank e.price < opp.rank inc.price → e.participantId ≠ inc.participantId) :
    sweepMeetsSelf opp inc q P = false := by
  induction P generalizing q with
  | nil => rfl
  | cons e P ih =>
    obtain ⟨he, hP⟩ := List.forall_mem_cons.mp h
    rw [sweepMeetsSelf]
    split
    · rfl
    · next hgo =>
      rw [if_neg (he fun hlt => hgo (Or.inr hlt))]
      split
      · rfl
      · exact ih hP

section Loop

variable (build : Build) (onTrade : Trade → σ → σ) {stops : UInt32 → UInt32 → Bool}
  {mkTrade : Order cap → Order cap → UInt32 → UInt32 → Trade} {opp : Side} {inc e : Resting cap}
  {w : Sweep cap σ} {q : UInt32} {free : List (Fin cap)} {P : List (Resting cap)}
  {index : OrderIndex cap}

theorem atSelfMatch_done (h : SweepRep opp inc w 0 free P index) :
    atSelfMatch stops inc.slot inc.price w = false := by
  have hq : (w.pool.orders inc.slot).quantity = 0 := congrArg Order.quantity h.incoming
  simp [atSelfMatch, hq]

theorem atSelfMatch_nil (h : SweepRep opp inc w q free [] index) :
    atSelfMatch stops inc.slot inc.price w = false := by
  have hn := h.numLevels_eq_zero
  simp [atSelfMatch, hn]

theorem atSelfMatch_cons (hs : Stops opp stops) (h : SweepRep opp inc w q free (e :: P) index)
    (hq : q ≠ 0) : atSelfMatch stops inc.slot inc.price w =
      decide (¬ opp.rank e.price < opp.rank inc.price ∧ e.participantId = inc.participantId) := by
  have hr := h.reads
  obtain ⟨L, pl, R, qs, P', hlev, hnum, rfl, hpl, -, -, hprice, hhead⟩ := h.last
  have hpos : 0 < q := UInt32.pos_iff_ne_zero.mpr hq
  by_cases hlt : opp.rank e.price < opp.rank inc.price
  · have hstop : stops inc.price pl.price = true := (hs _ _).mpr (by rwa [hprice])
    simp [atSelfMatch, hlev, hnum, hstop, hlt]
  · have hgo : stops inc.price pl.price = false := not_stops hs (by rwa [hprice])
    simp [atSelfMatch, hlev, hnum, hgo, hhead, hr.quantity, hpos, hr.participantId,
      hr.headParticipantId, hlt]

/-- The watched loop is the watched sweep. -/
theorem meetsSelfLoop_eq (hs : Stops opp stops) (hmk : MakesTrades opp mkTrade)
    (h : SweepRep opp inc w q free P index) {fuel : Nat} (hfuel : P.length + 1 ≤ fuel) :
    meetsSelfLoop build onTrade stops mkTrade inc.slot inc.price fuel w =
      sweepMeetsSelf opp inc q P := by
  induction P generalizing w q free index fuel with
  | nil =>
    obtain ⟨fuel, rfl⟩ : ∃ k, fuel = k + 1 := ⟨fuel - 1, by omega⟩
    simp [meetsSelfLoop, atSelfMatch_nil h, matchStep_nil build onTrade stops mkTrade h,
      sweepMeetsSelf]
  | cons e P ih =>
    obtain ⟨fuel, rfl⟩ : ∃ k, fuel = k + 1 := ⟨fuel - 1, by omega⟩
    by_cases hq : q = 0
    · subst hq
      simp [meetsSelfLoop, atSelfMatch_done h, matchStep_done build onTrade stops mkTrade h,
        sweepMeetsSelf]
    have hat := atSelfMatch_cons hs h hq
    by_cases hlt : opp.rank e.price < opp.rank inc.price
    · simp [meetsSelfLoop, hat, matchStep_stop build onTrade mkTrade hs h hlt, sweepMeetsSelf, hlt]
    by_cases hself : e.participantId = inc.participantId
    · simp [meetsSelfLoop, hat, sweepMeetsSelf, hlt, hself, hq]
    by_cases hqe : q < e.quantity
    · obtain ⟨w', hstep, -, hrep, -⟩ := matchStep_partial build onTrade hs hmk h hq hlt hself hqe
      obtain ⟨fuel, rfl⟩ : ∃ k, fuel = k + 1 := ⟨fuel - 1, by simp at hfuel; omega⟩
      simp [meetsSelfLoop, hat, hstep, atSelfMatch_done hrep,
        matchStep_done build onTrade stops mkTrade hrep, sweepMeetsSelf, hq, hlt, hself, hqe]
    · obtain ⟨w', hstep, -, hrep, -⟩ := matchStep_full build onTrade hs hmk h hq hlt hself hqe
      have hrest := @ih _ _ _ _ hrep fuel (by simp at hfuel; omega)
      simp [meetsSelfLoop, hat, hstep, hrest, sweepMeetsSelf, hq, hlt, hself, hqe]

end Loop

section Call

variable (build : Build) (onTrade : Trade → σ → σ) (side : Side) {inc : Resting cap} {q : UInt32}
  {free : List (Fin cap)} {own opp : List (Resting cap)} {index : OrderIndex cap} {seq : UInt64}
  {b : OrderBook cap} {a : PriorityBook cap} (st : σ)

theorem meetsSelfLoop_all {stops : UInt32 → UInt32 → Bool}
    {mkTrade : Order cap → Order cap → UInt32 → UInt32 → Trade}
    (hs : Stops side.opposite stops) (hmk : MakesTrades side.opposite mkTrade)
    (h : MidRep b side inc q free own opp index seq) :
    meetsSelfLoop build onTrade stops mkTrade inc.slot (b.pool.orders inc.slot).price (cap + 1)
      ⟨b.levels side.opposite, (b.levels side.opposite).length, b.pool, b.orderIndex, st⟩ =
      sweepMeetsSelf side.opposite inc q opp := by
  rw [h.price]
  exact meetsSelfLoop_eq build onTrade hs hmk (h.sweepRep st) h.fuel

theorem matchMeetsSelf_eq (h : MidRep b side inc q free own opp index seq) :
    b.matchMeetsSelf build onTrade side inc.price st inc.slot =
      sweepMeetsSelf side.opposite inc q opp := by
  cases opp with
  | nil =>
    have hnil : b.levels side.opposite = [] := h.oppRep.eq_nil_iff.mpr rfl
    cases side <;> simp only [Side.opposite, OrderBook.levels] at hnil <;>
      simp [OrderBook.matchMeetsSelf, OrderBook.bestAsk, OrderBook.bestBid, hnil, sweepMeetsSelf]
  | cons e P =>
    obtain ⟨L, pl, qs, P', hL, -, hpl, -, -⟩ := h.oppRep.last
    have hprice : pl.price = e.price := (hpl.price e List.mem_cons_self).symm
    cases side with
    | buy =>
      simp only [Side.opposite, OrderBook.levels] at hL
      have hbest : b.bestAsk = some pl := by simp [OrderBook.bestAsk, hL]
      by_cases hge : e.price ≤ inc.price
      · have hmk : MakesTrades (Side.opposite .buy) fun (inc res : Order cap) price qty =>
          ⟨inc.orderId, res.orderId, price, qty⟩ := fun _ _ _ _ => rfl
        have hloop := meetsSelfLoop_all build onTrade .buy st stops_sell hmk h
        simp only [OrderBook.matchMeetsSelf, hbest, Option.any_some, hprice, ge_iff_le, hge,
          decide_true, if_true]
        exact hloop
      · have hlt : Side.sell.rank e.price < Side.sell.rank inc.price :=
          (stops_sell _ _).mp (by simpa using UInt32.not_le.mp hge)
        simp [OrderBook.matchMeetsSelf, hbest, hprice, hge, sweepMeetsSelf, Side.opposite, hlt]
    | sell =>
      simp only [Side.opposite, OrderBook.levels] at hL
      have hbest : b.bestBid = some pl := by simp [OrderBook.bestBid, hL]
      by_cases hge : inc.price ≤ e.price
      · have hmk : MakesTrades (Side.opposite .sell) fun (inc res : Order cap) price qty =>
          ⟨res.orderId, inc.orderId, price, qty⟩ := fun _ _ _ _ => rfl
        have hloop := meetsSelfLoop_all build onTrade .sell st stops_buy hmk h
        simp only [OrderBook.matchMeetsSelf, hbest, Option.any_some, hprice, hge,
          decide_true, if_true]
        exact hloop
      · have hlt : Side.buy.rank e.price < Side.buy.rank inc.price :=
          (stops_buy _ _).mp (by simpa using UInt32.not_le.mp hge)
        simp [OrderBook.matchMeetsSelf, hbest, hprice, hge, sweepMeetsSelf, Side.opposite, hlt]

/-- `addLimitOrder` takes its self-match branch exactly when the sweep of the other queue meets
an order of the participant. -/
theorem meetsSelf_eq (side : Side) (price quantity : UInt32) (id participantId : UInt64)
    (h : b.Rep a) (hnd : (a.free ++ a.slots).Nodup) :
    b.meetsSelf build onTrade side price quantity id participantId st =
      match a.free with
      | [] => false
      | s :: _ => sweepMeetsSelf side.opposite ⟨s, id, price, quantity, a.sequence, participantId⟩
          quantity (a.queue side.opposite) := by
  have hpool := h.pool
  cases hfree : a.free with
  | nil =>
    rw [hfree] at hpool
    simp only [OrderBook.meetsSelf, OrderPool.allocate_empty build hpool]
  | cons s free =>
    rw [hfree] at hpool
    obtain ⟨pool, halloc, hpool', horders⟩ := OrderPool.allocate_spec build hpool
    have hmid := mid_of_allocate side price quantity id participantId h hnd hfree hpool' horders
    simp only [OrderBook.meetsSelf, halloc]
    exact matchMeetsSelf_eq build onTrade side st hmid

end Call

end MarketMakerOps.Engine
