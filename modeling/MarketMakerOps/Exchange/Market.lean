import MarketMakerOps.Exchange.Venue
import MarketMakerOps.Engine.ReferenceBook
import MarketMakerOps.Lib.Allotment

/-!
What the exchange is for, said without its data structures: one list of the
orders accepted so far, in order of acceptance, and no ids, tables, levels,
queues or slots.

* `Market.resting`: the orders on one side, best price first, earliest first;
* `Market.accept`: an incoming order is shared out among the resting orders its
  limit reaches, each served only when all ahead of it are served in full;
* `Market.objection`: the first reason against a new order;
* `Market.handle`, `Market.run`: the calls, each with the messages it causes.
-/

namespace MarketMakerOps.Exchange

open Engine Priority Allotment Decimal

/-- An order the market has accepted: its number in the order of acceptance, and what is open. -/
structure MarketOrder where
  number : ℕ
  owner : ConnId
  name : Bytes
  side : OrderSide
  price : UInt32
  remaining : ℕ
  withdrawn : Bool
  deriving DecidableEq, Repr

namespace MarketOrder

def state (o : MarketOrder) : OrderState :=
  if o.withdrawn then .cancelled else if o.remaining = 0 then .filled else .resting

/-- The name the market gives the order. -/
def exchangeId (o : MarketOrder) : Bytes := ascii "e-" ++ toDecimal o.number

/-- A better price, or the same price and earlier. -/
def Before : MarketOrder → MarketOrder → Prop :=
  Precedes (fun o => o.side.rank o.price) number

instance : DecidableRel Before := inferInstanceAs (DecidableRel (Precedes _ _))

def less (o : MarketOrder) (n : ℕ) : MarketOrder := { o with remaining := o.remaining - n }

/-- The report of a trade to the owner of an order. -/
def report (o : MarketOrder) (price : UInt32) (n : ℕ) : Sent :=
  (o.owner, .fill o.exchangeId o.name (.ofNat n) price (.ofNat (o.remaining - n)))

end MarketOrder

/-- The open orders and the orders that are done, of all connections there are. -/
structure Market where
  softCap : ℕ
  accepted : ℕ
  orders : List MarketOrder
  last : Option UInt32
  deriving DecidableEq, Repr

namespace Market

def opened (softCap : ℕ) : Market := ⟨softCap, 0, [], none⟩

/-- The order a connection calls by a name. -/
def called (M : Market) (conn : ConnId) (name : Bytes) : Option MarketOrder :=
  M.orders.find? fun o => o.owner = conn ∧ o.name = name

def resting (M : Market) (side : OrderSide) : List MarketOrder :=
  byPriority (fun o => side.rank o.price)
    (M.orders.filter fun o => o.state = .resting ∧ o.side = side)

/-- The resting orders an incoming order's limit reaches. -/
def reach (M : Market) (side : OrderSide) (limit : UInt32) : List MarketOrder :=
  (M.resting side.opposite).filter fun o => crosses side limit o.price

/-- What an order of `reached` gets of an incoming quantity. -/
def gets (reached : List MarketOrder) (q : ℕ) (o : MarketOrder) : ℕ :=
  share MarketOrder.remaining MarketOrder.Before q reached o

/-- The trades, in the order they happen. -/
def trades (reached : List MarketOrder) (q : ℕ) : List (MarketOrder × ℕ) :=
  (reached.map fun o => (o, gets reached q o)).filter fun x => 0 < x.2

/-- What the trades leave of an order. -/
def settle (reached : List MarketOrder) (q : ℕ) (o : MarketOrder) : MarketOrder :=
  if o ∈ reached then o.less (gets reached q o) else o

/-- The reports of the trades of an incoming order, the buyer's first. -/
def reports (inc : MarketOrder) : List (MarketOrder × ℕ) → List Sent
  | [] => []
  | (o, n) :: ts =>
    (match inc.side with
      | .buy => [inc.report o.price n, o.report o.price n]
      | .sell => [o.report o.price n, inc.report o.price n]) ++ reports (inc.less n) ts

/-- Take an order in: acknowledge it, trade it, keep it. -/
def accept (M : Market) (conn : ConnId) (name : Bytes) (side : OrderSide) (price : UInt32)
    (q : ℕ) : Market × List Sent :=
  let inc : MarketOrder := ⟨M.accepted + 1, conn, name, side, price, q, false⟩
  let reached := M.reach side price
  let ts := trades reached q
  ({ M with
      accepted := M.accepted + 1
      orders := M.orders.map (settle reached q) ++ [inc.less (ts.map Prod.snd).sum]
      last := (ts.getLast?.map fun x => x.1.price).or M.last },
    (conn, .ack name inc.exchangeId) :: reports inc ts)

/-- The first reason against a new order, if there is one. -/
def objection (M : Market) (conn : ConnId) (m : InboundMessage) : Option RejectReason :=
  [(m.clientOrderId.isNone, RejectReason.missingClientOrderId),
    (m.symbol ≠ some kSymbol, .unknownSymbol),
    (m.side.isNone, .badSide),
    (m.priceTicks.isNone, .badPrice),
    (m.qty.getD 0 = 0, .badQty),
    ((M.called conn (m.clientOrderId.getD [])).isSome, .duplicateClientOrderId),
    (M.softCap ≤ (M.orders.filter fun o => o.state = .resting).length, .venueFull),
    (∃ o ∈ M.reach (m.side.getD .buy) (m.priceTicks.getD 0), o.owner = conn, .selfMatch)
  ].findSome? fun x => if x.1 then some x.2 else none

def order (M : Market) (conn : ConnId) (m : InboundMessage) : Market × List Sent :=
  match M.objection conn m with
  | some reason => (M, [(conn, .reject (m.clientOrderId.getD []) reason)])
  | none => M.accept conn (m.clientOrderId.getD []) (m.side.getD .buy) (m.priceTicks.getD 0)
      (m.qty.getD 0).toNat

/-- Why an order that is done, or unknown, cannot be withdrawn. -/
def cancelObjection : Option MarketOrder → Option CancelRejectReason
  | none => some .notFound
  | some o => match o.state with
    | .resting => none
    | .filled => some .alreadyFilled
    | .cancelled => some .alreadyCancelled

def withdraw (M : Market) (conn : ConnId) (m : InboundMessage) : Market × List Sent :=
  let name := m.clientOrderId.getD []
  let named := m.clientOrderId.bind (M.called conn)
  match cancelObjection named with
  | some reason => (M, [(conn, .cancelReject name reason)])
  | none =>
    ({ M with orders := M.orders.map fun o =>
        if o.owner = conn ∧ o.name = name then { o with withdrawn := true } else o },
      named.toList.map fun o => (conn, .cancelAck name o.exchangeId))

def handle (M : Market) : Event → Market × List Sent
  | .drop conn => ({ M with orders := M.orders.filter fun o => o.owner ≠ conn }, [])
  | .line conn payload =>
    let m := parseInbound payload
    if m.parseError.isSome ∨ m.type = .unknown then
      (M, [(conn, .reject (m.clientOrderId.getD []) .malformed)])
    else if m.type = .newOrder then M.order conn m
    else if m.type = .cancel then M.withdraw conn m
    else (M, [])

def top (M : Market) : Venue.Top :=
  { hasBid := (M.resting .buy).head?.isSome
    bidTicks := ((M.resting .buy).head?.map MarketOrder.price).getD 0
    hasAsk := (M.resting .sell).head?.isSome
    askTicks := ((M.resting .sell).head?.map MarketOrder.price).getD 0
    hasLast := M.last.isSome
    lastTicks := M.last.getD 0 }

/-- The calls one after another, with their messages. -/
def run (M : Market) : List Event → Market × List (Event × List Sent)
  | [] => (M, [])
  | ev :: events =>
    let x := M.handle ev
    let y := run x.1 events
    (y.1, (ev, x.2) :: y.2)

end Market

end MarketMakerOps.Exchange
