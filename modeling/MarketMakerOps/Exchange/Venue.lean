import MarketMakerOps.Exchange.Protocol
import MarketMakerOps.Engine.OrderBook

/-!
The venue (`venue/venue.cpp`): the tables of live orders and client records, the
request handlers, and the trade callback that routes fills while the book sweeps.

`Tables` are the members the callback touches, together with the messages passed
to `send_` during the current call. A hash table is a finite map; where the source
iterates one, the order is the map's own.
-/

namespace MarketMakerOps.Exchange

open Decimal Engine

variable {cap : Nat}

/-- The single symbol. -/
def kSymbol : Bytes := ascii "SIM1"

inductive OrderState
  | resting
  | filled
  | cancelled
  deriving DecidableEq, Repr

structure LiveOrder where
  owner : ConnId
  clientOrderId : Bytes
  exchangeId : Bytes
  side : OrderSide
  priceTicks : UInt32
  remaining : UInt32
  deriving DecidableEq, Repr

structure ClientRecord where
  state : OrderState
  exchangeId : Bytes
  engineId : UInt64
  deriving DecidableEq, Repr

/-- The orders one connection has submitted, by client order id. -/
abbrev Records := AList fun _ : Bytes => ClientRecord

/-- A message and its receiver. -/
abbrev Sent := ConnId × Outbound

structure Tables where
  hasLastTrade : Bool
  lastTradeTicks : UInt32
  byEngineId : AList fun _ : UInt64 => LiveOrder
  byConn : AList fun _ : ConnId => Records
  sent : List Sent

namespace Tables

def send (T : Tables) (conn : ConnId) (m : Outbound) : Tables :=
  { T with sent := T.sent ++ [(conn, m)] }

/-- Set the state of a client's record, if there is one. -/
def markRecord (T : Tables) (conn : ConnId) (cid : Bytes) (state : OrderState) : Tables :=
  match T.byConn.lookup conn with
  | none => T
  | some records =>
    match records.lookup cid with
    | none => T
    | some r =>
      { T with byConn := T.byConn.insert conn (records.insert cid { r with state := state }) }

def routeFill (engineId : UInt64) (priceTicks qty : UInt32) (T : Tables) : Tables :=
  match T.byEngineId.lookup engineId with
  | none => T
  | some lo =>
    let remainingAfter := if lo.remaining > qty then lo.remaining - qty else 0
    let T := T.send lo.owner (.fill lo.exchangeId lo.clientOrderId qty priceTicks remainingAfter)
    if remainingAfter = 0 then
      let T := T.markRecord lo.owner lo.clientOrderId .filled
      { T with byEngineId := T.byEngineId.erase engineId }
    else
      { T with byEngineId := T.byEngineId.insert engineId { lo with remaining := remainingAfter } }

def onTrade (t : Trade) (T : Tables) : Tables :=
  let T := { T with lastTradeTicks := t.price, hasLastTrade := true }
  let T := T.routeFill t.buyOrderId t.price t.quantity
  T.routeFill t.sellOrderId t.price t.quantity

def wouldSelfCross (T : Tables) (conn : ConnId) (side : OrderSide) (priceTicks : UInt32) : Bool :=
  T.byEngineId.entries.any fun e =>
    let lo := e.2
    lo.owner = conn ∧
      ((side = .buy ∧ lo.side = .sell ∧ priceTicks ≥ lo.priceTicks) ∨
        (side = .sell ∧ lo.side = .buy ∧ priceTicks ≤ lo.priceTicks))

end Tables

structure Venue (cap : Nat) where
  softCap : Nat
  nextEngineId : UInt64
  tables : Tables
  book : OrderBook cap

namespace Venue

def new (cap softCap : Nat) : Except Fault (Venue cap) := do
  let book ← OrderBook.new cap
  pure ⟨softCap, 1, ⟨false, 0, ∅, ∅, []⟩, book⟩

def send (v : Venue cap) (conn : ConnId) (m : Outbound) : Venue cap :=
  { v with tables := v.tables.send conn m }

/-- The tables once an order is entered and acknowledged. -/
def entered (v : Venue cap) (conn : ConnId) (cid : Bytes) (side : OrderSide)
    (priceTicks qty : UInt32) : Tables :=
  let engineId := v.nextEngineId
  let connMap := (v.tables.byConn.lookup conn).getD ∅
  Tables.send
    { v.tables with
      byEngineId := v.tables.byEngineId.insert engineId
        ⟨conn, cid, exchangeId engineId, side, priceTicks, qty⟩
      byConn := v.tables.byConn.insert conn
        (connMap.insert cid ⟨.resting, exchangeId engineId, engineId⟩) }
    conn (.ack cid (exchangeId engineId))

/-- Accept an order: enter it in the tables, acknowledge it, pass it to the book. -/
def submit (build : Build) (v : Venue cap) (conn : ConnId) (cid : Bytes) (side : OrderSide)
    (priceTicks qty : UInt32) : Except Fault (Venue cap) := do
  let engineId := v.nextEngineId
  let (tables, book) ← v.book.addLimitOrder build Tables.onTrade side priceTicks qty engineId conn
    (v.entered conn cid side priceTicks qty)
  pure { v with nextEngineId := engineId + 1, tables := tables, book := book }

def handleNewOrder (build : Build) (v : Venue cap) (conn : ConnId) (m : InboundMessage) :
    Except Fault (Venue cap) :=
  match m.clientOrderId with
  | none => .ok (v.send conn (.reject [] .missingClientOrderId))
  | some cid =>
    if m.symbol ≠ some kSymbol then .ok (v.send conn (.reject cid .unknownSymbol)) else
    match m.side with
    | none => .ok (v.send conn (.reject cid .badSide))
    | some side =>
      match m.priceTicks with
      | none => .ok (v.send conn (.reject cid .badPrice))
      | some priceTicks =>
        match m.qty with
        | none => .ok (v.send conn (.reject cid .badQty))
        | some qty =>
          if qty = 0 then .ok (v.send conn (.reject cid .badQty)) else
          -- byConn_[conn] creates the connection's records when there are none
          let connMap := (v.tables.byConn.lookup conn).getD ∅
          let v := { v with tables := { v.tables with
            byConn := v.tables.byConn.insert conn connMap } }
          if cid ∈ connMap then .ok (v.send conn (.reject cid .duplicateClientOrderId))
          else if v.tables.byEngineId.keys.length ≥ v.softCap then
            .ok (v.send conn (.reject cid .venueFull))
          else if v.tables.wouldSelfCross conn side priceTicks then
            .ok (v.send conn (.reject cid .selfMatch))
          else v.submit build conn cid side priceTicks qty

def handleCancel (build : Build) (v : Venue cap) (conn : ConnId) (m : InboundMessage) :
    Except Fault (Venue cap) :=
  match m.clientOrderId with
  | none => .ok (v.send conn (.cancelReject [] .notFound))
  | some cid =>
    match v.tables.byConn.lookup conn with
    | none => .ok (v.send conn (.cancelReject cid .notFound))
    | some records =>
      match records.lookup cid with
      | none => .ok (v.send conn (.cancelReject cid .notFound))
      | some r =>
        match r.state with
        | .filled => .ok (v.send conn (.cancelReject cid .alreadyFilled))
        | .cancelled => .ok (v.send conn (.cancelReject cid .alreadyCancelled))
        | .resting => do
          let book ← v.book.cancelOrder build r.engineId
          let tables := { v.tables with
            byEngineId := v.tables.byEngineId.erase r.engineId
            byConn := v.tables.byConn.insert conn
              (records.insert cid { r with state := .cancelled }) }
          pure { v with tables := tables.send conn (.cancelAck cid r.exchangeId), book := book }

def handleMessage (build : Build) (v : Venue cap) (conn : ConnId) (m : InboundMessage) :
    Except Fault (Venue cap) :=
  if m.parseError.isSome ∨ m.type = .unknown then
    .ok (v.send conn (.reject (m.clientOrderId.getD []) .malformed))
  else
    match m.type with
    | .newOrder => v.handleNewOrder build conn m
    | .cancel => v.handleCancel build conn m
    | .heartbeat => .ok v
    | .unknown => .ok (v.send conn (.reject (m.clientOrderId.getD []) .unsupported))

def handleLine (build : Build) (v : Venue cap) (conn : ConnId) (payload : Bytes) :
    Except Fault (Venue cap) :=
  v.handleMessage build conn (parseInbound payload)

/-- The engine ids a connection owns. -/
def owned (v : Venue cap) (conn : ConnId) : List UInt64 :=
  (v.tables.byEngineId.entries.filter fun e => e.2.owner = conn).map Sigma.fst

/-- Cancel the owned orders one by one. -/
def dropOwned (build : Build) (v : Venue cap) : List UInt64 → Except Fault (Venue cap)
  | [] => .ok v
  | id :: ids => do
    let book ← v.book.cancelOrder build id
    dropOwned build { v with
      book := book
      tables := { v.tables with byEngineId := v.tables.byEngineId.erase id } } ids

def dropConnection (build : Build) (v : Venue cap) (conn : ConnId) : Except Fault (Venue cap) := do
  let v ← v.dropOwned build (v.owned conn)
  pure { v with tables := { v.tables with byConn := v.tables.byConn.erase conn } }

structure Top where
  hasBid : Bool
  bidTicks : UInt32
  hasAsk : Bool
  askTicks : UInt32
  hasLast : Bool
  lastTicks : UInt32
  deriving DecidableEq, Repr

def currentTop (v : Venue cap) : Top :=
  { hasBid := v.book.bestBid.isSome
    bidTicks := (v.book.bestBid.map PriceLevel.price).getD 0
    hasAsk := v.book.bestAsk.isSome
    askTicks := (v.book.bestAsk.map PriceLevel.price).getD 0
    hasLast := v.tables.hasLastTrade
    lastTicks := v.tables.lastTradeTicks }

end Venue

/-! ## Runs -/

/-- A call on the venue. -/
inductive Event
  | line (conn : ConnId) (payload : Bytes)
  | drop (conn : ConnId)
  deriving DecidableEq, Repr

/-- One call. -/
def Venue.handle (build : Build) (v : Venue cap) : Event → Except Fault (Venue cap)
  | .line conn payload => v.handleLine build conn payload
  | .drop conn => v.dropConnection build conn

/-- The venue with the messages of the calls so far, call by call. -/
structure Session (cap : Nat) where
  history : List (Event × List Sent)
  venue : Venue cap

/-- The venue between two calls, nothing sent yet. -/
def Venue.cleared (v : Venue cap) : Venue cap := { v with tables := { v.tables with sent := [] } }

/-- A session before its first call. -/
def Session.start (v : Venue cap) : Session cap := ⟨[], v⟩

/-- One call, its messages recorded. -/
def Session.step (build : Build) (s : Session cap) (e : Event) : Except Fault (Session cap) := do
  let v ← s.venue.cleared.handle build e
  pure ⟨s.history ++ [(e, v.tables.sent)], v⟩

/-- All messages sent, in order. -/
def Session.messages (s : Session cap) : List Sent := s.history.flatMap Prod.snd

def Outbound.isAck : Outbound → Bool
  | .ack .. => true
  | _ => false

/-- The number of acknowledgements among some messages. -/
def acks (msgs : List Sent) : Nat := msgs.countP fun m => m.2.isAck

/-- The number of accepted orders. -/
def Session.accepted (s : Session cap) : Nat := acks s.messages

end MarketMakerOps.Exchange
