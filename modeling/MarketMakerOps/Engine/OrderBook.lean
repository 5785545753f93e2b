import MarketMakerOps.Engine.OrderPool
import Mathlib.Data.List.AList

/-!
The order book (`order_book.h`): level vectors with the best price at the back,
intrusive queues in the pool's memory, a hash index from order ids to slots.

The trade callback is any function on a state `σ` that the book threads through
the sweep. A loop iteration is one call of `matchStep`; the fuel of `matchLoop`
is never exhausted on a well-formed book.
-/

namespace MarketMakerOps.Engine

variable {cap : Nat} {σ : Type}

def kDefaultMaxPriceLevels : Nat := 4096

/-- The hash index: a finite map from order ids to slots. -/
abbrev OrderIndex (cap : Nat) := AList fun _ : UInt64 => Fin cap

structure OrderBook (cap : Nat) where
  pool : OrderPool cap
  bids : List (PriceLevel cap)
  asks : List (PriceLevel cap)
  orderIndex : OrderIndex cap
  sequence : UInt64

/-- The smaller argument, the first one on a tie (`std::min`). -/
def stdMin (a b : UInt32) : UInt32 := if b < a then b else a

/-- The first position whose price is not `before` the given one (`std::lower_bound`). -/
def lowerBound (before : UInt32 → UInt32 → Bool) (levels : List (PriceLevel cap))
    (price : UInt32) : Nat :=
  levels.findIdx fun pl => !before pl.price price

/-- Search with `lowerBound`, inserting an empty level where the price is new. -/
def findOrCreateLevel (before : UInt32 → UInt32 → Bool) (full : Fault) (build : Build)
    (levels : List (PriceLevel cap)) (price : UInt32) :
    Except Fault (Nat × List (PriceLevel cap)) :=
  let it := lowerBound before levels price
  if levels[it]?.any fun pl => pl.price == price then
    .ok (it, levels)
  else do
    assertThat build (levels.length < kDefaultMaxPriceLevels) full
    .ok (it, levels.insertIdx it ⟨price, 0, none, none⟩)

/-! ## The match loop -/

/-- The variables of the match loop. -/
structure Sweep (cap : Nat) (σ : Type) where
  levels : List (PriceLevel cap)
  numLevels : Nat
  pool : OrderPool cap
  orderIndex : OrderIndex cap
  st : σ

/-- One iteration; `false` when the loop condition fails or the body breaks.
`stops` is the price test of the loop, `mkTrade` orders the two ids of a trade. -/
def matchStep (build : Build) (onTrade : Trade → σ → σ) (stops : UInt32 → UInt32 → Bool)
    (mkTrade : Order cap → Order cap → UInt32 → UInt32 → Trade) (incoming : Fin cap)
    (incomingPrice : UInt32) (w : Sweep cap σ) : Except Fault (Bool × Sweep cap σ) :=
  let inc := w.pool.orders incoming
  if ¬ (0 < inc.quantity ∧ 0 < w.numLevels) then .ok (false, w) else
  match w.levels[w.numLevels - 1]? with
  | none => .error .outOfBounds
  | some pl =>
    if stops incomingPrice pl.price then .ok (false, w) else
    match pl.head with
    | none => .error .nullDeref
    | some resting =>
      let res := w.pool.orders resting
      if res.participantId = inc.participantId then
        .ok (false,
          { w with pool := { w.pool with orders := w.pool.orders.setQuantity incoming 0 } })
      else do
        let fillQty := stdMin inc.quantity res.quantity
        let orders := w.pool.orders.setQuantity incoming (inc.quantity - fillQty)
        let orders := orders.setQuantity resting ((orders resting).quantity - fillQty)
        let pl := { pl with totalQuantity := pl.totalQuantity - fillQty }
        let st := onTrade (mkTrade (orders incoming) (orders resting) pl.price fillQty) w.st
        let (pl, pool, orderIndex) ←
          if (orders resting).quantity = 0 then do
            let (pl, orders) := pl.remove orders resting
            let orderIndex := w.orderIndex.erase (orders resting).orderId
            let pool ← OrderPool.deallocate build { w.pool with orders := orders } resting
            pure (pl, pool, orderIndex)
          else
            pure (pl, { w.pool with orders := orders }, w.orderIndex)
        let levels := w.levels.set (w.numLevels - 1) pl
        let numLevels := if pl.head.isNone then w.numLevels - 1 else w.numLevels
        pure (true, ⟨levels, numLevels, pool, orderIndex, st⟩)

def matchLoop (build : Build) (onTrade : Trade → σ → σ) (stops : UInt32 → UInt32 → Bool)
    (mkTrade : Order cap → Order cap → UInt32 → UInt32 → Trade) (incoming : Fin cap)
    (incomingPrice : UInt32) : Nat → Sweep cap σ → Except Fault (Sweep cap σ)
  | 0, _ => .error .loopFuel
  | fuel + 1, w => do
    let (go, w) ← matchStep build onTrade stops mkTrade incoming incomingPrice w
    if go then matchLoop build onTrade stops mkTrade incoming incomingPrice fuel w else pure w

namespace OrderBook

def new (cap : Nat) : Except Fault (OrderBook cap) := do
  let pool ← OrderPool.new cap
  pure ⟨pool, [], [], ∅, 0⟩

/-- The level vector of one side. -/
def levels (b : OrderBook cap) : Side → List (PriceLevel cap)
  | .buy => b.bids
  | .sell => b.asks

def bestBid (b : OrderBook cap) : Option (PriceLevel cap) := b.bids.getLast?

def bestAsk (b : OrderBook cap) : Option (PriceLevel cap) := b.asks.getLast?

def matchBuy (build : Build) (onTrade : Trade → σ → σ) (st : σ) (b : OrderBook cap)
    (incoming : Fin cap) : Except Fault (σ × OrderBook cap) :=
  if b.asks.isEmpty then .ok (st, b) else do
    let w ← matchLoop build onTrade (fun incomingPrice price => incomingPrice < price)
      (fun inc res price qty => ⟨inc.orderId, res.orderId, price, qty⟩)
      incoming (b.pool.orders incoming).price (cap + 1)
      ⟨b.asks, b.asks.length, b.pool, b.orderIndex, st⟩
    pure (w.st, { b with asks := w.levels.take w.numLevels, pool := w.pool,
                         orderIndex := w.orderIndex })

def matchSell (build : Build) (onTrade : Trade → σ → σ) (st : σ) (b : OrderBook cap)
    (incoming : Fin cap) : Except Fault (σ × OrderBook cap) :=
  if b.bids.isEmpty then .ok (st, b) else do
    let w ← matchLoop build onTrade (fun incomingPrice price => incomingPrice > price)
      (fun inc res price qty => ⟨res.orderId, inc.orderId, price, qty⟩)
      incoming (b.pool.orders incoming).price (cap + 1)
      ⟨b.bids, b.bids.length, b.pool, b.orderIndex, st⟩
    pure (w.st, { b with bids := w.levels.take w.numLevels, pool := w.pool,
                         orderIndex := w.orderIndex })

def findBidLevel (b : OrderBook cap) (price : UInt32) : Nat :=
  lowerBound (fun p q => p < q) b.bids price

def findAskLevel (b : OrderBook cap) (price : UInt32) : Nat :=
  lowerBound (fun p q => p > q) b.asks price

def findOrCreateBidLevel (build : Build) (b : OrderBook cap) (price : UInt32) :
    Except Fault (Nat × OrderBook cap) := do
  let (it, bids) ← findOrCreateLevel (fun p q => p < q) .bidLevelsExceeded build b.bids price
  pure (it, { b with bids := bids })

def findOrCreateAskLevel (build : Build) (b : OrderBook cap) (price : UInt32) :
    Except Fault (Nat × OrderBook cap) := do
  let (it, asks) ← findOrCreateLevel (fun p q => p > q) .askLevelsExceeded build b.asks price
  pure (it, { b with asks := asks })

/-- Queue an order at the level at position `it` of a level vector. -/
def addAt (levels : List (PriceLevel cap)) (it : Nat) (pool : OrderPool cap) (order : Fin cap) :
    Except Fault (List (PriceLevel cap) × OrderPool cap) :=
  match levels[it]? with
  | none => .error .outOfBounds
  | some pl => do
    let (pl, orders) ← pl.addToTail pool.orders order
    pure (levels.set it pl, { pool with orders := orders })

/-- The crossing test of `addLimitOrder` and the sweep behind it. -/
def matchIncoming (build : Build) (onTrade : Trade → σ → σ) (side : Side) (price : UInt32) (st : σ)
    (b : OrderBook cap) (order : Fin cap) : Except Fault (σ × OrderBook cap) :=
  match side with
  | .buy =>
    if b.bestAsk.any fun ask => price ≥ ask.price then b.matchBuy build onTrade st order
    else .ok (st, b)
  | .sell =>
    if b.bestBid.any fun bid => price ≤ bid.price then b.matchSell build onTrade st order
    else .ok (st, b)

/-- Queue what is left of an incoming order and index it. -/
def restIncoming (build : Build) (side : Side) (price : UInt32) (id : UInt64) (b : OrderBook cap)
    (order : Fin cap) : Except Fault (OrderBook cap) := do
  let b ← match side with
    | .buy => do
      let (it, b) ← b.findOrCreateBidLevel build price
      let (bids, pool) ← addAt b.bids it b.pool order
      pure { b with bids := bids, pool := pool }
    | .sell => do
      let (it, b) ← b.findOrCreateAskLevel build price
      let (asks, pool) ← addAt b.asks it b.pool order
      pure { b with asks := asks, pool := pool }
  -- try_emplace leaves an entry that is already there
  pure { b with orderIndex :=
    if id ∈ b.orderIndex then b.orderIndex else b.orderIndex.insert id order }

def addLimitOrder (build : Build) (onTrade : Trade → σ → σ) (side : Side) (price quantity : UInt32)
    (id participantId : UInt64) (st : σ) (b : OrderBook cap) :
    Except Fault (σ × OrderBook cap) := do
  let (order, pool) ← b.pool.allocate build
  let orders := Function.update pool.orders order
    ((pool.orders order).init id price quantity b.sequence side participantId)
  let b := { b with pool := { pool with orders := orders }, sequence := b.sequence + 1 }
  let (st, b) ← b.matchIncoming build onTrade side price st order
  if 0 < (b.pool.orders order).quantity then do
    let b ← b.restIncoming build side price id order
    pure (st, b)
  else do
    let pool ← b.pool.deallocate build order
    pure (st, { b with pool := pool })

/-- Take an order off the level at position `levelIt`, erasing the level once empty. -/
def removeAt (build : Build) (levels : List (PriceLevel cap)) (levelIt : Nat)
    (pool : OrderPool cap) (o : Fin cap) :
    Except Fault (List (PriceLevel cap) × OrderPool cap) := do
  assertThat build (levels[levelIt]?.any fun pl => pl.price == (pool.orders o).price) .levelMissing
  match levels[levelIt]? with
  | none => .error .outOfBounds
  | some pl =>
    let (pl, orders) := pl.remove pool.orders o
    let levels := if pl.isEmpty then levels.eraseIdx levelIt else levels.set levelIt pl
    pure (levels, { pool with orders := orders })

def cancelOrder (build : Build) (orderId : UInt64) (b : OrderBook cap) :
    Except Fault (OrderBook cap) :=
  match b.orderIndex.lookup orderId with
  | none => .ok b
  | some o => do
    assertThat build (0 < (b.pool.orders o).quantity) .cancelQuantity
    let price := (b.pool.orders o).price
    let b ← match (b.pool.orders o).side with
      | .buy => do
        let (bids, pool) ← removeAt build b.bids (b.findBidLevel price) b.pool o
        pure { b with bids := bids, pool := pool }
      | .sell => do
        let (asks, pool) ← removeAt build b.asks (b.findAskLevel price) b.pool o
        pure { b with asks := asks, pool := pool }
    let pool ← b.pool.deallocate build o
    pure { b with orderIndex := b.orderIndex.erase orderId, pool := pool }

end OrderBook

/-! ## Runs -/

/-- A call on the book. -/
inductive Call
  | add (side : Side) (price quantity : UInt32) (id participantId : UInt64)
  | cancel (id : UInt64)
  deriving DecidableEq, Repr

/-- One call, the callback recording its trades. -/
def OrderBook.call (build : Build) (s : List Trade × OrderBook cap) :
    Call → Except Fault (List Trade × OrderBook cap)
  | .add side price quantity id participantId =>
    s.2.addLimitOrder build (fun t ts => ts ++ [t]) side price quantity id participantId s.1
  | .cancel id => do
    let b ← s.2.cancelOrder build id
    pure (s.1, b)

end MarketMakerOps.Engine
