import MarketMakerOps.Engine.SelfMatch
import Mathlib.Data.List.TakeWhile

/-!
The match loop, iteration by iteration.

* `bodies`: the loop variables at each entry of the loop body;
* `Iterates`: what one execution of the body does with the level and the head it reads;
* `Sweep.Tidy`: levels behind the live prefix are empty;
* `bodies_iterate`: every iteration is one of these, and the orders filled are the first
  that cross;
* `match_loop_safe`: the same for the loop of an incoming order in any reachable book.
-/

namespace MarketMakerOps.Engine

open LinkedQueue Priority Fallible

variable {cap : Nat} {σ : Type}

/-- The loop's price test for an incoming order of this side. -/
def Side.stops : Side → UInt32 → UInt32 → Bool
  | .buy => fun incomingPrice price => incomingPrice < price
  | .sell => fun incomingPrice price => incomingPrice > price

/-- The trade the loop reports for an incoming order of this side. -/
def Side.mkTrade : Side → Order cap → Order cap → UInt32 → UInt32 → Trade
  | .buy => fun inc res price qty => ⟨inc.orderId, res.orderId, price, qty⟩
  | .sell => fun inc res price qty => ⟨res.orderId, inc.orderId, price, qty⟩

/-- The head of the level the loop works on. -/
def Sweep.front (w : Sweep cap σ) : Option (Fin cap) :=
  w.levels[w.numLevels - 1]?.bind PriceLevel.front

section Definitions

variable (build : Build) (onTrade : Trade → σ → σ) (stops : UInt32 → UInt32 → Bool)
  (mkTrade : Order cap → Order cap → UInt32 → UInt32 → Trade) (incoming : Fin cap)
  (incomingPrice : UInt32)

/-- The loop variables at each entry of the loop body. -/
def bodies : Nat → Sweep cap σ → List (Sweep cap σ)
  | 0, _ => []
  | fuel + 1, w =>
    if ¬ (0 < (w.pool.orders incoming).quantity ∧ 0 < w.numLevels) then [] else
      w :: match matchStep build onTrade stops mkTrade incoming incomingPrice w with
        | .ok (true, w) => bodies fuel w
        | _ => []

/-- The slot an iteration fills, when the loop goes on behind it. -/
def filledSlot (w : Sweep cap σ) : Option (Fin cap) :=
  match matchStep build onTrade stops mkTrade incoming incomingPrice w with
  | .ok (true, _) => w.front
  | _ => none

/-- The slots filled by all iterations. -/
def fills (fuel : Nat) (w : Sweep cap σ) : List (Fin cap) :=
  (bodies build onTrade stops mkTrade incoming incomingPrice fuel w).filterMap
    (filledSlot build onTrade stops mkTrade incoming incomingPrice)

/-- What the body does that reads the level `pl` and its head: it breaks at the price test, it
breaks on a self-match, or it reports one trade with the head and goes round again. -/
inductive Iterates (w : Sweep cap σ) (pl : PriceLevel cap) (resting : Fin cap) : Prop
  | price (stop : stops incomingPrice pl.price = true)
      (step : matchStep build onTrade stops mkTrade incoming incomingPrice w = .ok (false, w))
  | selfMatch (w' : Sweep cap σ)
      (same : (w.pool.orders resting).participantId = (w.pool.orders incoming).participantId)
      (step : matchStep build onTrade stops mkTrade incoming incomingPrice w = .ok (false, w'))
      (silent : w'.st = w.st)
  | trade (w' : Sweep cap σ) (t : Trade)
      (step : matchStep build onTrade stops mkTrade incoming incomingPrice w = .ok (true, w'))
      (report : w'.st = onTrade t w.st)
      (parties : t = mkTrade (w.pool.orders incoming) (w.pool.orders resting) pl.price t.quantity)
      (positive : 1 ≤ t.quantity.toNat)

end Definitions

namespace OrderBook

/-- The start of `addLimitOrder`: the incoming order takes a slot and is written to it. -/
def takeIncoming (build : Build) (side : Side) (price quantity : UInt32) (id participantId : UInt64)
    (b : OrderBook cap) : Except Fault (Fin cap × OrderBook cap) := do
  let (order, pool) ← b.pool.allocate build
  let orders := Function.update pool.orders order
    ((pool.orders order).init id price quantity b.sequence side participantId)
  pure (order, { b with pool := { pool with orders := orders }, sequence := b.sequence + 1 })

/-- `matchBuy` or `matchSell`. -/
def matchSide (build : Build) (onTrade : Trade → σ → σ) (side : Side) (st : σ) (b : OrderBook cap)
    (incoming : Fin cap) : Except Fault (σ × OrderBook cap) :=
  match side with
  | .buy => b.matchBuy build onTrade st incoming
  | .sell => b.matchSell build onTrade st incoming

/-- The variables the loop starts with. -/
def sweepStart (side : Side) (st : σ) (b : OrderBook cap) : Sweep cap σ :=
  ⟨b.levels side.opposite, (b.levels side.opposite).length, b.pool, b.orderIndex, st⟩

end OrderBook

theorem addLimitOrder_taken (build : Build) (onTrade : Trade → σ → σ) (side : Side)
    (price quantity : UInt32) (id participantId : UInt64) (st : σ) (b : OrderBook cap) :
    b.addLimitOrder build onTrade side price quantity id participantId st = (do
      let (order, b) ← b.takeIncoming build side price quantity id participantId
      let (st, b) ← b.matchIncoming build onTrade side price st order
      if 0 < (b.pool.orders order).quantity then do
        let b ← b.restIncoming build side price id order
        pure (st, b)
      else do
        let pool ← b.pool.deallocate build order
        pure (st, { b with pool := pool })) := by
  simp only [OrderBook.addLimitOrder, OrderBook.takeIncoming, bind_assoc, pure_bind]

theorem matchSide_eq (build : Build) (onTrade : Trade → σ → σ) (side : Side) (st : σ)
    (b : OrderBook cap) (incoming : Fin cap) :
    b.matchSide build onTrade side st incoming =
      if (b.levels side.opposite).isEmpty then .ok (st, b) else (do
        let w ← matchLoop build onTrade side.stops side.mkTrade incoming
          (b.pool.orders incoming).price (cap + 1) (b.sweepStart side st)
        pure (w.st, b.replace side.opposite (w.levels.take w.numLevels) w.pool w.orderIndex)) := by
  cases side <;> rfl

theorem Side.stops_spec (side : Side) : Stops side.opposite side.stops := by
  cases side with
  | buy => exact stops_sell
  | sell => exact stops_buy

theorem Side.mkTrade_spec (side : Side) : MakesTrades side.opposite
    (side.mkTrade : Order cap → Order cap → UInt32 → UInt32 → Trade) := by
  cases side <;> exact fun _ _ _ _ => rfl

/-! ## What an iteration writes to the vector -/

theorem PriceLevel.remove_price (pl : PriceLevel cap) (h : Orders cap) (o : Fin cap) :
    (pl.remove h o).1.price = pl.price := by
  simp only [PriceLevel.remove]
  split <;> split <;> rfl

/-- The levels behind the live prefix are empty. -/
structure Sweep.Tidy (w : Sweep cap σ) : Prop where
  num : w.numLevels ≤ w.levels.length
  emptied : ∀ pl ∈ w.levels.drop w.numLevels, pl.isEmpty = true

/-- An iteration leaves the vector alone, or writes the last live level, which it leaves behind
when that is empty now. -/
inductive WritesLast (w w' : Sweep cap σ) : Prop
  | nothing (levels : w'.levels = w.levels) (num : w'.numLevels = w.numLevels)
  | level (pl pl' : PriceLevel cap) (live : 0 < w.numLevels)
      (old : w.levels[w.numLevels - 1]? = some pl) (price : pl'.price = pl.price)
      (levels : w'.levels = w.levels.set (w.numLevels - 1) pl')
      (num : w'.numLevels = if pl'.isEmpty then w.numLevels - 1 else w.numLevels)

theorem matchStep_writes {build : Build} {onTrade : Trade → σ → σ}
    {stops : UInt32 → UInt32 → Bool} {mkTrade : Order cap → Order cap → UInt32 → UInt32 → Trade}
    {incoming : Fin cap} {incomingPrice : UInt32} {w w' : Sweep cap σ} {go : Bool}
    (h : matchStep build onTrade stops mkTrade incoming incomingPrice w = .ok (go, w')) :
    WritesLast w w' := by
  unfold matchStep at h
  dsimp only at h
  split at h
  · cases h
    exact .nothing rfl rfl
  · next hrun =>
    have hlive := (not_not.mp hrun).2
    cases hlev : w.levels[w.numLevels - 1]? with
    | none => rw [hlev] at h; cases h
    | some pl =>
      simp only [hlev] at h
      split at h
      · cases h
        exact .nothing rfl rfl
      · split at h
        · cases h
        · next resting _ =>
          split at h
          · cases h
            exact .nothing rfl rfl
          · split at h
            · obtain ⟨_, _, h⟩ := bind_eq_ok.mp h
              cases h
              refine .level pl _ hlive hlev ?_ rfl rfl
              exact PriceLevel.remove_price _ _ _
            · cases h
              refine .level pl _ hlive hlev ?_ rfl rfl
              rfl

theorem Sweep.Tidy.step {w w' : Sweep cap σ} (h : w.Tidy) (hw : WritesLast w w') :
    w'.Tidy ∧ w'.levels.map PriceLevel.price = w.levels.map PriceLevel.price := by
  cases hw with
  | nothing hlevels hnum =>
    refine ⟨⟨?_, ?_⟩, by rw [hlevels]⟩
    · rw [hlevels, hnum]
      exact h.num
    · rw [hlevels, hnum]
      exact h.emptied
  | level pl pl' hlive hold hprice hlevels hnum =>
    have hlast : w.numLevels - 1 < w.levels.length := by
      have := h.num
      omega
    -- behind the live prefix nothing is written
    have hbehind : (w.levels.set (w.numLevels - 1) pl').drop w.numLevels =
        w.levels.drop w.numLevels := by
      rw [List.drop_set, if_pos (by omega)]
    refine ⟨⟨?_, ?_⟩, ?_⟩
    · have := h.num
      rw [hlevels, hnum, List.length_set]
      split <;> omega
    · rw [hlevels, hnum]
      split
      · next hempty =>
        have hdrop : (w.levels.set (w.numLevels - 1) pl').drop (w.numLevels - 1) =
            pl' :: w.levels.drop w.numLevels := by
          rw [List.drop_eq_getElem_cons (by rw [List.length_set]; exact hlast),
            List.getElem_set_self, show w.numLevels - 1 + 1 = w.numLevels by omega, hbehind]
        rw [hdrop]
        exact List.forall_mem_cons.mpr ⟨hempty, h.emptied⟩
      · rw [hbehind]
        exact h.emptied
    · rw [hlevels, List.map_set, hprice]
      obtain ⟨hlt, hget⟩ := List.getElem?_eq_some_iff.mp hold
      rw [← hget, ← List.getElem_map PriceLevel.price (h := by rw [List.length_map]; exact hlt)]
      exact List.set_getElem_self _

/-- The loop forgets no level and leaves none empty before the others. -/
theorem matchLoop_tidy {build : Build} {onTrade : Trade → σ → σ}
    {stops : UInt32 → UInt32 → Bool} {mkTrade : Order cap → Order cap → UInt32 → UInt32 → Trade}
    {incoming : Fin cap} {incomingPrice : UInt32} {fuel : Nat} {w w' : Sweep cap σ} (h : w.Tidy)
    (hloop : matchLoop build onTrade stops mkTrade incoming incomingPrice fuel w = .ok w') :
    w'.Tidy ∧ w'.levels.map PriceLevel.price = w.levels.map PriceLevel.price := by
  induction fuel generalizing w with
  | zero => cases hloop
  | succ fuel ih =>
    obtain ⟨⟨go, v⟩, hstep, hloop⟩ := bind_eq_ok.mp hloop
    obtain ⟨htidy, hprices⟩ := h.step (matchStep_writes hstep)
    cases go with
    | false =>
      cases hloop
      exact ⟨htidy, hprices⟩
    | true =>
      obtain ⟨htidy', hprices'⟩ := ih htidy hloop
      exact ⟨htidy', hprices'.trans hprices⟩

/-! ## The iterations -/

section Loop

variable (build : Build) (onTrade : Trade → σ → σ) {stops : UInt32 → UInt32 → Bool}
  {mkTrade : Order cap → Order cap → UInt32 → UInt32 → Trade} {opp : Side} {inc e : Resting cap}
  {w w' : Sweep cap σ} {q : UInt32} {free : List (Fin cap)} {P : List (Resting cap)}
  {index : OrderIndex cap}

theorem SweepRep.numLevels_pos (h : SweepRep opp inc w q free (e :: P) index) :
    0 < w.numLevels := by
  obtain ⟨L, -, -, -, -, -, hnum, -⟩ := h.last
  omega

theorem bodies_done (stops) (mkTrade) (fuel : Nat) (h : SweepRep opp inc w 0 free P index) :
    bodies build onTrade stops mkTrade inc.slot inc.price fuel w = [] := by
  have hq : (w.pool.orders inc.slot).quantity = 0 := congrArg Order.quantity h.incoming
  cases fuel with
  | zero => rfl
  | succ fuel => simp [bodies, hq]

theorem bodies_nil (stops) (mkTrade) (fuel : Nat) (h : SweepRep opp inc w q free [] index) :
    bodies build onTrade stops mkTrade inc.slot inc.price fuel w = [] := by
  have hn := h.numLevels_eq_zero
  cases fuel with
  | zero => rfl
  | succ fuel => simp [bodies, hn]

/-- The body is entered while both sides have something open. -/
theorem bodies_succ (h : SweepRep opp inc w q free (e :: P) index) (hq : q ≠ 0) (fuel : Nat)
    {go : Bool}
    (hstep : matchStep build onTrade stops mkTrade inc.slot inc.price w = .ok (go, w')) :
    bodies build onTrade stops mkTrade inc.slot inc.price (fuel + 1) w =
      w :: if go then bodies build onTrade stops mkTrade inc.slot inc.price fuel w' else [] := by
  have henter : 0 < (w.pool.orders inc.slot).quantity ∧ 0 < w.numLevels := by
    rw [h.reads.quantity]
    exact ⟨UInt32.pos_iff_ne_zero.mpr hq, h.numLevels_pos⟩
  rw [bodies, if_neg (not_not.mpr henter), hstep]
  cases go <;> rfl

/-- The body reads the level of the head of the list, and the head. -/
theorem SweepRep.front (h : SweepRep opp inc w q free (e :: P) index) :
    ∃ pl, w.levels[w.numLevels - 1]? = some pl ∧ pl.head = some e.slot ∧ pl.price = e.price ∧
      w.front = some e.slot := by
  obtain ⟨L, pl, R, qs, P', hlev, hnum, rfl, -, -, -, hprice, hhead⟩ := h.last
  have hget : w.levels[w.numLevels - 1]? = some pl := by simp [hlev, hnum]
  refine ⟨pl, hget, hhead, hprice, ?_⟩
  rw [Sweep.front, hget]
  exact hhead

/-- The trade an iteration reports names the two orders as the code orders them. -/
theorem SweepRep.parties (h : SweepRep opp inc w q free (e :: P) index)
    (hmk : MakesTrades opp mkTrade) (n : UInt32) :
    tradeOf opp inc.orderId e.orderId e.price n =
      mkTrade (w.pool.orders inc.slot) (w.pool.orders e.slot) e.price n := by
  rw [hmk, h.reads.orderId, h.reads.headOrderId]

theorem tradeOf_quantity (opp : Side) (i r : UInt64) (p n : UInt32) :
    (tradeOf opp i r p n).quantity = n := by cases opp <;> rfl

/-- What an iteration at this state reads, and what it does then. -/
def Iteration (stops : UInt32 → UInt32 → Bool)
    (mkTrade : Order cap → Order cap → UInt32 → UInt32 → Trade) (incoming : Fin cap)
    (incomingPrice : UInt32) (v : Sweep cap σ) : Prop :=
  ∃ pl resting, v.levels[v.numLevels - 1]? = some pl ∧ pl.head = some resting ∧
    Iterates build onTrade stops mkTrade incoming incomingPrice v pl resting

/-- The list cut off where the price test stops. -/
def crossingPrefix (stops : UInt32 → UInt32 → Bool) (limit : UInt32) (P : List (Resting cap)) :
    List (Resting cap) := P.takeWhile fun e => !stops limit e.price

theorem crossingPrefix_filter (stops : UInt32 → UInt32 → Bool) (limit : UInt32)
    (P : List (Resting cap)) :
    crossingPrefix stops limit P <+: P.filter fun e => !stops limit e.price := by
  rw [crossingPrefix]
  generalize (fun e : Resting cap => !stops limit e.price) = p
  have hcut := (List.takeWhile_prefix (l := P) p).filter p
  rwa [List.filter_eq_self.mpr fun e he => List.mem_takeWhile_imp he] at hcut

/-- An iteration that fills the head, and the ones behind it. -/
theorem bodies_trade (hmk : MakesTrades opp mkTrade) (h : SweepRep opp inc w q free (e :: P) index)
    (hq : q ≠ 0) {n : UInt32} (hn : n ≠ 0)
    (hstep : matchStep build onTrade stops mkTrade inc.slot inc.price w = .ok (true, w'))
    (hst : w'.st = onTrade (tradeOf opp inc.orderId e.orderId e.price n) w.st) (fuel : Nat) :
    bodies build onTrade stops mkTrade inc.slot inc.price (fuel + 1) w =
        w :: bodies build onTrade stops mkTrade inc.slot inc.price fuel w' ∧
      Iteration build onTrade stops mkTrade inc.slot inc.price w ∧
      filledSlot build onTrade stops mkTrade inc.slot inc.price w = some e.slot := by
  obtain ⟨pl, hget, hhead, hprice, hfront⟩ := h.front
  refine ⟨bodies_succ build onTrade h hq fuel hstep, ⟨pl, e.slot, hget, hhead, ?_⟩, ?_⟩
  · refine .trade w' _ hstep hst ?_ ?_
    · rw [tradeOf_quantity, h.parties hmk, hprice]
    · rw [tradeOf_quantity]
      have := UInt32.lt_iff_toNat_lt.mp (UInt32.pos_iff_ne_zero.mpr hn)
      exact this
  · rw [filledSlot, hstep]
    exact hfront

/-- Every iteration reads a level and its head and does one of the three; the slots filled are
the first ones that cross. -/
theorem bodies_iterate (hs : Stops opp stops) (hmk : MakesTrades opp mkTrade)
    (h : SweepRep opp inc w q free P index) (hpos : ∀ e ∈ P, 0 < e.quantity) (fuel : Nat) :
    (∀ v ∈ bodies build onTrade stops mkTrade inc.slot inc.price fuel w,
      Iteration build onTrade stops mkTrade inc.slot inc.price v) ∧
    fills build onTrade stops mkTrade inc.slot inc.price fuel w <+:
      (crossingPrefix stops inc.price P).map Resting.slot := by
  induction P generalizing w q free index fuel with
  | nil =>
    rw [fills, bodies_nil build onTrade stops mkTrade fuel h]
    exact ⟨fun v hv => (by cases hv), List.nil_prefix⟩
  | cons e P ih =>
    cases fuel with
    | zero => exact ⟨fun v hv => (by cases hv), List.nil_prefix⟩
    | succ fuel =>
      by_cases hq : q = 0
      · subst hq
        rw [fills, bodies_done build onTrade stops mkTrade _ h]
        exact ⟨fun v hv => (by cases hv), List.nil_prefix⟩
      obtain ⟨pl, hget, hhead, hprice, -⟩ := h.front
      -- an iteration that breaks is the last one and fills nothing
      have hbreak : ∀ {w'}, matchStep build onTrade stops mkTrade inc.slot inc.price w =
          .ok (false, w') → Iterates build onTrade stops mkTrade inc.slot inc.price w pl e.slot →
          (∀ v ∈ bodies build onTrade stops mkTrade inc.slot inc.price (fuel + 1) w,
            Iteration build onTrade stops mkTrade inc.slot inc.price v) ∧
          fills build onTrade stops mkTrade inc.slot inc.price (fuel + 1) w <+:
            (crossingPrefix stops inc.price (e :: P)).map Resting.slot := by
        intro w' hstep hit
        rw [fills, bodies_succ build onTrade h hq fuel hstep]
        refine ⟨?_, ?_⟩
        · rintro v (_ | ⟨_, hv⟩)
          · exact ⟨pl, e.slot, hget, hhead, hit⟩
          · cases hv
        · have hnone : filledSlot build onTrade stops mkTrade inc.slot inc.price w = none := by
            rw [filledSlot, hstep]
          rw [List.filterMap_cons_none hnone]
          exact List.nil_prefix
      by_cases hlt : opp.rank e.price < opp.rank inc.price
      · have hstep := matchStep_stop build onTrade mkTrade hs h hlt
        exact hbreak hstep (.price ((hs _ _).mpr (by rwa [hprice])) hstep)
      by_cases hself : e.participantId = inc.participantId
      · obtain ⟨w', hstep, hst, -, -⟩ := matchStep_self build onTrade mkTrade hs h hq hlt hself
        refine hbreak hstep (.selfMatch w' ?_ hstep hst)
        rw [h.reads.headParticipantId, h.reads.participantId, hself]
      have hcross : crossingPrefix stops inc.price (e :: P) =
          e :: crossingPrefix stops inc.price P := by
        rw [crossingPrefix, List.takeWhile_cons_of_pos (by rw [not_stops hs hlt]; rfl)]
        rfl
      rw [fills, hcross, List.map_cons]
      obtain ⟨hpe, hpP⟩ := List.forall_mem_cons.mp hpos
      by_cases hqe : q < e.quantity
      · obtain ⟨w', hstep, hst, hrep, -⟩ :=
          matchStep_partial build onTrade hs hmk h hq hlt hself hqe
        obtain ⟨hbodies, hit, hfilled⟩ := bodies_trade build onTrade hmk h hq hq hstep hst fuel
        rw [hbodies, bodies_done build onTrade stops mkTrade fuel hrep,
          List.filterMap_cons_some hfilled]
        refine ⟨?_, List.cons_prefix_cons.mpr ⟨rfl, List.nil_prefix⟩⟩
        rintro v (_ | ⟨_, hv⟩)
        · exact hit
        · cases hv
      · obtain ⟨w', hstep, hst, hrep, -⟩ := matchStep_full build onTrade hs hmk h hq hlt hself hqe
        obtain ⟨hbodies, hit, hfilled⟩ := bodies_trade build onTrade hmk h hq
          (UInt32.pos_iff_ne_zero.mp hpe) hstep hst fuel
        obtain ⟨hits, hprefix⟩ := ih hrep hpP fuel
        rw [hbodies, List.filterMap_cons_some hfilled]
        exact ⟨List.forall_mem_cons.mpr ⟨hit, hits⟩, List.cons_prefix_cons.mpr ⟨rfl, hprefix⟩⟩

end Loop

/-! ## A whole match -/

/-- The match loop of an incoming order in slot `order` of `b`, where `crossing` are the slots of
the opposite orders that cross its limit. -/
structure LoopSafe (build : Build) (onTrade : Trade → σ → σ) (side : Side) (st : σ)
    (b : OrderBook cap) (order : Fin cap) (crossing : List (Fin cap)) : Prop where
  ends : ∃ w, matchLoop build onTrade side.stops side.mkTrade order (b.pool.orders order).price
      (cap + 1) (b.sweepStart side st) = .ok w ∧
    b.matchSide build onTrade side st order = .ok (w.st,
      b.replace side.opposite (w.levels.take w.numLevels) w.pool w.orderIndex) ∧
    w.levels.map PriceLevel.price = (b.levels side.opposite).map PriceLevel.price ∧
    w.levels.take w.numLevels = w.levels.filter fun pl => !pl.isEmpty
  iterations : ∀ v ∈ bodies build onTrade side.stops side.mkTrade order
      (b.pool.orders order).price (cap + 1) (b.sweepStart side st),
    Iteration build onTrade side.stops side.mkTrade order (b.pool.orders order).price v
  fills : fills build onTrade side.stops side.mkTrade order (b.pool.orders order).price (cap + 1)
    (b.sweepStart side st) <+: crossing
  once : crossing.Nodup

section Match

variable {build : Build} {onTrade : Trade → σ → σ} {side : Side} {inc : Resting cap} {q : UInt32}
  {free : List (Fin cap)} {own opp : List (Resting cap)} {index : OrderIndex cap} {seq : UInt64}
  {b : OrderBook cap}

/-- Live levels hold orders. -/
theorem LevelsRep.isEmpty_eq_false {mem : Orders cap} {s : Side} {L : List (PriceLevel cap)}
    {P : List (Resting cap)} (h : LevelsRep mem s L P) {pl : PriceLevel cap} (hpl : pl ∈ L) :
    pl.isEmpty = false := by
  have hlevel := h.level_of_mem hpl
  rw [Bool.eq_false_iff]
  exact fun hempty => hlevel.ne (hlevel.toLevelQueue.isEmpty_iff.mp hempty)

/-- The levels behind the live prefix are the empty ones. -/
theorem take_eq_filter {w : Sweep cap σ} (h : w.Tidy)
    (hlive : ∀ pl ∈ w.levels.take w.numLevels, pl.isEmpty = false) :
    w.levels.take w.numLevels = w.levels.filter fun pl => !pl.isEmpty := by
  have hsplit := List.take_append_drop w.numLevels w.levels
  conv_rhs => rw [← hsplit]
  rw [List.filter_append, List.filter_eq_self.mpr fun pl hpl => by rw [hlive pl hpl]; rfl,
    List.filter_eq_nil_iff.mpr fun pl hpl => by rw [h.emptied pl hpl]; exact Bool.false_ne_true,
    List.append_nil]

theorem MidRep.loopSafe (h : MidRep b side inc q free own opp index seq)
    (hpos : ∀ e ∈ opp, 0 < e.quantity) (st : σ) :
    LoopSafe build onTrade side st b inc.slot
      ((opp.filter fun e => !side.stops inc.price e.price).map Resting.slot) := by
  obtain ⟨w, hloop, -, hrep, -⟩ :=
    matchLoop_all build onTrade st side.stops_spec side.mkTrade_spec h
  have hstart : (b.sweepStart side st).Tidy := by
    refine ⟨le_rfl, fun pl hpl => ?_⟩
    rw [OrderBook.sweepStart, List.drop_length] at hpl
    cases hpl
  obtain ⟨htidy, hprices⟩ := matchLoop_tidy hstart hloop
  obtain ⟨hits, hprefix⟩ := bodies_iterate build onTrade side.stops_spec side.mkTrade_spec
    (h.sweepRep st) hpos (cap + 1)
  change matchLoop _ _ _ _ _ _ _ (b.sweepStart side st) = _ at hloop
  have hopp : (opp.map Resting.slot).Nodup := by
    obtain ⟨hnd, -, -⟩ := List.nodup_append.mp (List.nodup_cons.mp h.nodup).2
    exact (List.nodup_append.mp hnd).2.1
  rw [← h.price] at hits hprefix
  refine ⟨⟨w, hloop, ?_, hprices, ?_⟩, hits, ?_, ?_⟩
  · rw [matchSide_eq]
    split
    · next hempty =>
      -- nothing to match, and the loop has no level to read
      have hnil := List.isEmpty_iff.mp hempty
      have hopp : opp = [] := h.oppRep.eq_nil_iff.mp hnil
      subst hopp
      have hw : w = b.sweepStart side st := by
        have hstop := matchStep_nil build onTrade side.stops side.mkTrade (h.sweepRep st)
        change matchStep _ _ _ _ _ _ (b.sweepStart side st) = _ at hstop
        rw [matchLoop, h.price, hstop] at hloop
        exact (Except.ok.inj hloop).symm
      have htake : w.levels.take w.numLevels = b.levels side.opposite := by
        rw [hw]
        exact List.take_length
      rw [htake, hw]
      cases side <;> rfl
    · rw [hloop]
      rfl
  · exact take_eq_filter htidy fun pl hpl => hrep.levels.isEmpty_eq_false hpl
  · rw [h.price] at hprefix ⊢
    exact hprefix.trans ((crossingPrefix_filter side.stops inc.price opp).map _)
  · exact hopp.sublist (List.filter_sublist.map _)

end Match

/-- In every reachable book and for every incoming order that finds a slot, the loop of
`matchBuy` or `matchSell` ends; every iteration reads a level of the vector and its head, and one
that stops neither at the price test nor on a self-match reports one trade of at least one; the
slots filled are distinct and cross the limit; the final resize keeps the levels that are not
empty. -/
theorem match_loop_safe (build : Build) (onTrade : Trade → σ → σ) (st : σ) {b₀ : OrderBook cap}
    (hnew : OrderBook.new cap = .ok b₀) {calls : List Call} {x : List Trade × OrderBook cap}
    (hrun : run (OrderBook.call build) ([], b₀) calls = .ok x) (side : Side)
    (price quantity : UInt32) (id participantId : UInt64)
    (hfit : (Call.add side price quantity id participantId).Fits x.2) :
    ∃ order b, x.2.takeIncoming build side price quantity id participantId = .ok (order, b) ∧
      LoopSafe build onTrade side st b order ((x.2.restingSlots side.opposite).filter fun s =>
        !side.stops price (x.2.pool.orders s).price) := by
  obtain ⟨a, hrep, hwf⟩ := run_sound hnew hrun
  obtain ⟨s, free, hfree⟩ := List.exists_cons_of_ne_nil (hrep.free_ne_nil hwf hfit)
  have hpool := hrep.pool
  rw [hfree] at hpool
  obtain ⟨pool, halloc, hpool', horders⟩ := OrderPool.allocate_spec build hpool
  have hmid := mid_of_allocate side price quantity id participantId hrep
    (perm_finRange_iff.mp hwf.slots).1 hfree hpool' horders
  refine ⟨s, _, by rw [OrderBook.takeIncoming, halloc]; rfl, ?_⟩
  have hcrossing : (x.2.restingSlots side.opposite).filter
      (fun s => !side.stops price (x.2.pool.orders s).price) =
      ((a.queue side.opposite).filter fun e => !side.stops price e.price).map Resting.slot := by
    rw [hrep.restingSlots_eq hwf, List.filter_map]
    refine congrArg _ (List.filter_congr fun e he => ?_)
    have hprice : (x.2.pool.orders e.slot).price = e.price :=
      congrArg Order.price (hrep.holds he)
    rw [Function.comp_apply, hprice]
  rw [hcrossing]
  exact hmid.loopSafe (hwf.positive _) st

/-- Two asks, the worse one above the limit of a bid of five at eleven. -/
def twoAsks : List Call := [.add .sell 10 1 1 1, .add .sell 12 1 2 1]

theorem match_loop_safe_two_asks : ∃ b₀, OrderBook.new 3 = .ok b₀ ∧
    ∃ x, run (OrderBook.call .debug) ([], b₀) twoAsks = .ok x ∧
    ∃ order b, x.2.takeIncoming .debug .buy 11 5 3 2 = .ok (order, b) ∧
      LoopSafe .debug (fun t ts => ts ++ [t]) .buy ([] : List Trade) b order
        ((x.2.restingSlots .sell).filter fun s => !Side.buy.stops 11 (x.2.pool.orders s).price) :=
  ⟨_, rfl, _, rfl, match_loop_safe .debug (fun t ts => ts ++ [t]) [] rfl
    (show run (OrderBook.call .debug) _ twoAsks = .ok _ from rfl) .buy 11 5 3 2 (by decide)⟩

/-- The bid takes the first ask; the next iteration breaks at the price test, with no self-match
and no trade. -/
theorem price_stop_reports_no_trade : ∃ b₀, OrderBook.new 3 = .ok b₀ ∧
    ∃ x, run (OrderBook.call .debug) ([], b₀) twoAsks = .ok x ∧
    ∃ order b, x.2.takeIncoming .debug .buy 11 5 3 2 = .ok (order, b) ∧
    ∃ v ∈ bodies .debug (fun t ts => ts ++ [t]) Side.buy.stops Side.buy.mkTrade order 11 4
        (b.sweepStart .buy ([] : List Trade)),
      atSelfMatch Side.buy.stops order 11 v = false ∧
      (matchStep .debug (fun t ts => ts ++ [t]) Side.buy.stops Side.buy.mkTrade order 11 v).map
        (fun r => (r.1, r.2.st)) = .ok (false, v.st) :=
  ⟨_, rfl, _, rfl, _, _, rfl, by decide⟩

end MarketMakerOps.Engine
