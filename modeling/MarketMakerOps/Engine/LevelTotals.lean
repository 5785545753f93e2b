import MarketMakerOps.Engine.Runs
import Mathlib.Algebra.Order.BigOperators.Group.List
import Mathlib.Algebra.Order.Ring.Nat

/-!
The counter `totalQuantity` of a price level, against the sum it stands for.

* `loopInRange`, `addInRange`, `cancelInRange`: every update of a counter on the
  way through a call stays inside `uint32`;
* `OrderBook.TotalsExact`: each stored counter is the sum of its queue;
* `Call.Room`: the orders queued at an incoming order's price and the order
  itself add up to less than `2 ^ 32`;
* `level_totals_exact_iff`: a run is exact when every add has room, and only then.
-/

namespace MarketMakerOps.Engine

open LinkedQueue Priority Fallible

variable {cap : Nat} {σ : Type}

/-! ## The updates of a call -/

/-- The updates of one iteration of a match loop: a fill, and the `remove` of an exhausted order. -/
def stepInRange (stops : UInt32 → UInt32 → Bool) (incoming : Fin cap) (incomingPrice : UInt32)
    (w : Sweep cap σ) : Bool :=
  let inc := w.pool.orders incoming
  if ¬ (0 < inc.quantity ∧ 0 < w.numLevels) then true else
  match w.levels[w.numLevels - 1]? with
  | none => true
  | some pl =>
    if stops incomingPrice pl.price then true else
    match pl.head with
    | none => true
    | some resting =>
      let res := w.pool.orders resting
      if res.participantId = inc.participantId then true else
      let fillQty := stdMin inc.quantity res.quantity
      let orders := w.pool.orders.setQuantity incoming (inc.quantity - fillQty)
      let left := (orders resting).quantity - fillQty
      decide (fillQty ≤ pl.totalQuantity) &&
        (decide (left ≠ 0) || decide (left ≤ pl.totalQuantity - fillQty))

/-- Those of all iterations. -/
def loopInRange (build : Build) (onTrade : Trade → σ → σ) (stops : UInt32 → UInt32 → Bool)
    (mkTrade : Order cap → Order cap → UInt32 → UInt32 → Trade) (incoming : Fin cap)
    (incomingPrice : UInt32) : Nat → Sweep cap σ → Bool
  | 0, _ => true
  | fuel + 1, w =>
    stepInRange stops incoming incomingPrice w &&
    match matchStep build onTrade stops mkTrade incoming incomingPrice w with
    | .ok (true, w) => loopInRange build onTrade stops mkTrade incoming incomingPrice fuel w
    | _ => true

namespace OrderBook

/-- The updates of the sweep of an incoming order. -/
def matchInRange (build : Build) (onTrade : Trade → σ → σ) (side : Side) (price : UInt32) (st : σ)
    (b : OrderBook cap) (incoming : Fin cap) : Bool :=
  match side with
  | .buy =>
    if b.bestAsk.any fun ask => price ≥ ask.price then
      loopInRange build onTrade (fun incomingPrice price => incomingPrice < price)
        (fun inc res price qty => ⟨inc.orderId, res.orderId, price, qty⟩)
        incoming (b.pool.orders incoming).price (cap + 1)
        ⟨b.asks, b.asks.length, b.pool, b.orderIndex, st⟩
    else true
  | .sell =>
    if b.bestBid.any fun bid => price ≤ bid.price then
      loopInRange build onTrade (fun incomingPrice price => incomingPrice > price)
        (fun inc res price qty => ⟨res.orderId, inc.orderId, price, qty⟩)
        incoming (b.pool.orders incoming).price (cap + 1)
        ⟨b.bids, b.bids.length, b.pool, b.orderIndex, st⟩
    else true

/-- The addition in `addToTail`, at the level at position `it`. -/
def tailInRange (levels : List (PriceLevel cap)) (it : Nat) (pool : OrderPool cap)
    (order : Fin cap) : Bool :=
  levels[it]?.all fun pl =>
    pl.totalQuantity.toNat + (pool.orders order).quantity.toNat < 2 ^ 32

/-- The subtraction in `remove`, at the level at position `it`. -/
def removeInRange (levels : List (PriceLevel cap)) (it : Nat) (pool : OrderPool cap)
    (o : Fin cap) : Bool :=
  levels[it]?.all fun pl => (pool.orders o).quantity ≤ pl.totalQuantity

/-- The update of an order that rests. -/
def restInRange (build : Build) (side : Side) (price : UInt32) (b : OrderBook cap)
    (order : Fin cap) : Bool :=
  match side with
  | .buy =>
    match b.findOrCreateBidLevel build price with
    | .error _ => true
    | .ok (it, b) => tailInRange b.bids it b.pool order
  | .sell =>
    match b.findOrCreateAskLevel build price with
    | .error _ => true
    | .ok (it, b) => tailInRange b.asks it b.pool order

/-- The updates of `addLimitOrder`. -/
def addInRange (build : Build) (onTrade : Trade → σ → σ) (side : Side) (price quantity : UInt32)
    (id participantId : UInt64) (st : σ) (b : OrderBook cap) : Bool :=
  match b.pool.allocate build with
  | .error _ => true
  | .ok (order, pool) =>
    let orders := Function.update pool.orders order
      ((pool.orders order).init id price quantity b.sequence side participantId)
    let b := { b with pool := { pool with orders := orders }, sequence := b.sequence + 1 }
    b.matchInRange build onTrade side price st order &&
    match b.matchIncoming build onTrade side price st order with
    | .error _ => true
    | .ok (_, b) =>
      if 0 < (b.pool.orders order).quantity then b.restInRange build side price order else true

/-- The update of `cancelOrder`. -/
def cancelInRange (orderId : UInt64) (b : OrderBook cap) : Bool :=
  match b.orderIndex.lookup orderId with
  | none => true
  | some o =>
    let price := (b.pool.orders o).price
    match (b.pool.orders o).side with
    | .buy => removeInRange b.bids (b.findBidLevel price) b.pool o
    | .sell => removeInRange b.asks (b.findAskLevel price) b.pool o

/-- Each stored counter is the sum of the open quantities queued at its level. -/
def TotalsExact (b : OrderBook cap) : Prop :=
  ∀ s, ∀ pl ∈ b.levels s,
    pl.totalQuantity.toNat = ((b.chain pl).map fun o => (b.pool.orders o).quantity.toNat).sum

/-- The open quantity resting on a side at a price. -/
def quantityAt (b : OrderBook cap) (s : Side) (price : UInt32) : Nat :=
  (((b.resting s).filter fun o => o.price = price).map fun o => o.quantity.toNat).sum

instance (b : OrderBook cap) : Decidable b.TotalsExact :=
  decidable_of_iff ((∀ pl ∈ b.levels .buy, _ = _) ∧ ∀ pl ∈ b.levels .sell, _ = _)
    ⟨fun h s => by
      cases s
      · exact h.1
      · exact h.2, fun h => ⟨h .buy, h .sell⟩⟩

end OrderBook

/-- Every update of a counter in the call stays in range. -/
def Call.InRange (build : Build) (x : List Trade × OrderBook cap) : Call → Prop
  | .add side price quantity id participantId =>
    x.2.addInRange build (fun t ts => ts ++ [t]) side price quantity id participantId x.1 = true
  | .cancel id => x.2.cancelInRange id = true

/-- The call's updates stay in range and leave exact counters. -/
def Call.Exact (build : Build) (x : List Trade × OrderBook cap) (c : Call) : Prop :=
  c.InRange build x ∧ ∀ x' ∈ (OrderBook.call build x c).toOption, x'.2.TotalsExact

/-- An incoming order fits into the counter of its own price. -/
def Call.Room (b : OrderBook cap) : Call → Prop
  | .add side price quantity _ _ => b.quantityAt side price + quantity.toNat < 2 ^ 32
  | .cancel _ => True

instance (build : Build) (x : List Trade × OrderBook cap) : (c : Call) →
    Decidable (c.InRange build x)
  | .add .. => inferInstanceAs (Decidable (_ = true))
  | .cancel _ => inferInstanceAs (Decidable (_ = true))

instance (build : Build) (x : List Trade × OrderBook cap) (c : Call) :
    Decidable (c.Exact build x) := inferInstanceAs (Decidable (_ ∧ _))

instance (b : OrderBook cap) : (c : Call) → Decidable (c.Room b)
  | .add .. => inferInstanceAs (Decidable (_ < _))
  | .cancel _ => inferInstanceAs (Decidable True)

/-! ## Sums of a priority list -/

/-- The open quantity of the orders at a price. -/
def levelSum (P : List (Resting cap)) (price : UInt32) : Nat :=
  ((P.filter fun e => e.price = price).map fun e => e.quantity.toNat).sum

section Sums

variable {P Q : List (Resting cap)} {e : Resting cap} {p : UInt32}

theorem levelSum_cons (e : Resting cap) (P : List (Resting cap)) (p : UInt32) :
    levelSum (e :: P) p = (if e.price = p then e.quantity.toNat else 0) + levelSum P p := by
  by_cases he : e.price = p
  · simp [levelSum, he]
  · simp [levelSum, he]

theorem levelSum_append (P Q : List (Resting cap)) (p : UInt32) :
    levelSum (P ++ Q) p = levelSum P p + levelSum Q p := by
  simp [levelSum]

theorem levelSum_perm (h : P.Perm Q) (p : UInt32) : levelSum P p = levelSum Q p :=
  ((h.filter _).map _).sum_eq

theorem levelSum_sublist (h : P.Sublist Q) (p : UInt32) : levelSum P p ≤ levelSum Q p :=
  ((h.filter _).map _).sum_le_sum fun _ _ => Nat.zero_le _

theorem levelSum_of_notMem (h : p ∉ P.map Resting.price) : levelSum P p = 0 := by
  have hnil : (P.filter fun e => e.price = p) = [] := by
    rw [List.filter_eq_nil_iff]
    intro e he heq
    exact h (of_decide_eq_true heq ▸ List.mem_map_of_mem he)
  rw [levelSum, hnil]
  rfl

theorem le_levelSum (he : e ∈ P) : e.quantity.toNat ≤ levelSum P e.price := by
  refine List.le_sum_of_mem (List.mem_map.mpr ⟨e, ?_, rfl⟩)
  exact List.mem_filter.mpr ⟨he, by simp⟩

/-- A sweep only takes quantity away. -/
theorem levelSum_sweep (opp : Side) (inc : Resting cap) (q : UInt32) (P : List (Resting cap))
    (p : UInt32) : levelSum (sweep opp inc q P).queue p ≤ levelSum P p := by
  induction P generalizing q with
  | nil => exact le_refl _
  | cons e P ih =>
    simp only [sweep]
    split
    · exact le_refl _
    · split
      · exact le_refl _
      · split
        · next hlt =>
          have hsub : (e.quantity - q).toNat ≤ e.quantity.toNat := by
            rw [UInt32.toNat_sub_of_le _ _ (UInt32.le_of_lt hlt)]
            exact Nat.sub_le _ _
          rw [levelSum_cons, levelSum_cons]
          dsimp only
          split <;> omega
        · rw [levelSum_cons]
          exact (ih _).trans (Nat.le_add_left _ _)

theorem left_le (opp : Side) (inc : Resting cap) (q : UInt32) (P : List (Resting cap)) :
    (sweep opp inc q P).left.toNat ≤ q.toNat := by
  induction P generalizing q with
  | nil => exact le_refl _
  | cons e P ih =>
    simp only [sweep]
    split
    · exact le_refl _
    · split
      · exact Nat.zero_le _
      · split
        · exact Nat.zero_le _
        · next hge =>
          refine (ih _).trans ?_
          rw [UInt32.toNat_sub_of_le _ _ (UInt32.not_lt.mp hge)]
          exact Nat.sub_le _ _

/-- A sum of machine words, modulo the word. -/
theorem toNat_sum (l : List UInt32) : l.sum.toNat = (l.map UInt32.toNat).sum % 2 ^ 32 := by
  induction l with
  | nil => rfl
  | cons x l ih =>
    rw [List.sum_cons, UInt32.toNat_add, ih, List.map_cons, List.sum_cons, Nat.add_mod_mod]

end Sums

/-! ## One call -/

/-- No level's sum leaves the range of its counter. -/
def PriorityBook.Exact (a : PriorityBook cap) : Prop := ∀ s p, levelSum (a.queue s) p < 2 ^ 32

theorem LevelQueue.total_toNat {mem : Orders cap} {s : Side} {pl : PriceLevel cap}
    {q : List (Resting cap)} (h : LevelQueue mem s pl q)
    (hlt : (q.map fun e => e.quantity.toNat).sum < 2 ^ 32) :
    pl.totalQuantity.toNat = (q.map fun e => e.quantity.toNat).sum := by
  rw [h.total, toNat_sum, List.map_map]
  exact Nat.mod_eq_of_lt hlt

theorem LevelsRep.total_toNat {mem : Orders cap} {s : Side} {L : List (PriceLevel cap)}
    {P : List (Resting cap)} (h : LevelsRep mem s L P) {pl : PriceLevel cap} (hpl : pl ∈ L)
    (hlt : levelSum P pl.price < 2 ^ 32) : pl.totalQuantity.toNat = levelSum P pl.price :=
  (h.level_of_mem hpl).total_toNat hlt

section Loop

variable (build : Build) (onTrade : Trade → σ → σ) {stops : UInt32 → UInt32 → Bool}
  {mkTrade : Order cap → Order cap → UInt32 → UInt32 → Trade} {opp : Side} {inc : Resting cap}
  {w w' : Sweep cap σ} {q : UInt32} {free : List (Fin cap)} {P : List (Resting cap)}
  {index : OrderIndex cap}

/-- A fill takes no more than its level holds. -/
theorem stepInRange_of_exact (hs : Stops opp stops) (h : SweepRep opp inc w q free P index)
    (hexact : ∀ p, levelSum P p < 2 ^ 32) : stepInRange stops inc.slot inc.price w = true := by
  cases P with
  | nil => simp [stepInRange, h.numLevels_eq_zero]
  | cons e P =>
    have hr := h.reads
    obtain ⟨L, pl, R, qs, P', hlev, hnum, rfl, hpl, -, -, hprice, hhead⟩ := h.last
    by_cases hlt : opp.rank e.price < opp.rank inc.price
    · have hstop : stops inc.price pl.price = true := (hs _ _).mpr (by rwa [hprice])
      simp [stepInRange, hlev, hnum, hstop]
    · have hgo : stops inc.price pl.price = false := not_stops hs (by rwa [hprice])
      have hsum : ((e :: qs).map fun e => e.quantity.toNat).sum < 2 ^ 32 := by
        refine lt_of_le_of_lt ?_ (hexact e.price)
        have hq : (e :: qs).filter (fun x => x.price = e.price) = e :: qs :=
          List.filter_eq_self.mpr fun x hx => by simpa [hprice] using hpl.price x hx
        have happ := levelSum_append (e :: qs) P' e.price
        rw [levelSum, levelSum, hq, List.cons_append] at happ
        rw [levelSum, happ]
        exact Nat.le_add_right _ _
      have htotal := hpl.total_toNat hsum
      rw [List.map_cons, List.sum_cons] at htotal
      have hfill : stdMin q e.quantity ≤ pl.totalQuantity := by
        have hmin : stdMin q e.quantity ≤ e.quantity := by
          unfold stdMin
          split
          · exact UInt32.le_refl _
          · next hge => exact UInt32.not_lt.mp hge
        rw [UInt32.le_iff_toNat_le] at hmin ⊢
        omega
      -- `remove` runs once nothing is left of the order, so it subtracts zero
      have hremove : ∀ left total : UInt32,
          (decide (left ≠ 0) || decide (left ≤ total)) = true := by
        intro left total
        by_cases hzero : left = 0
        · subst hzero
          simp
        · simp [hzero]
      have hget : w.levels[w.numLevels - 1]? = some pl := by simp [hlev, hnum]
      simp only [stepInRange, hget, hgo, hhead, hr.quantity, hr.headQuantity, hfill, hremove,
        decide_true, Bool.and_self, ite_self]

/-- An iteration that goes on leaves sums in range. -/
theorem matchStep_exact (hs : Stops opp stops) (hmk : MakesTrades opp mkTrade)
    (h : SweepRep opp inc w q free P index) (hexact : ∀ p, levelSum P p < 2 ^ 32)
    (hstep : matchStep build onTrade stops mkTrade inc.slot inc.price w = .ok (true, w')) :
    ∃ q' free' P' index', SweepRep opp inc w' q' free' P' index' ∧
      ∀ p, levelSum P' p < 2 ^ 32 := by
  cases P with
  | nil =>
    rw [matchStep_nil build onTrade stops mkTrade h] at hstep
    cases hstep
  | cons e P =>
    by_cases hq : q = 0
    · subst hq
      rw [matchStep_done build onTrade stops mkTrade h] at hstep
      cases hstep
    by_cases hlt : opp.rank e.price < opp.rank inc.price
    · rw [matchStep_stop build onTrade mkTrade hs h hlt] at hstep
      cases hstep
    by_cases hself : e.participantId = inc.participantId
    · obtain ⟨w₁, h₁, -⟩ := matchStep_self build onTrade mkTrade hs h hq hlt hself
      rw [h₁] at hstep
      cases hstep
    by_cases hqe : q < e.quantity
    · obtain ⟨w₁, h₁, -, hrep, -⟩ := matchStep_partial build onTrade hs hmk h hq hlt hself hqe
      rw [h₁] at hstep
      cases hstep
      refine ⟨_, _, _, _, hrep, fun p => lt_of_le_of_lt ?_ (hexact p)⟩
      have hsweep := levelSum_sweep opp inc q (e :: P) p
      simpa only [sweep, hq, hlt, hself, hqe, or_self, if_false, if_true] using hsweep
    · obtain ⟨w₁, h₁, -, hrep, -⟩ := matchStep_full build onTrade hs hmk h hq hlt hself hqe
      rw [h₁] at hstep
      cases hstep
      refine ⟨_, _, _, _, hrep, fun p => lt_of_le_of_lt ?_ (hexact p)⟩
      exact levelSum_sublist (List.sublist_cons_self e P) p

theorem loopInRange_of_exact (hs : Stops opp stops) (hmk : MakesTrades opp mkTrade)
    (h : SweepRep opp inc w q free P index) (hexact : ∀ p, levelSum P p < 2 ^ 32) (fuel : Nat) :
    loopInRange build onTrade stops mkTrade inc.slot inc.price fuel w = true := by
  induction fuel generalizing w q free P index with
  | zero => rfl
  | succ fuel ih =>
    rw [loopInRange, stepInRange_of_exact hs h hexact, Bool.true_and]
    split
    · next w' hstep =>
      obtain ⟨_, _, _, _, hrep, hexact'⟩ := matchStep_exact build onTrade hs hmk h hexact hstep
      exact ih hrep hexact'
    · rfl

end Loop

section Call

variable (build : Build) (onTrade : Trade → σ → σ) {side : Side} {inc : Resting cap} {q : UInt32}
  {free : List (Fin cap)} {own opp : List (Resting cap)} {index : OrderIndex cap} {seq : UInt64}
  {b : OrderBook cap} {a a' : PriorityBook cap} (st : σ)

theorem matchInRange_of_exact (h : MidRep b side inc q free own opp index seq)
    (hexact : ∀ p, levelSum opp p < 2 ^ 32) :
    b.matchInRange build onTrade side inc.price st inc.slot = true := by
  have hrep := h.sweepRep st
  cases side with
  | buy =>
    rw [OrderBook.matchInRange]
    split
    · rw [h.price]
      exact loopInRange_of_exact build onTrade stops_sell (fun _ _ _ _ => rfl) hrep hexact _
    · rfl
  | sell =>
    rw [OrderBook.matchInRange]
    split
    · rw [h.price]
      exact loopInRange_of_exact build onTrade stops_buy (fun _ _ _ _ => rfl) hrep hexact _
    · rfl

theorem restInRange_eq (side : Side) (price : UInt32) (b : OrderBook cap) (order : Fin cap) :
    b.restInRange build side price order =
      match findOrCreateLevel side.before side.levelsExceeded build (b.levels side) price with
      | .error _ => true
      | .ok (it, L) => OrderBook.tailInRange L it b.pool order := by
  cases side with
  | buy =>
    simp only [OrderBook.restInRange, OrderBook.findOrCreateBidLevel, OrderBook.levels,
      Side.before, Side.levelsExceeded]
    cases findOrCreateLevel (fun p q => decide (p < q)) .bidLevelsExceeded build b.bids price
    all_goals rfl
  | sell =>
    simp only [OrderBook.restInRange, OrderBook.findOrCreateAskLevel, OrderBook.levels,
      Side.before, Side.levelsExceeded]
    cases findOrCreateLevel (fun p q => decide (p > q)) .askLevelsExceeded build b.asks price
    all_goals rfl

theorem Opened.levelSum_eq {mem : Orders cap} {s : Side} {p : UInt32} {A B : List (PriceLevel cap)}
    {pl : PriceLevel cap} {PA q PB : List (Resting cap)} (h : Opened mem s p A pl B PA q PB) :
    levelSum (PB ++ q ++ PA) p = (q.map fun e => e.quantity.toNat).sum := by
  have hB : p ∉ PB.map Resting.price := by
    intro hm
    obtain ⟨e, he, hep⟩ := List.mem_map.mp hm
    have hlt := h.better.lt_rank_of_forall h.lt_better he
    rw [hep] at hlt
    exact lt_irrefl _ hlt
  have hA : p ∉ PA.map Resting.price := by
    intro hm
    obtain ⟨e, he, hep⟩ := List.mem_map.mp hm
    have hlt := h.worse.rank_lt_of_forall h.lt_worse he
    rw [hep] at hlt
    exact lt_irrefl _ hlt
  have hq : q.filter (fun e => e.price = p) = q :=
    List.filter_eq_self.mpr fun e he => by simpa using (h.level.price e he).trans h.price
  rw [levelSum_append, levelSum_append, levelSum_of_notMem hB, levelSum_of_notMem hA, levelSum, hq]
  omega

/-- Resting adds the remainder to the sum at the order's price. -/
theorem restInRange_iff (h : b.Mid a side inc q)
    (hexact : ∀ p, levelSum (a.queue side) p < 2 ^ 32) :
    b.restInRange build side inc.price inc.slot = true ↔
      levelSum (a.queue side) inc.price + q.toNat < 2 ^ 32 := by
  have hqty : (b.pool.orders inc.slot).quantity = q := congrArg Order.quantity h.incoming
  have hq := q.toNat_lt
  rw [restInRange_eq]
  by_cases hok : inc.price ∈ (a.queue side).map Resting.price ∨
      assertThat build (levelCount (a.queue side) < kDefaultMaxPriceLevels)
        side.levelsExceeded = .ok ()
  · obtain ⟨A, pl, B, PA, Q, PB, hfind, hP, ho⟩ := findOrCreateLevel_spec side.before_spec
      h.ownRep side.levelsExceeded build inc.price hok
    have hsum := ho.levelSum_eq
    have htotal := ho.level.total_toNat (by
      rw [← hsum, ← hP]
      exact hexact _)
    rw [hfind]
    simp only [OrderBook.tailInRange, List.getElem?_append_right le_rfl, Nat.sub_self,
      List.getElem?_cons_zero, Option.all_some, hqty, htotal, decide_eq_true_eq]
    rw [hP, hsum]
  · obtain ⟨hp, hfull⟩ := not_or.mp hok
    cases hc : assertThat build (levelCount (a.queue side) < kDefaultMaxPriceLevels)
        side.levelsExceeded with
    | ok u => exact absurd hc hfull
    | error f =>
      rw [findOrCreateLevel_full h.ownRep hp hc, levelSum_of_notMem hp, Nat.zero_add]
      exact iff_of_true rfl hq

/-- A level at the incoming price means that nothing crosses. -/
theorem PriorityBook.WF.left_eq (h : a.WF) (hp : inc.price ∈ (a.queue side).map Resting.price)
    (q : UInt32) : (sweep side.opposite inc q (a.queue side.opposite)).left = q := by
  obtain ⟨e, he, hep⟩ := List.mem_map.mp hp
  have hworse := (PriorityBook.uncrossed_iff side).mp h.uncrossed e he
  cases hopp : a.queue side.opposite with
  | nil => rfl
  | cons f P =>
    have hlt := hworse f (by rw [hopp]; exact List.mem_cons_self)
    rw [hep] at hlt
    rw [sweep_of_worse hlt]

/-- `addLimitOrder` keeps its counters in range when the order fits
at its own price, and only then. -/
theorem addInRange_iff (side : Side) (price quantity : UInt32) (id participantId : UInt64)
    (h : b.Rep a) (hwf : a.WF) (hexact : a.Exact) (hfree : a.free ≠ []) :
    b.addInRange build onTrade side price quantity id participantId st = true ↔
      levelSum (a.queue side) price + quantity.toNat < 2 ^ 32 := by
  have hpool := h.pool
  cases hf : a.free with
  | nil => exact absurd hf hfree
  | cons s free =>
    rw [hf] at hpool
    obtain ⟨pool, halloc, hpool', horders⟩ := OrderPool.allocate_spec build hpool
    have hmid := mid_of_allocate side price quantity id participantId h
      (perm_finRange_iff.mp hwf.slots).1 hf hpool' horders
    have hrange := matchInRange_of_exact build onTrade st hmid (hexact side.opposite)
    obtain ⟨b', hmatch, hmid'⟩ := matchIncoming_spec build onTrade st hmid
    simp only [OrderBook.addInRange, halloc, hmatch, hrange, Bool.true_and]
    set inc : Resting cap := ⟨s, id, price, quantity, a.sequence, participantId⟩
    have hleft : (b'.pool.orders s).quantity =
        (sweep side.opposite inc quantity (a.queue side.opposite)).left :=
      congrArg Order.quantity hmid'.incoming
    have hqty := quantity.toNat_lt
    rw [hleft]
    -- a level at the price: the whole order rests; otherwise the sum there is zero
    by_cases hp : price ∈ (a.queue side).map Resting.price
    · have hwhole : (sweep side.opposite inc quantity (a.queue side.opposite)).left = quantity :=
        hwf.left_eq hp quantity
      rw [hwhole] at hmid' ⊢
      split
      · have hmid'' : b'.Mid ((a.swept free side.opposite (sweep side.opposite inc quantity
            (a.queue side.opposite)))) side inc quantity := by
          simpa only [OrderBook.Mid, PriorityBook.swept, Function.update_self,
            Function.update_of_ne side.ne_opposite] using hmid'
        have hiff := restInRange_iff build hmid'' (by
          simpa only [PriorityBook.swept, Function.update_of_ne side.ne_opposite] using hexact side)
        simpa only [PriorityBook.swept, Function.update_of_ne side.ne_opposite] using hiff
      · next hzero =>
        have hz : quantity = 0 := Decidable.not_not.mp (mt UInt32.pos_iff_ne_zero.mpr hzero)
        have hz' : quantity.toNat = 0 := by rw [hz]; rfl
        have := hexact side price
        exact iff_of_true rfl (by omega)
    · have hsum := levelSum_of_notMem hp
      rw [hsum, Nat.zero_add]
      refine iff_of_true ?_ hqty
      split
      · have hmid'' : b'.Mid ((a.swept free side.opposite (sweep side.opposite inc quantity
            (a.queue side.opposite)))) side inc
            (sweep side.opposite inc quantity (a.queue side.opposite)).left := by
          simpa only [OrderBook.Mid, PriorityBook.swept, Function.update_self,
            Function.update_of_ne side.ne_opposite] using hmid'
        refine (restInRange_iff build hmid'' ?_).mpr ?_
        · simpa only [PriorityBook.swept, Function.update_of_ne side.ne_opposite] using hexact side
        · simp only [PriorityBook.swept, Function.update_of_ne side.ne_opposite]
          rw [hsum, Nat.zero_add]
          exact UInt32.toNat_lt _
      · rfl

/-- A level holds at least what leaves it. -/
theorem cancelInRange_of_exact (h : b.Rep a) (hwf : a.WF) (hexact : a.Exact) (id : UInt64) :
    b.cancelInRange id = true := by
  unfold OrderBook.cancelInRange
  cases hlook : b.orderIndex.lookup id with
  | none => rfl
  | some o =>
    rw [h.index] at hlook
    obtain ⟨side, e, he, rfl, -⟩ := hwf.indexed id o hlook
    have hheld := h.holds he
    have hside : (b.pool.orders e.slot).side = side := congrArg Order.side hheld
    have hprice : (b.pool.orders e.slot).price = e.price := congrArg Order.price hheld
    have hqty : (b.pool.orders e.slot).quantity = e.quantity := congrArg Order.quantity hheld
    have hlevels := h.levels side
    obtain ⟨A, pl, B, hL, hlen, hpl⟩ := lowerBound_found side.before_spec hlevels.pairwise
      ((hlevels.mem_price e.price).mp (List.mem_map_of_mem he))
    have hle : e.quantity ≤ pl.totalQuantity := by
      have hlt := hexact side pl.price
      rw [UInt32.le_iff_toNat_le, hlevels.total_toNat (by rw [hL]; simp) hlt, hpl]
      exact le_levelSum he
    have hremove : OrderBook.removeInRange (b.levels side)
        (lowerBound side.before (b.levels side) e.price) b.pool e.slot = true := by
      rw [hlen, hL]
      simp [OrderBook.removeInRange, hqty, hle]
    dsimp only
    rw [hside, hprice]
    cases side with
    | buy => exact hremove
    | sell => exact hremove

theorem PriorityBook.Exact.add (hexact : a.Exact) {price quantity : UInt32}
    {id participantId : UInt64} {ts : List Trade}
    (hroom : levelSum (a.queue side) price + quantity.toNat < 2 ^ 32)
    (hadd : a.add build side price quantity id participantId = .ok (ts, a')) : a'.Exact := by
  obtain ⟨s, free, r, -, rfl, -, ha'⟩ := PriorityBook.add_cases hadd
  set inc : Resting cap := ⟨s, id, price, quantity, a.sequence, participantId⟩
  set r := sweep side.opposite inc quantity (a.queue side.opposite)
  have hne := side.ne_opposite
  have hopp : ∀ p, levelSum r.queue p < 2 ^ 32 := fun p =>
    lt_of_le_of_lt (levelSum_sweep _ _ _ _ p) (hexact _ p)
  have hleft : r.left.toNat ≤ quantity.toNat := left_le _ _ _ _
  rcases ha' with ⟨-, rfl⟩ | ⟨-, rfl⟩ <;> refine forall_side side (fun p => ?_) fun p => ?_
  · simp only [PriorityBook.rest, PriorityBook.swept, Function.update_self,
      Function.update_of_ne hne]
    rw [levelSum_perm (insertLast_perm _ _ _), levelSum_cons]
    have hown := hexact side p
    dsimp only
    split
    · next hp =>
      subst hp
      omega
    · omega
  · simpa only [PriorityBook.rest, PriorityBook.swept, Function.update_self,
      Function.update_of_ne hne.symm] using hopp p
  · simpa only [PriorityBook.swept, Function.update_of_ne hne] using hexact side p
  · simpa only [PriorityBook.swept, Function.update_self] using hopp p

theorem PriorityBook.Exact.cancel (hexact : a.Exact) (id : UInt64) : (a.cancel id).Exact := by
  unfold PriorityBook.cancel
  cases a.index.lookup id with
  | none => exact hexact
  | some s => exact fun t p => lt_of_le_of_lt (levelSum_sublist List.filter_sublist p) (hexact t p)

theorem OrderBook.Rep.quantityAt_eq (h : b.Rep a) (hwf : a.WF) (s : Side) (p : UInt32) :
    b.quantityAt s p = levelSum (a.queue s) p := by
  have hresting := congrArg (fun l => ((l.filter fun o : Order cap => o.price = p).map
    fun o => o.quantity.toNat).sum) (h.resting_eq hwf s)
  simp only [List.filter_map, List.map_map] at hresting
  exact hresting

/-- Sums in range are what the counters hold. -/
theorem OrderBook.Rep.totalsExact (h : b.Rep a) (hwf : a.WF) (hexact : a.Exact) :
    b.TotalsExact := by
  intro s pl hpl
  have hl := (h.levels s).level_of_mem hpl
  have hnd := (hwf.nodup s).sublist
    ((List.filter_sublist (p := fun e => e.price = pl.price)).map Resting.slot)
  have hchain : b.chain pl = ((a.queue s).filter fun e => e.price = pl.price).map Resting.slot :=
    hl.walk_eq hnd
  rw [(h.levels s).total_toNat hpl (hexact s _), hchain, List.map_map, levelSum]
  refine congrArg List.sum (List.map_congr_left fun e he => ?_)
  have hqty : (b.pool.orders e.slot).quantity = e.quantity :=
    congrArg Order.quantity (hl.holds e he)
  exact congrArg UInt32.toNat hqty.symm

end Call

/-! ## Runs -/

/-- The book represents a well-formed priority book whose sums are in range. -/
def OrderBook.Counted (b : OrderBook cap) : Prop :=
  ∃ a : PriorityBook cap, b.Rep a ∧ a.WF ∧ a.Exact

section Runs

variable {build : Build} {x x' : List Trade × OrderBook cap} {c : Call}

theorem OrderBook.Counted.new {b₀ : OrderBook cap} (h : OrderBook.new cap = .ok b₀) :
    b₀.Counted := by
  obtain ⟨-, hrep, hwf⟩ := new_agree h
  refine ⟨_, hrep, hwf, fun s p => ?_⟩
  show (0 : Nat) < 2 ^ 32
  decide

theorem OrderBook.Counted.call (h : x.2.Counted) (hroom : c.Room x.2)
    (hc : OrderBook.call build x c = .ok x') : x'.2.Counted := by
  obtain ⟨a, hrep, hwf, hexact⟩ := h
  obtain ⟨y', hy', -, hrep', hwf'⟩ :=
    (call_sim (y := (x.1, a)) build ⟨rfl, hrep, hwf⟩ c).of_ok_left hc
  refine ⟨y'.2, hrep', hwf', ?_⟩
  cases c with
  | cancel id =>
    cases hy'
    exact hexact.cancel id
  | add side price quantity id participantId =>
    obtain ⟨⟨ts, a'⟩, hadd, hy'⟩ := bind_eq_ok.mp hy'
    cases hy'
    have hroom' : x.2.quantityAt side price + quantity.toNat < 2 ^ 32 := hroom
    rw [hrep.quantityAt_eq hwf] at hroom'
    exact hexact.add build hroom' hadd

/-- A call on a book with exact counters is exact when it has room, and only then. -/
theorem Call.exact_iff_room (h : x.2.Counted) (hfit : c.Fits x.2) :
    c.Exact build x ↔ c.Room x.2 := by
  have hrange : c.InRange build x ↔ c.Room x.2 := by
    obtain ⟨a, hrep, hwf, hexact⟩ := h
    cases c with
    | cancel id => exact iff_of_true (cancelInRange_of_exact hrep hwf hexact id) trivial
    | add side price quantity id participantId =>
      have hiff := addInRange_iff build (fun t ts => ts ++ [t]) x.1 side price quantity id
        participantId hrep hwf hexact (hrep.free_ne_nil hwf hfit)
      rw [← hrep.quantityAt_eq hwf] at hiff
      exact hiff
  constructor
  · exact fun hex => hrange.mp hex.1
  · intro hroom
    refine ⟨hrange.mpr hroom, fun x' hx' => ?_⟩
    cases hc : OrderBook.call build x c with
    | error f =>
      rw [hc] at hx'
      cases hx'
    | ok x₁ =>
      rw [hc] at hx'
      cases hx'
      obtain ⟨a', hrep', hwf', hexact'⟩ := h.call hroom hc
      exact hrep'.totalsExact hwf' hexact'

end Runs

/-- In a run within capacity every update of a counter stays in range and every call leaves exact
counters, exactly when every add fits into the counter of its own price. -/
theorem level_totals_exact_iff {b₀ : OrderBook cap} (hnew : OrderBook.new cap = .ok b₀)
    (build : Build) {calls : List Call}
    (hok : Allowed (OrderBook.call build) (fun x c => c.Fits x.2) ([], b₀) calls) :
    Allowed (OrderBook.call build) (fun x c => c.Exact build x) ([], b₀) calls ↔
      Allowed (OrderBook.call build) (fun x c => c.Room x.2) ([], b₀) calls :=
  allowed_iff_of_inv (fun x => x.2.Counted) (OrderBook.Counted.new hnew) hok
    (fun _ _ h hfit => Call.exact_iff_room h hfit) fun _ _ _ h hroom hc => h.call hroom hc

/-- Two bids at one price, a partial fill through the first, a cancel of the second. -/
def sharedLevelCalls : List Call :=
  [.add .buy 10 4294967290 1 1, .add .buy 10 5 2 2, .add .sell 10 7 3 3, .cancel 2]

theorem level_totals_exact_shared : ∃ b₀, OrderBook.new 3 = .ok b₀ ∧
    (Allowed (OrderBook.call .debug) (fun x c => c.Exact .debug x) ([], b₀) sharedLevelCalls ↔
      Allowed (OrderBook.call .debug) (fun x c => c.Room x.2) ([], b₀) sharedLevelCalls) :=
  ⟨_, rfl, level_totals_exact_iff rfl .debug (by decide)⟩

/-- Two bids at one price whose quantities add up to `2 ^ 32`. -/
def fullLevelCalls : List Call := [.add .buy 10 4294967295 1 1, .add .buy 10 1 2 2]

/-- Within capacity and with fresh ids, the counter wraps to zero under two resting orders. -/
theorem level_total_wraps : ∃ b₀, OrderBook.new 2 = .ok b₀ ∧
    Allowed (OrderBook.call .debug) (fun x c => c.Fits x.2 ∧ c.Fresh x.2) ([], b₀)
      fullLevelCalls ∧
    ¬ Allowed (OrderBook.call .debug) (fun x c => c.Exact .debug x) ([], b₀) fullLevelCalls ∧
    ∃ x, run (OrderBook.call .debug) ([], b₀) fullLevelCalls = .ok x ∧
      (x.2.bids.map PriceLevel.totalQuantity) = [0] ∧ x.2.quantityAt .buy 10 = 2 ^ 32 :=
  ⟨_, rfl, by decide, by decide, _, rfl, by decide, by decide⟩

end MarketMakerOps.Engine
