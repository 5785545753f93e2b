import MarketMakerOps.Engine.Levels

/-!
The pointer book refines the priority book.

* `OrderBook.Rep b a`: the vectors, queues, free list and index of `b` hold `a`;
* `matchLoop_spec`: the match loop is `sweep`, its final resize drops the emptied
  levels, and its fuel never runs out;
* `addLimitOrder_sim`, `cancelOrder_sim`: each call fails exactly when the
  abstract one does, and otherwise reports its trades and represents its result.
-/

namespace MarketMakerOps.Engine

open LinkedQueue Priority Fallible

variable {cap : Nat} {σ : Type}

/-! ## The match loop -/

/-- The loop variables hold the priority list `P` of side `opp`, the free stack, the index,
and the incoming order with `q` still open. -/
structure SweepRep (opp : Side) (inc : Resting cap) (w : Sweep cap σ) (q : UInt32)
    (free : List (Fin cap)) (P : List (Resting cap)) (index : OrderIndex cap) : Prop where
  pool : w.pool.Rep free
  levels : LevelsRep w.pool.orders opp (w.levels.take w.numLevels) P
  num : w.numLevels ≤ w.levels.length
  incoming : (w.pool.orders inc.slot).unlinked = { inc with quantity := q }.order opp.opposite
  index : w.orderIndex = index
  nodup : (inc.slot :: (free ++ P.map Resting.slot)).Nodup

section Loop

variable (build : Build) (onTrade : Trade → σ → σ) {stops : UInt32 → UInt32 → Bool}
  {mkTrade : Order cap → Order cap → UInt32 → UInt32 → Trade} {opp : Side} {inc e : Resting cap}
  {w : Sweep cap σ} {q : UInt32} {free : List (Fin cap)} {P : List (Resting cap)}
  {index : OrderIndex cap}

/-- The price test stops at levels worse than the limit. -/
def Stops (opp : Side) (stops : UInt32 → UInt32 → Bool) : Prop :=
  ∀ limit price, stops limit price = true ↔ opp.rank price < opp.rank limit

/-- The trade names the buyer first. -/
def MakesTrades (opp : Side) (mkTrade : Order cap → Order cap → UInt32 → UInt32 → Trade) : Prop :=
  ∀ i r p n, mkTrade i r p n = tradeOf opp i.orderId r.orderId p n

/-- The level the loop works on is the last of the live prefix. -/
theorem SweepRep.last (h : SweepRep opp inc w q free (e :: P) index) :
    ∃ L pl R qs P', w.levels = L ++ pl :: R ∧ w.numLevels = L.length + 1 ∧ P = qs ++ P' ∧
      LevelRep w.pool.orders opp pl (e :: qs) ∧ LevelsRep w.pool.orders opp L P' ∧
      (∀ x ∈ L, opp.rank x.price < opp.rank pl.price) ∧ pl.price = e.price ∧
      pl.head = some e.slot := by
  obtain ⟨L, pl, qs, P', htake, rfl, hpl, hL, hlt⟩ := h.levels.last
  refine ⟨L, pl, w.levels.drop w.numLevels, qs, P', ?_, ?_, rfl, hpl, hL, hlt,
    (hpl.price e List.mem_cons_self).symm, hpl.queue.head⟩
  · have hsplit := (List.take_append_drop w.numLevels w.levels).symm
    rw [htake] at hsplit
    simpa using hsplit
  · have := congrArg List.length htake
    rw [List.length_take, List.length_append, min_eq_left h.num] at this
    simpa using this

/-- The loop ends when the incoming order is exhausted. -/
theorem matchStep_done (stops) (mkTrade) (h : SweepRep opp inc w 0 free P index) :
    matchStep build onTrade stops mkTrade inc.slot inc.price w = .ok (false, w) := by
  have hq : (w.pool.orders inc.slot).quantity = 0 := congrArg Order.quantity h.incoming
  simp [matchStep, hq]

theorem SweepRep.numLevels_eq_zero (h : SweepRep opp inc w q free [] index) : w.numLevels = 0 := by
  have hnil := (h.levels.eq_nil_iff).mpr rfl
  rw [List.take_eq_nil_iff] at hnil
  rcases hnil with hn | hn
  · exact hn
  · have := h.num
    rw [hn] at this
    simpa using this

/-- The loop ends when no level is left. -/
theorem matchStep_nil (stops) (mkTrade) (h : SweepRep opp inc w q free [] index) :
    matchStep build onTrade stops mkTrade inc.slot inc.price w = .ok (false, w) := by
  have hn := h.numLevels_eq_zero
  simp [matchStep, hn]

/-- The loop breaks at a level worse than the limit. -/
theorem matchStep_stop (mkTrade) (hs : Stops opp stops)
    (h : SweepRep opp inc w q free (e :: P) index)
    (hlt : opp.rank e.price < opp.rank inc.price) :
    matchStep build onTrade stops mkTrade inc.slot inc.price w = .ok (false, w) := by
  obtain ⟨L, pl, R, qs, P', hlev, hnum, rfl, -, -, -, hprice, -⟩ := h.last
  have hstop : stops inc.price pl.price = true := (hs _ _).mpr (by rw [hprice]; exact hlt)
  simp [matchStep, hlev, hnum, hstop]

/-- The head of the list and the incoming order, as the loop reads them. -/
structure Reads (w : Sweep cap σ) (inc e : Resting cap) (q : UInt32) : Prop where
  quantity : (w.pool.orders inc.slot).quantity = q
  orderId : (w.pool.orders inc.slot).orderId = inc.orderId
  participantId : (w.pool.orders inc.slot).participantId = inc.participantId
  headQuantity : (w.pool.orders e.slot).quantity = e.quantity
  headOrderId : (w.pool.orders e.slot).orderId = e.orderId
  headParticipantId : (w.pool.orders e.slot).participantId = e.participantId
  distinct : e.slot ≠ inc.slot

theorem SweepRep.reads (h : SweepRep opp inc w q free (e :: P) index) : Reads w inc e q := by
  have hi := h.incoming
  have he := h.levels.holds (e := e) List.mem_cons_self
  refine ⟨congrArg Order.quantity hi, congrArg Order.orderId hi, congrArg Order.participantId hi,
    congrArg Order.quantity he, congrArg Order.orderId he, congrArg Order.participantId he, ?_⟩
  intro hs
  refine (List.nodup_cons.mp h.nodup).1 (List.mem_append_right _ ?_)
  rw [← hs]
  exact List.mem_map_of_mem List.mem_cons_self

theorem not_stops (hs : Stops opp stops) {p r : UInt32} (hlt : ¬ opp.rank r < opp.rank p) :
    stops p r = false := by
  rw [Bool.eq_false_iff]
  exact fun hc => hlt ((hs _ _).mp hc)

/-- A self-match zeroes the incoming order and breaks. -/
theorem matchStep_self (mkTrade) (hs : Stops opp stops)
    (h : SweepRep opp inc w q free (e :: P) index)
    (hq : q ≠ 0) (hlt : ¬ opp.rank e.price < opp.rank inc.price)
    (hself : e.participantId = inc.participantId) :
    ∃ w', matchStep build onTrade stops mkTrade inc.slot inc.price w = .ok (false, w') ∧
      w'.st = w.st ∧ SweepRep opp inc w' 0 free (e :: P) index ∧
      ∀ a, a ≠ inc.slot → w'.pool.orders a = w.pool.orders a := by
  have hr := h.reads
  obtain ⟨L, pl, R, qs, P', hlev, hnum, rfl, hpl, -, -, hprice, hhead⟩ := h.last
  have hgo : stops inc.price pl.price = false := not_stops hs (by rwa [hprice])
  have hpos : 0 < q := UInt32.pos_iff_ne_zero.mpr hq
  have hframe : ∀ a, a ≠ inc.slot →
      (w.pool.orders.setQuantity inc.slot 0) a = w.pool.orders a :=
    fun a ha => Orders.setQuantity_of_ne _ _ _ _ ha
  have hne : ∀ x ∈ free ++ (e :: (qs ++ P')).map Resting.slot, x ≠ inc.slot := fun x hx he =>
    (List.nodup_cons.mp h.nodup).1 (he ▸ hx)
  refine ⟨{ w with pool := { w.pool with orders := w.pool.orders.setQuantity inc.slot 0 } },
    ?_, rfl, ⟨?_, ?_, h.num, ?_, h.index, h.nodup⟩, hframe⟩
  · simp [matchStep, hlev, hnum, hgo, hhead, hr.quantity, hpos, hr.participantId,
      hr.headParticipantId, hself]
  · exact h.pool.frame fun a ha => by rw [Orders.links_setQuantity]
  · exact h.levels.frame fun x hx =>
      hframe _ (hne _ (List.mem_append_right _ (List.mem_map_of_mem hx)))
  · have := congrArg (fun o : Order cap => { o with quantity := 0 }) h.incoming
    simp only [Orders.setQuantity_self]
    exact this

theorem stdMin_of_lt {a b : UInt32} (h : a < b) : stdMin a b = a :=
  if_neg fun h' => UInt32.lt_irrefl _ (UInt32.lt_trans h h')

theorem stdMin_of_not_lt {a b : UInt32} (h : ¬ a < b) : stdMin a b = b := by
  unfold stdMin
  split
  · rfl
  · rename_i h'
    exact UInt32.le_antisymm (UInt32.not_lt.mp h') (UInt32.not_lt.mp h)

/-- The memory after the two quantity writes of a fill of `f`. -/
def fillOrders (h : Orders cap) (inc e : Resting cap) (q f : UInt32) : Orders cap :=
  (h.setQuantity inc.slot (q - f)).setQuantity e.slot (e.quantity - f)

theorem SweepRep.fillOrders_incoming (h : SweepRep opp inc w q free (e :: P) index) (f : UInt32) :
    (fillOrders w.pool.orders inc e q f inc.slot).unlinked =
      { inc with quantity := q - f }.order opp.opposite := by
  have := congrArg (fun o : Order cap => { o with quantity := q - f }) h.incoming
  rw [fillOrders, Orders.setQuantity_of_ne _ _ _ _ h.reads.distinct.symm, Orders.setQuantity_self]
  exact this

theorem fillOrders_of_ne {h : Orders cap} {q f : UInt32} {a : Fin cap} (hi : a ≠ inc.slot)
    (he : a ≠ e.slot) : fillOrders h inc e q f a = h a := by
  rw [fillOrders, Orders.setQuantity_of_ne _ _ _ _ he, Orders.setQuantity_of_ne _ _ _ _ hi]

/-- The rest of an iteration that fills `f`, once the price test and the self-match test passed. -/
theorem matchStep_fill (hs : Stops opp stops) (hmk : MakesTrades opp mkTrade)
    (h : SweepRep opp inc w q free (e :: P) index) (hq : q ≠ 0)
    (hlt : ¬ opp.rank e.price < opp.rank inc.price) (hself : e.participantId ≠ inc.participantId)
    {L : List (PriceLevel cap)} {pl : PriceLevel cap} {R : List (PriceLevel cap)}
    (hlev : w.levels = L ++ pl :: R) (hnum : w.numLevels = L.length + 1)
    (hprice : pl.price = e.price) (hhead : pl.head = some e.slot) {f : UInt32}
    (hf : stdMin q e.quantity = f) :
    matchStep build onTrade stops mkTrade inc.slot inc.price w = (do
      let orders := fillOrders w.pool.orders inc e q f
      let pl := { pl with totalQuantity := pl.totalQuantity - f }
      let (pl, pool, orderIndex) ←
        if e.quantity - f = 0 then do
          let (pl, orders) := pl.remove orders e.slot
          let orderIndex := w.orderIndex.erase (orders e.slot).orderId
          let pool ← OrderPool.deallocate build { w.pool with orders := orders } e.slot
          pure (pl, pool, orderIndex)
        else
          pure (pl, { w.pool with orders := orders }, w.orderIndex)
      pure (true, ⟨L ++ pl :: R, if pl.head.isNone then L.length else L.length + 1, pool,
        orderIndex, onTrade (tradeOf opp inc.orderId e.orderId e.price f) w.st⟩)) := by
  have hr := h.reads
  have hgo : stops inc.price pl.price = false := not_stops hs (by rwa [hprice])
  have hpos : 0 < q := UInt32.pos_iff_ne_zero.mpr hq
  have hpid : ¬ (w.pool.orders e.slot).participantId = (w.pool.orders inc.slot).participantId := by
    rw [hr.headParticipantId, hr.participantId]; exact hself
  have hhq : ((w.pool.orders.setQuantity inc.slot (q - f)) e.slot).quantity = e.quantity := by
    rw [Orders.setQuantity_of_ne _ _ _ _ hr.distinct, hr.headQuantity]
  have hid : (fillOrders w.pool.orders inc e q f inc.slot).orderId = inc.orderId :=
    congrArg Order.orderId (h.fillOrders_incoming f)
  have hide : (fillOrders w.pool.orders inc e q f e.slot).orderId = e.orderId := by
    rw [fillOrders, Orders.setQuantity_self, Orders.setQuantity_of_ne _ _ _ _ hr.distinct]
    exact hr.headOrderId
  have hqe : (fillOrders w.pool.orders inc e q f e.slot).quantity = e.quantity - f := by
    rw [fillOrders, Orders.setQuantity_self]
  have hget : w.levels[w.numLevels - 1]? = some pl := by simp [hlev, hnum]
  have hset : ∀ x, w.levels.set (w.numLevels - 1) x = L ++ x :: R := by
    intro x
    simp [hlev, hnum]
  have henter : 0 < q ∧ 0 < w.numLevels := ⟨hpos, by omega⟩
  have hfold : (w.pool.orders.setQuantity inc.slot (q - f)).setQuantity e.slot (e.quantity - f) =
      fillOrders w.pool.orders inc e q f := rfl
  have htrade : mkTrade (fillOrders w.pool.orders inc e q f inc.slot)
      (fillOrders w.pool.orders inc e q f e.slot) pl.price f =
      tradeOf opp inc.orderId e.orderId e.price f := by rw [hmk, hid, hide, hprice]
  simp only [matchStep, hr.quantity, hget, henter, and_self, not_true_eq_false, if_false, hgo,
    Bool.false_eq_true, hhead, hpid, hr.headQuantity, hf, hhq, hfold, hqe, hset, htrade]
  simp only [hnum, Nat.add_sub_cancel]

/-- The level's queue after the two quantity writes. -/
theorem SweepRep.fillLevel {qs P' : List (Resting cap)}
    (h : SweepRep opp inc w q free (e :: (qs ++ P')) index) {pl : PriceLevel cap}
    (hpl : LevelRep w.pool.orders opp pl (e :: qs)) (f : UInt32) :
    LevelQueue (fillOrders w.pool.orders inc e q f) opp
      { pl with totalQuantity := pl.totalQuantity - f }
      ({ e with quantity := e.quantity - f } :: qs) := by
  have hnd := (List.nodup_append.mp (List.nodup_cons.mp h.nodup).2).2.1
  have hnd' : ((e :: qs).map Resting.slot).Nodup := by
    rw [← List.cons_append, List.map_append] at hnd
    exact (List.nodup_append.mp hnd).1
  refine LevelQueue.fillHead (hpl.toLevelQueue.frame fun x hx => ?_) hnd' f
  apply Orders.setQuantity_of_ne
  intro hs
  refine (List.nodup_cons.mp h.nodup).1 (List.mem_append_right _ ?_)
  rw [← hs]
  exact List.mem_map_of_mem (by rw [← List.cons_append]; exact List.mem_append_left _ hx)

/-- The worse levels do not see the writes of a fill. -/
theorem SweepRep.frame_rest {qs P' : List (Resting cap)}
    (h : SweepRep opp inc w q free (e :: (qs ++ P')) index) {L : List (PriceLevel cap)}
    (hL : LevelsRep w.pool.orders opp L P') {orders : Orders cap}
    (hframe : ∀ a, a ≠ inc.slot → a ∉ (e :: qs).map Resting.slot → orders a = w.pool.orders a) :
    LevelsRep orders opp L P' := by
  obtain ⟨hi, hnd⟩ := List.nodup_cons.mp h.nodup
  have hnd := (List.nodup_append.mp hnd).2.1
  rw [← List.cons_append, List.map_append] at hnd
  refine hL.frame fun x hx => hframe _ ?_ ?_
  · intro hs
    refine hi (List.mem_append_right _ ?_)
    rw [← hs, ← List.cons_append]
    exact List.mem_map_of_mem (List.mem_append_right _ hx)
  · intro hm
    exact (List.nodup_append.mp hnd).2.2 _ hm _ (List.mem_map_of_mem hx) rfl

theorem take_concat {α : Type*} (L R : List α) (x : α) :
    (L ++ x :: R).take (L.length + 1) = L ++ [x] := by
  rw [List.take_append, List.take_of_length_le (by omega)]
  simp

/-- A fill that leaves the resting order open exhausts the incoming one. -/
theorem matchStep_partial (hs : Stops opp stops) (hmk : MakesTrades opp mkTrade)
    (h : SweepRep opp inc w q free (e :: P) index) (hq : q ≠ 0)
    (hlt : ¬ opp.rank e.price < opp.rank inc.price) (hself : e.participantId ≠ inc.participantId)
    (hqe : q < e.quantity) :
    ∃ w', matchStep build onTrade stops mkTrade inc.slot inc.price w = .ok (true, w') ∧
      w'.st = onTrade (tradeOf opp inc.orderId e.orderId e.price q) w.st ∧
      SweepRep opp inc w' 0 free ({ e with quantity := e.quantity - q } :: P) index ∧
      ∀ a, a ≠ inc.slot → a ∉ (e :: P).map Resting.slot → w'.pool.orders a = w.pool.orders a := by
  obtain ⟨L, pl, R, qs, P', hlev, hnum, rfl, hpl, hL, hlt', hprice, hhead⟩ := h.last
  have hstep := matchStep_fill build onTrade hs hmk h hq hlt hself hlev hnum
    hprice hhead (stdMin_of_lt hqe)
  have hne : e.quantity - q ≠ 0 := by grind
  have hpl' := h.fillLevel hpl q
  have hL' : LevelsRep (fillOrders w.pool.orders inc e q q) opp L P' :=
    h.frame_rest hL fun a hi ha => fillOrders_of_ne hi fun he => ha (by simp [he])
  have hinc := h.fillOrders_incoming q
  rw [UInt32.sub_self] at hinc
  simp only [hne, if_false, pure, Except.pure, ok_bind, hhead, Option.isNone_some,
    Bool.false_eq_true] at hstep
  refine ⟨_, hstep, rfl, ⟨?_, ?_, by simp, hinc, h.index, h.nodup⟩, ?_⟩
  · refine h.pool.frame fun a _ => ?_
    simp [fillOrders]
  · have hcat := hL'.concat ⟨hpl', by simp⟩ hlt'
    simpa [take_concat, hhead] using hcat
  · intro a hi ha
    exact fillOrders_of_ne hi fun he => ha (by simp [he])

/-- A fill of the whole resting order takes it off the queue, the index and the pool. -/
theorem matchStep_full (hs : Stops opp stops) (hmk : MakesTrades opp mkTrade)
    (h : SweepRep opp inc w q free (e :: P) index) (hq : q ≠ 0)
    (hlt : ¬ opp.rank e.price < opp.rank inc.price) (hself : e.participantId ≠ inc.participantId)
    (hqe : ¬ q < e.quantity) :
    ∃ w', matchStep build onTrade stops mkTrade inc.slot inc.price w = .ok (true, w') ∧
      w'.st = onTrade (tradeOf opp inc.orderId e.orderId e.price e.quantity) w.st ∧
      SweepRep opp inc w' (q - e.quantity) (e.slot :: free) P (index.erase e.orderId) ∧
      ∀ a, a ≠ inc.slot → a ∉ (e :: P).map Resting.slot → w'.pool.orders a = w.pool.orders a := by
  obtain ⟨L, pl, R, qs, P', hlev, hnum, rfl, hpl, hL, hlt', hprice, hhead⟩ := h.last
  have hstep := matchStep_fill build onTrade hs hmk h hq hlt hself hlev hnum
    hprice hhead (stdMin_of_not_lt hqe)
  obtain ⟨hi, hnd⟩ := List.nodup_cons.mp h.nodup
  obtain ⟨hndf, hndP, hdisj⟩ := List.nodup_append.mp hnd
  have hndq : ((e :: qs).map Resting.slot).Nodup := by
    rw [← List.cons_append, List.map_append] at hndP
    exact (List.nodup_append.mp hndP).1
  have hfree : e.slot ∉ free := fun hm => hdisj _ hm _ (by simp) rfl
  -- the three writes: quantities, links, free list
  have hpl' := h.fillLevel hpl e.quantity
  obtain ⟨hrem, hprice', hdata, hframe⟩ := LevelQueue.remove (l := []) hpl' hndq
  have hframe₁ : ∀ a, a ≠ inc.slot → a ≠ e.slot →
      fillOrders w.pool.orders inc e q e.quantity a = w.pool.orders a := fun _ => fillOrders_of_ne
  have hinc₁ := h.fillOrders_incoming e.quantity
  have hid₁ : (fillOrders w.pool.orders inc e q e.quantity e.slot).orderId = e.orderId := by
    rw [fillOrders, Orders.setQuantity_self, Orders.setQuantity_of_ne _ _ _ _ h.reads.distinct]
    exact h.reads.headOrderId
  simp only [UInt32.sub_self, if_true] at hstep
  simp only [List.nil_append] at hrem hframe hprice'
  generalize fillOrders w.pool.orders inc e q e.quantity = orders₁ at *
  generalize ({ pl with totalQuantity := pl.totalQuantity - e.quantity } : PriceLevel cap) =
    pl₁ at *
  generalize pl₁.remove orders₁ e.slot = res at *
  obtain ⟨pl₂, orders₂⟩ := res
  simp only at hrem hprice' hdata hframe
  have hout : ∀ a, a ≠ inc.slot → a ∉ (e :: qs).map Resting.slot →
      orders₂ a = w.pool.orders a := fun a hai ha =>
    (hframe a ha).trans (hframe₁ a hai fun he => ha (by simp [he]))
  have hpool : OrderPool.Rep { w.pool with orders := orders₂ } free := by
    refine h.pool.frame fun a ha => ?_
    have hai : a ≠ inc.slot := fun he => hi (List.mem_append_left _ (he ▸ ha))
    have hae : a ∉ (e :: qs).map Resting.slot := fun hm => by
      refine hdisj a ha a ?_ rfl
      rw [← List.cons_append, List.map_append]
      exact List.mem_append_left _ hm
    simp [Orders.links, hout a hai hae]
  obtain ⟨pool₃, hdealloc, hrep, horders₃⟩ := OrderPool.deallocate_spec build hpool hfree
  have hout₃ : ∀ a, a ≠ e.slot → pool₃.orders a = orders₂ a := fun a ha => by
    simp [horders₃, Orders.setNext, ha]
  have hid₂ : (orders₂ e.slot).orderId = e.orderId := by
    have := congrArg Order.orderId (hdata e.slot)
    exact this.trans hid₁
  simp only [hdealloc, pure, Except.pure, ok_bind, hid₂] at hstep
  have hL' : LevelsRep pool₃.orders opp L P' := h.frame_rest hL fun a hai ha => by
    rw [hout₃ a fun he => ha (by simp [he]), hout a hai ha]
  have hqs : ∀ x ∈ qs, x.slot ≠ e.slot := fun x hx he =>
    (List.nodup_cons.mp hndq).1 (he ▸ List.mem_map_of_mem hx)
  have hpl₃ : LevelQueue pool₃.orders opp pl₂ qs := hrem.frame fun x hx => hout₃ _ (hqs x hx)
  refine ⟨_, hstep, rfl, ⟨hrep, ?_, ?_, ?_, by rw [h.index], ?_⟩, ?_⟩
  · -- the emptied level is left out of the live prefix
    by_cases hempty : qs = []
    · have hnone : pl₂.head.isNone = true := hpl₃.isEmpty_iff.mpr hempty
      simpa [hnone, hempty] using hL'
    · have hsome : ¬ pl₂.head.isNone = true := fun hc => hempty (hpl₃.isEmpty_iff.mp hc)
      have hcat := hL'.concat ⟨hpl₃, hempty⟩ (by rw [hprice']; exact hlt')
      simpa only [hsome, Bool.false_eq_true, if_false, take_concat] using hcat
  · simp only [List.length_append, List.length_cons]
    split <;> omega
  · rw [hout₃ _ h.reads.distinct.symm, hdata, hinc₁]
  · have hperm : (inc.slot :: (e.slot :: free ++ (qs ++ P').map Resting.slot)).Perm
        (inc.slot :: (free ++ (e :: (qs ++ P')).map Resting.slot)) :=
      List.Perm.cons _ List.perm_middle.symm
    exact hperm.nodup_iff.mpr h.nodup
  · intro a hai ha
    rw [← List.cons_append, List.map_append, List.mem_append, not_or] at ha
    rw [hout₃ a fun he => ha.1 (by simp [he]), hout a hai ha.1]

/-- The match loop is the sweep, and its fuel is enough. -/
theorem matchLoop_spec (hs : Stops opp stops) (hmk : MakesTrades opp mkTrade)
    (h : SweepRep opp inc w q free P index) {fuel : Nat} (hfuel : P.length + 1 ≤ fuel) :
    ∃ w', matchLoop build onTrade stops mkTrade inc.slot inc.price fuel w = .ok w' ∧
      w'.st = (sweep opp inc q P).trades.foldl (fun st t => onTrade t st) w.st ∧
      SweepRep opp inc w' (sweep opp inc q P).left
        (((sweep opp inc q P).filled.map Resting.slot).reverse ++ free) (sweep opp inc q P).queue
        (PriorityBook.eraseIds index (sweep opp inc q P).filled) ∧
      ∀ a, a ≠ inc.slot → a ∉ P.map Resting.slot → w'.pool.orders a = w.pool.orders a := by
  induction P generalizing w q free index fuel with
  | nil =>
    obtain ⟨fuel, rfl⟩ : ∃ k, fuel = k + 1 := ⟨fuel - 1, by omega⟩
    refine ⟨w, ?_, rfl, h, fun _ _ _ => rfl⟩
    simp [matchLoop, matchStep_nil build onTrade stops mkTrade h, pure, Except.pure]
  | cons e P ih =>
    obtain ⟨fuel, rfl⟩ : ∃ k, fuel = k + 1 := ⟨fuel - 1, by omega⟩
    by_cases hq : q = 0
    · subst hq
      refine ⟨w, ?_, ?_, ?_, fun _ _ _ => rfl⟩
      · simp [matchLoop, matchStep_done build onTrade stops mkTrade h, pure, Except.pure]
      · simp [sweep]
      · simpa [sweep, PriorityBook.eraseIds] using h
    by_cases hlt : opp.rank e.price < opp.rank inc.price
    · refine ⟨w, ?_, ?_, ?_, fun _ _ _ => rfl⟩
      · simp [matchLoop, matchStep_stop build onTrade mkTrade hs h hlt, pure, Except.pure]
      · simp [sweep, hlt]
      · simpa [sweep, hlt, PriorityBook.eraseIds] using h
    by_cases hself : e.participantId = inc.participantId
    · obtain ⟨w', hstep, hst, hrep, hframe⟩ := matchStep_self build onTrade
        mkTrade hs h hq hlt hself
      refine ⟨w', by simp [matchLoop, hstep, pure, Except.pure], ?_, ?_,
        fun a ha _ => hframe a ha⟩
      · simp [sweep, hq, hlt, hself, hst]
      · simpa [sweep, hq, hlt, hself, PriorityBook.eraseIds] using hrep
    by_cases hqe : q < e.quantity
    · obtain ⟨w', hstep, hst, hrep, hframe⟩ := matchStep_partial build onTrade
        hs hmk h hq hlt hself hqe
      obtain ⟨fuel, rfl⟩ : ∃ k, fuel = k + 1 := ⟨fuel - 1, by simp at hfuel; omega⟩
      refine ⟨w', ?_, ?_, ?_, hframe⟩
      · simp [matchLoop, hstep, matchStep_done build onTrade stops mkTrade hrep, pure, Except.pure]
      · simp [sweep, hq, hlt, hself, hqe, hst]
      · simpa [sweep, hq, hlt, hself, hqe, PriorityBook.eraseIds] using hrep
    · obtain ⟨w', hstep, hst, hrep, hframe⟩ := matchStep_full build onTrade
        hs hmk h hq hlt hself hqe
      obtain ⟨w'', hloop, hst', hrep', hframe'⟩ := @ih _ _ _ _ hrep fuel (by simp at hfuel; omega)
      refine ⟨w'', ?_, ?_, ?_, ?_⟩
      · simp [matchLoop, hstep, hloop]
      · simp [sweep, hq, hlt, hself, hqe, hst, hst']
      · simpa [sweep, hq, hlt, hself, hqe, PriorityBook.eraseIds] using hrep'
      · intro a hai ha
        have haP : a ∉ P.map Resting.slot := fun hm => ha (by simp at hm ⊢; tauto)
        rw [hframe' a hai haP, hframe a hai ha]

end Loop

/-! ## One call -/

/-- The pointer book represents the priority book. -/
structure OrderBook.Rep (b : OrderBook cap) (a : PriorityBook cap) : Prop where
  pool : b.pool.Rep a.free
  levels : ∀ s, LevelsRep b.pool.orders s (b.levels s) (a.queue s)
  index : b.orderIndex = a.index
  sequence : b.sequence = a.sequence

/-- The state between allocation and the end of `addLimitOrder`: the incoming order, with `q`
open, sits in a slot of its own. -/
structure MidRep (b : OrderBook cap) (side : Side) (inc : Resting cap) (q : UInt32)
    (free : List (Fin cap)) (own opp : List (Resting cap)) (index : OrderIndex cap) (seq : UInt64) :
    Prop where
  pool : b.pool.Rep free
  ownRep : LevelsRep b.pool.orders side (b.levels side) own
  oppRep : LevelsRep b.pool.orders side.opposite (b.levels side.opposite) opp
  incoming : (b.pool.orders inc.slot).unlinked = { inc with quantity := q }.order side
  index : b.orderIndex = index
  sequence : b.sequence = seq
  nodup : (inc.slot :: (free ++ opp.map Resting.slot ++ own.map Resting.slot)).Nodup

/-- A sweep that does not cross changes nothing. -/
theorem sweep_of_worse {opp : Side} {inc e : Resting cap} {P : List (Resting cap)} {q : UInt32}
    (h : opp.rank e.price < opp.rank inc.price) :
    sweep opp inc q (e :: P) = ⟨[], q, e :: P, []⟩ := by
  simp [sweep, h]

section Match

variable (build : Build) (onTrade : Trade → σ → σ) {side : Side} {inc : Resting cap} {q : UInt32}
  {free : List (Fin cap)} {own opp : List (Resting cap)} {index : OrderIndex cap} {seq : UInt64}
  {b : OrderBook cap} (st : σ)

theorem MidRep.price (h : MidRep b side inc q free own opp index seq) :
    (b.pool.orders inc.slot).price = inc.price := congrArg Order.price h.incoming

/-- The loop starts on the whole vector of the other side. -/
theorem MidRep.sweepRep (h : MidRep b side inc q free own opp index seq) :
    SweepRep side.opposite inc
      (⟨b.levels side.opposite, (b.levels side.opposite).length, b.pool, b.orderIndex, st⟩ :
        Sweep cap σ) q free opp index := by
  obtain ⟨hi, hnd⟩ := List.nodup_cons.mp h.nodup
  obtain ⟨hnd', -, -⟩ := List.nodup_append.mp hnd
  refine ⟨h.pool, ?_, le_rfl, ?_, h.index, ?_⟩
  · rw [List.take_length]
    exact h.oppRep
  · rw [Side.opposite_opposite]
    exact h.incoming
  · exact List.nodup_cons.mpr ⟨fun hm => hi (List.mem_append_left _ hm), hnd'⟩

/-- The fuel of the loop covers every resting order of the other side. -/
theorem MidRep.fuel (h : MidRep b side inc q free own opp index seq) :
    opp.length + 1 ≤ cap + 1 := by
  obtain ⟨-, hnd⟩ := List.nodup_cons.mp h.nodup
  obtain ⟨hnd', -, -⟩ := List.nodup_append.mp hnd
  have := List.Nodup.length_le_card (List.nodup_append.mp hnd').2.1
  simpa using this

/-- The whole loop, started on a full vector. -/
theorem matchLoop_all {stops : UInt32 → UInt32 → Bool}
    {mkTrade : Order cap → Order cap → UInt32 → UInt32 → Trade}
    (hs : Stops side.opposite stops) (hmk : MakesTrades side.opposite mkTrade)
    (h : MidRep b side inc q free own opp index seq) :
    ∃ w', matchLoop build onTrade stops mkTrade inc.slot (b.pool.orders inc.slot).price (cap + 1)
        ⟨b.levels side.opposite, (b.levels side.opposite).length, b.pool, b.orderIndex, st⟩ =
          .ok w' ∧
      w'.st = (sweep side.opposite inc q opp).trades.foldl (fun st t => onTrade t st) st ∧
      SweepRep side.opposite inc w' (sweep side.opposite inc q opp).left
        (((sweep side.opposite inc q opp).filled.map Resting.slot).reverse ++ free)
        (sweep side.opposite inc q opp).queue
        (PriorityBook.eraseIds index (sweep side.opposite inc q opp).filled) ∧
      LevelsRep w'.pool.orders side (b.levels side) own := by
  obtain ⟨hi, hnd⟩ := List.nodup_cons.mp h.nodup
  obtain ⟨-, -, hdisj⟩ := List.nodup_append.mp hnd
  rw [h.price]
  obtain ⟨w', hloop, hst, hrep', hframe⟩ :=
    matchLoop_spec build onTrade hs hmk (h.sweepRep st) h.fuel
  refine ⟨w', hloop, hst, hrep', h.ownRep.frame fun x hx => hframe _ ?_ ?_⟩
  · intro he
    exact hi (List.mem_append_right _ (he ▸ List.mem_map_of_mem hx))
  · intro hm
    exact hdisj _ (List.mem_append_right _ hm) _ (List.mem_map_of_mem hx) rfl

theorem stops_sell : Stops .sell fun incomingPrice price => incomingPrice < price := by
  intro p q
  exact before_sell q p

theorem stops_buy : Stops .buy fun incomingPrice price => incomingPrice > price := by
  intro p q
  exact before_buy q p

/-- The loop's final state, put back into the book. -/
theorem MidRep.of_sweep (h : MidRep b side inc q free own opp index seq) {w : Sweep cap σ}
    (hw : SweepRep side.opposite inc w (sweep side.opposite inc q opp).left
      (((sweep side.opposite inc q opp).filled.map Resting.slot).reverse ++ free)
      (sweep side.opposite inc q opp).queue
      (PriorityBook.eraseIds index (sweep side.opposite inc q opp).filled))
    {b' : OrderBook cap} (hown : LevelsRep b'.pool.orders side (b'.levels side) own)
    (hpool : b'.pool = w.pool) (hlevels : b'.levels side.opposite = w.levels.take w.numLevels)
    (hindex : b'.orderIndex = w.orderIndex) (hseq : b'.sequence = b.sequence) :
    MidRep b' side inc (sweep side.opposite inc q opp).left
      (((sweep side.opposite inc q opp).filled.map Resting.slot).reverse ++ free) own
      (sweep side.opposite inc q opp).queue
      (PriorityBook.eraseIds index (sweep side.opposite inc q opp).filled) seq := by
  refine ⟨by rw [hpool]; exact hw.pool, hown, by rw [hpool, hlevels]; exact hw.levels, ?_,
    hindex.trans hw.index, hseq.trans h.sequence, ?_⟩
  · have := hw.incoming
    rw [Side.opposite_opposite] at this
    rw [hpool]; exact this
  · have hslots := sweep_slots side.opposite inc q opp
    rw [List.map_append] at hslots
    have hnd := h.nodup
    rw [← hslots] at hnd
    refine (List.Perm.nodup_iff ?_).mpr hnd
    refine List.Perm.cons _ (List.Perm.append_right _ ?_)
    rw [← List.append_assoc]
    refine List.Perm.append_right _ ?_
    exact List.perm_append_comm.trans (List.Perm.append_left _ (List.reverse_perm _))

/-- Matching an incoming order is the sweep of the opposite side. -/
theorem matchIncoming_spec (h : MidRep b side inc q free own opp index seq) :
    ∃ b', b.matchIncoming build onTrade side inc.price st inc.slot =
        .ok ((sweep side.opposite inc q opp).trades.foldl (fun st t => onTrade t st) st, b') ∧
      MidRep b' side inc (sweep side.opposite inc q opp).left
        (((sweep side.opposite inc q opp).filled.map Resting.slot).reverse ++ free) own
        (sweep side.opposite inc q opp).queue
        (PriorityBook.eraseIds index (sweep side.opposite inc q opp).filled) seq := by
  cases opp with
  | nil =>
    have hnil : b.levels side.opposite = [] := h.oppRep.eq_nil_iff.mpr rfl
    refine ⟨b, ?_, by simpa [sweep, PriorityBook.eraseIds] using h⟩
    cases side <;> simp only [Side.opposite, OrderBook.levels] at hnil <;>
      simp [OrderBook.matchIncoming, OrderBook.bestAsk, OrderBook.bestBid, hnil, sweep]
  | cons e P =>
    obtain ⟨L, pl, qs, P', hL, -, hpl, -, -⟩ := h.oppRep.last
    have hprice : pl.price = e.price := (hpl.price e List.mem_cons_self).symm
    by_cases hlt : side.opposite.rank e.price < side.opposite.rank inc.price
    · refine ⟨b, ?_, by simpa [sweep_of_worse hlt, PriorityBook.eraseIds] using h⟩
      rw [sweep_of_worse hlt, ← hprice] at *
      cases side with
      | buy =>
        simp only [Side.opposite, OrderBook.levels] at hL hlt
        have hlt := (stops_sell _ _).mpr hlt
        simp [OrderBook.matchIncoming, OrderBook.bestAsk, hL,
          UInt32.not_le.mpr (by simpa using hlt)]
      | sell =>
        simp only [Side.opposite, OrderBook.levels] at hL hlt
        have hlt := (stops_buy _ _).mpr hlt
        simp [OrderBook.matchIncoming, OrderBook.bestBid, hL,
          UInt32.not_le.mpr (by simpa using hlt)]
    · cases side with
      | buy =>
        have hs : Stops (Side.opposite .buy) fun limit price => limit < price := stops_sell
        have hmk : MakesTrades (Side.opposite .buy) fun (inc res : Order cap) price qty =>
          ⟨inc.orderId, res.orderId, price, qty⟩ := fun _ _ _ _ => rfl
        obtain ⟨w, hloop, hst, hrep, hown⟩ := matchLoop_all build onTrade st hs hmk h
        have hge : pl.price ≤ inc.price := by
          rw [hprice]
          refine UInt32.not_lt.mp fun hc => hlt ((stops_sell _ _).mp ?_)
          simpa using hc
        refine ⟨{ b with asks := w.levels.take w.numLevels, pool := w.pool,
                         orderIndex := w.orderIndex }, ?_, h.of_sweep hrep hown rfl rfl rfl rfl⟩
        simp only [Side.opposite, OrderBook.levels] at hL hloop hst ⊢
        have hne : b.asks.isEmpty = false := by rw [hL]; simp
        have hbest : b.bestAsk = some pl := by simp [OrderBook.bestAsk, hL]
        simp only [OrderBook.matchIncoming, hbest, Option.any_some, ge_iff_le, hge, decide_true,
          if_true, OrderBook.matchBuy, hne, Bool.false_eq_true, if_false, hloop, ok_bind, ← hst]
        rfl
      | sell =>
        have hs : Stops (Side.opposite .sell) fun limit price => limit > price := stops_buy
        have hmk : MakesTrades (Side.opposite .sell) fun (inc res : Order cap) price qty =>
          ⟨res.orderId, inc.orderId, price, qty⟩ := fun _ _ _ _ => rfl
        obtain ⟨w, hloop, hst, hrep, hown⟩ := matchLoop_all build onTrade st hs hmk h
        have hge : inc.price ≤ pl.price := by
          rw [hprice]
          refine UInt32.not_lt.mp fun hc => hlt ((stops_buy _ _).mp ?_)
          simpa using hc
        refine ⟨{ b with bids := w.levels.take w.numLevels, pool := w.pool,
                         orderIndex := w.orderIndex }, ?_, h.of_sweep hrep hown rfl rfl rfl rfl⟩
        simp only [Side.opposite, OrderBook.levels] at hL hloop hst ⊢
        have hne : b.bids.isEmpty = false := by rw [hL]; simp
        have hbest : b.bestBid = some pl := by simp [OrderBook.bestBid, hL]
        simp only [OrderBook.matchIncoming, hbest, Option.any_some, hge, decide_true,
          if_true, OrderBook.matchSell, hne, Bool.false_eq_true, if_false, hloop, ok_bind, ← hst]
        rfl

end Match

section Calls

variable (build : Build) {side : Side} {inc : Resting cap} {q : UInt32}
  {b : OrderBook cap} {a : PriorityBook cap}

/-- The book between matching and resting. -/
abbrev OrderBook.Mid (b : OrderBook cap) (a : PriorityBook cap) (side : Side) (inc : Resting cap)
    (q : UInt32) : Prop :=
  MidRep b side inc q a.free (a.queue side) (a.queue side.opposite) a.index a.sequence

/-- The book with one side's vector, the pool and the index replaced. -/
def OrderBook.replace (b : OrderBook cap) (side : Side) (L : List (PriceLevel cap))
    (pool : OrderPool cap) (orderIndex : OrderIndex cap) : OrderBook cap :=
  match side with
  | .buy => { b with bids := L, pool := pool, orderIndex := orderIndex }
  | .sell => { b with asks := L, pool := pool, orderIndex := orderIndex }

section Replace

variable (b : OrderBook cap) (side : Side) (L : List (PriceLevel cap)) (pool : OrderPool cap)
  (m : OrderIndex cap)

@[simp] theorem replace_levels : (b.replace side L pool m).levels side = L := by cases side <;> rfl

@[simp] theorem replace_levels_opposite :
    (b.replace side L pool m).levels side.opposite = b.levels side.opposite := by
  cases side <;> rfl

@[simp] theorem replace_pool : (b.replace side L pool m).pool = pool := by cases side <;> rfl

@[simp] theorem replace_orderIndex : (b.replace side L pool m).orderIndex = m := by
  cases side <;> rfl

@[simp] theorem replace_sequence : (b.replace side L pool m).sequence = b.sequence := by
  cases side <;> rfl

end Replace

/-- The comparison one side's vector is searched with. -/
def Side.before : Side → UInt32 → UInt32 → Bool
  | .buy => fun p q => p < q
  | .sell => fun p q => p > q

theorem Side.before_spec (side : Side) : Before side side.before := by
  cases side with
  | buy => exact before_buy
  | sell => exact before_sell

/-- Both branches of `restIncoming` do the same to their own vector. -/
theorem restIncoming_eq (side : Side) (price : UInt32) (id : UInt64) (b : OrderBook cap)
    (order : Fin cap) : b.restIncoming build side price id order = (do
      let (it, L) ← findOrCreateLevel side.before side.levelsExceeded build (b.levels side) price
      let (L, pool) ← OrderBook.addAt L it b.pool order
      pure (b.replace side L pool
        (if id ∈ b.orderIndex then b.orderIndex else b.orderIndex.insert id order))) := by
  cases side <;>
    simp only [OrderBook.restIncoming, OrderBook.findOrCreateBidLevel,
      OrderBook.findOrCreateAskLevel, OrderBook.levels, bind_assoc, pure_bind] <;> rfl

/-- Both branches of `cancelOrder` do the same to their own vector. -/
theorem cancelOrder_eq (orderId : UInt64) (b : OrderBook cap) {o : Fin cap} {side : Side}
    (ho : b.orderIndex.lookup orderId = some o) (hside : (b.pool.orders o).side = side) :
    b.cancelOrder build orderId = (do
      assertThat build (0 < (b.pool.orders o).quantity) .cancelQuantity
      let (L, pool) ← OrderBook.removeAt build (b.levels side)
        (lowerBound side.before (b.levels side) (b.pool.orders o).price) b.pool o
      let pool ← pool.deallocate build o
      pure (b.replace side L pool (b.orderIndex.erase orderId))) := by
  subst hside
  simp only [OrderBook.cancelOrder, ho]
  cases (b.pool.orders o).side <;>
    simp only [OrderBook.findBidLevel, OrderBook.findAskLevel, OrderBook.levels, pure_bind] <;> rfl

/-- Resting the remainder inserts it behind its equals, or fails on the level assertion. -/
theorem restIncoming_sim (h : b.Mid a side inc q) :
    Sim OrderBook.Rep (b.restIncoming build side inc.price inc.orderId inc.slot)
      (do levelCheck build side inc.price (a.queue side)
          pure (a.rest side { inc with quantity := q })) := by
  obtain ⟨hi, hnd⟩ := List.nodup_cons.mp h.nodup
  obtain ⟨hnd', hndown, hdisj⟩ := List.nodup_append.mp hnd
  have hfresh : inc.slot ∉ (a.queue side).map Resting.slot :=
    fun hm => hi (List.mem_append_right _ hm)
  rw [restIncoming_eq]
  cases hc : levelCheck build side inc.price (a.queue side) with
  | error f =>
    have hp : inc.price ∉ (a.queue side).map Resting.price := by
      intro hp
      simp [levelCheck, hp, pure, Except.pure] at hc
    simp only [levelCheck, hp, if_false] at hc
    rw [findOrCreateLevel_full h.ownRep hp hc]
    exact rfl
  | ok u =>
    have hok : inc.price ∈ (a.queue side).map Resting.price ∨
        assertThat build (levelCount (a.queue side) < kDefaultMaxPriceLevels)
          side.levelsExceeded = .ok () := by
      by_cases hp : inc.price ∈ (a.queue side).map Resting.price
      · exact Or.inl hp
      · simp only [levelCheck, hp, if_false] at hc
        exact Or.inr hc
    obtain ⟨A, pl, B, PA, Q, PB, hfind, hP, ho⟩ := findOrCreateLevel_spec side.before_spec
      h.ownRep side.levelsExceeded build inc.price hok
    rw [hP] at hndown hfresh
    obtain ⟨L', orders', hadd, hrep, hframe⟩ := addAt_spec (e := { inc with quantity := q }) ho
      h.incoming hndown hfresh
    rw [← hP] at hrep hframe
    rw [hfind]
    simp only [ok_bind, hadd]
    have hout : ∀ x ∈ a.free ++ (a.queue side.opposite).map Resting.slot,
        orders' x = b.pool.orders x := fun x hx =>
      hframe x (fun e => hi (e ▸ List.mem_append_left _ hx)) fun hm => hdisj x hx x hm rfl
    refine ⟨?_, ?_, by simp [PriorityBook.rest, h.index],
      by simpa [PriorityBook.rest] using h.sequence⟩
    · rw [replace_pool]
      refine h.pool.frame fun x hx => ?_
      simp [Orders.links, hout x (List.mem_append_left _ hx)]
    · rw [replace_pool]
      refine forall_side side ?_ ?_
      · simpa [PriorityBook.rest] using hrep
      · have : LevelsRep orders' side.opposite (b.levels side.opposite) (a.queue side.opposite) :=
          h.oppRep.frame fun e he =>
            hout e.slot (List.mem_append_right _ (List.mem_map_of_mem he))
        simpa [PriorityBook.rest, side.ne_opposite.symm] using this

/-- The free slots and those of the two sides, in either order. -/
theorem free_slots_perm (a : PriorityBook cap) (side : Side) :
    (a.free ++ a.slots).Perm (a.free ++ (a.queue side.opposite).map Resting.slot ++
      (a.queue side).map Resting.slot) := by
  rw [List.append_assoc]
  exact List.Perm.append_left _ (a.slots_perm side)

/-- The book once the incoming order sits in its slot. -/
theorem mid_of_allocate (side : Side) (price quantity : UInt32) (id participantId : UInt64)
    {s : Fin cap}
    {free : List (Fin cap)} (h : b.Rep a) (hnd : (a.free ++ a.slots).Nodup)
    (hfree : a.free = s :: free) {pool : OrderPool cap} (hpool : pool.Rep free)
    (horders : pool.orders = (b.pool.orders.setNext s none).setPrev s none) :
    MidRep
      { b with
        pool := { pool with
          orders := Function.update pool.orders s
            ((pool.orders s).init id price quantity b.sequence side participantId) }
        sequence := b.sequence + 1 }
      side ⟨s, id, price, quantity, a.sequence, participantId⟩ quantity free (a.queue side)
      (a.queue side.opposite) a.index (a.sequence + 1) := by
  rw [(free_slots_perm a side).nodup_iff, hfree, List.cons_append, List.cons_append] at hnd
  have hs := (List.nodup_cons.mp hnd).1
  have hframe : ∀ x, x ≠ s → Function.update pool.orders s
      ((pool.orders s).init id price quantity b.sequence side participantId) x =
      b.pool.orders x := by
    intro x hx
    simp [hx, horders, Orders.setPrev, Orders.setNext]
  have hqueue : ∀ t, ∀ e ∈ a.queue t, e.slot ≠ s := by
    refine forall_side side ?_ ?_ <;> intro e he hes <;> apply hs <;>
      simp only [List.mem_append]
    · exact Or.inr (List.mem_map.mpr ⟨e, he, hes⟩)
    · exact Or.inl (Or.inr (List.mem_map.mpr ⟨e, he, hes⟩))
  refine ⟨hpool.frame fun x hx => ?_, (h.levels side).frame fun e he => hframe _ (hqueue _ e he),
    (h.levels _).frame fun e he => hframe _ (hqueue _ e he), ?_, h.index, by rw [h.sequence], hnd⟩
  · have hxs : x ≠ s := fun e => hs (by simp [← e, hx])
    simp [Orders.links, hxs]
  · simp [Order.init, Order.unlinked, Resting.order, h.sequence]

/-- `addLimitOrder` is the abstract insertion, its callback called on the trades in order. -/
theorem addLimitOrder_sim (side : Side) (onTrade : Trade → σ → σ) (price quantity : UInt32)
    (id participantId : UInt64) (st : σ) (h : b.Rep a) (hnd : (a.free ++ a.slots).Nodup) :
    Sim (fun x y => x.1 = y.1.foldl (fun st t => onTrade t st) st ∧ x.2.Rep y.2)
      (b.addLimitOrder build onTrade side price quantity id participantId st)
      (a.add build side price quantity id participantId) := by
  have hpool := h.pool
  cases hfree : a.free with
  | nil =>
    rw [hfree] at hpool
    simp only [OrderBook.addLimitOrder, OrderPool.allocate_empty build hpool, PriorityBook.add,
      hfree, error_bind]
    cases build <;> rfl
  | cons s free =>
    rw [hfree] at hpool
    obtain ⟨pool, halloc, hpool', horders⟩ := OrderPool.allocate_spec build hpool
    have hmid := mid_of_allocate side price quantity id participantId h hnd hfree hpool' horders
    obtain ⟨b', hmatch, hmid'⟩ := matchIncoming_spec build onTrade st hmid
    simp only [OrderBook.addLimitOrder, halloc, ok_bind, hmatch, PriorityBook.add, hfree]
    set inc : Resting cap := ⟨s, id, price, quantity, a.sequence, participantId⟩ with hinc
    set r := sweep side.opposite inc quantity (a.queue side.opposite)
    have hleft : (b'.pool.orders s).quantity = r.left := congrArg Order.quantity hmid'.incoming
    have hrep : b'.Mid (a.swept free side.opposite r) side inc r.left := by
      simpa only [OrderBook.Mid, PriorityBook.swept, Function.update_self,
        Function.update_of_ne side.ne_opposite] using hmid'
    rw [hleft]
    by_cases hpos : 0 < r.left
    · rw [if_pos hpos, if_pos hpos]
      have hsim := (restIncoming_sim build hrep).bind
        (S := fun x y => x.1 = y.1.foldl (fun st t => onTrade t st) st ∧ x.2.Rep y.2)
        (f := fun b => pure (r.trades.foldl (fun st t => onTrade t st) st, b))
        (g := fun a => pure (r.trades, a)) (fun _ _ hr => Sim.ok ⟨rfl, hr⟩)
      simpa only [bind_assoc, pure_bind] using hsim
    · rw [if_neg hpos, if_neg hpos]
      have hs : s ∉ (a.swept free side.opposite r).free := fun hm =>
        (List.nodup_cons.mp hrep.nodup).1 (by simp [hinc, hm])
      obtain ⟨pool'', hdealloc, hpool'', horders''⟩ :=
        OrderPool.deallocate_spec build hrep.pool hs
      simp only [hdealloc, ok_bind]
      refine ⟨rfl, hpool'', ?_, hrep.index, hrep.sequence⟩
      have hframe : ∀ t, ∀ e ∈ (a.swept free side.opposite r).queue t,
          pool''.orders e.slot = b'.pool.orders e.slot := by
        intro t e he
        rw [horders'', Orders.setNext, Function.update_of_ne]
        intro hes
        refine (List.nodup_cons.mp hrep.nodup).1 ?_
        rw [show inc.slot = e.slot from hes.symm]
        rcases Side.eq_or_opposite t side with rfl | rfl
        · exact List.mem_append_right _ (List.mem_map_of_mem he)
        · exact List.mem_append_left _ (List.mem_append_right _ (List.mem_map_of_mem he))
      exact forall_side side (hrep.ownRep.frame (hframe _)) (hrep.oppRep.frame (hframe _))

/-- Every entry of the queues is the content of its slot. -/
theorem OrderBook.Rep.holds (h : b.Rep a) {e : Resting cap} (he : e ∈ a.queue side) :
    (b.pool.orders e.slot).unlinked = e.order side := (h.levels side).holds he

theorem filter_slot_of_notMem {P : List (Resting cap)} {s : Fin cap}
    (h : s ∉ P.map Resting.slot) : P.filter (fun x => x.slot ≠ s) = P := by
  rw [List.filter_eq_self]
  intro x hx
  have hne : x.slot ≠ s := fun e => h (e ▸ List.mem_map_of_mem hx)
  simpa using hne

/-- `cancelOrder` takes the indexed order off its queue. -/
theorem cancelOrder_sim (h : b.Rep a) (hwf : a.WF) (id : UInt64) :
    ∃ b', b.cancelOrder build id = .ok b' ∧ b'.Rep (a.cancel id) := by
  cases hlook : a.index.lookup id with
  | none =>
    have hb : b.orderIndex.lookup id = none := by rw [h.index, hlook]
    refine ⟨b, by simp [OrderBook.cancelOrder, hb], ?_⟩
    simpa [PriorityBook.cancel, hlook] using h
  | some s =>
    have hb : b.orderIndex.lookup id = some s := by rw [h.index, hlook]
    obtain ⟨side, e, he, rfl, hid⟩ := hwf.indexed id s hlook
    have hheld := h.holds he
    have hnd := (free_slots_perm a side).nodup_iff.mp
      (hwf.slots.nodup_iff.mpr (List.nodup_finRange cap))
    obtain ⟨hnd', hndown, hdisj⟩ := List.nodup_append.mp hnd
    have hslot : e.slot ∈ (a.queue side).map Resting.slot := List.mem_map_of_mem he
    obtain ⟨L', orders', hremove, hrep, hframe⟩ := removeAt_spec side.before_spec build
      (h.levels side) hndown he
    have hout : ∀ x ∈ a.free ++ (a.queue side.opposite).map Resting.slot,
        orders' x = b.pool.orders x := fun x hx => hframe x fun hm => hdisj x hx x hm rfl
    have hpool : OrderPool.Rep { b.pool with orders := orders' } a.free := by
      refine h.pool.frame fun x hx => ?_
      simp [Orders.links, hout x (List.mem_append_left _ hx)]
    have hfree : e.slot ∉ a.free := fun hm => hdisj _ (List.mem_append_left _ hm) _ hslot rfl
    obtain ⟨pool', hdealloc, hpool', horders'⟩ := OrderPool.deallocate_spec build hpool hfree
    have hside : (b.pool.orders e.slot).side = side := congrArg Order.side hheld
    have hprice : (b.pool.orders e.slot).price = e.price := congrArg Order.price hheld
    have hqty : (b.pool.orders e.slot).quantity = e.quantity := congrArg Order.quantity hheld
    have hpos : 0 < e.quantity := hwf.positive side e he
    have hafter : ∀ x, x ≠ e.slot → pool'.orders x = orders' x := by
      intro x hx
      rw [horders', Orders.setNext, Function.update_of_ne hx]
    have hopp : e.slot ∉ (a.queue side.opposite).map Resting.slot := fun hm =>
      hdisj _ (List.mem_append_right _ hm) _ hslot rfl
    refine ⟨b.replace side L' pool' (b.orderIndex.erase id), ?_, ?_, ?_, ?_, ?_⟩
    · rw [cancelOrder_eq build id b hb hside, hprice, hremove, hqty]
      simp [hpos, hdealloc]
    · simpa [PriorityBook.cancel, hlook] using hpool'
    · rw [replace_pool]
      refine forall_side side ?_ ?_
      · simp only [replace_levels, PriorityBook.cancel, hlook]
        exact hrep.frame fun x hx => hafter _ (by simpa using (List.mem_filter.mp hx).2)
      · simp only [replace_levels_opposite, PriorityBook.cancel, hlook,
          filter_slot_of_notMem hopp]
        refine (h.levels side.opposite).frame fun x hx => ?_
        have hx' := List.mem_map_of_mem (f := Resting.slot) hx
        rw [hafter _ fun hxe => hopp (hxe ▸ hx'), hout _ (List.mem_append_right _ hx')]
    · simp [PriorityBook.cancel, hlook, h.index]
    · simpa [PriorityBook.cancel, hlook] using h.sequence

end Calls

end MarketMakerOps.Engine
