import MarketMakerOps.Exchange.MarketSweep

/-!
The venue's tables and the market's list of orders.

* `afterTrades_record`: the callback marks the records of the orders it completes;
* `reports_sent`: the fills it sends are the market's reports;
* `Tracks M v a`: the venue `v` is the market `M`;
* `Tracks.accept`, `Tracks.cancel`, `Tracks.drop`: each kind of call keeps it.
-/

namespace MarketMakerOps.Exchange

open Decimal Engine Priority Allotment Fallible

variable {cap : Nat}

/-! ## What the callback does to the tables -/

namespace Tables

section Trades

variable {T : Tables} {t : Trade} {b s : LiveOrder} {n : ℕ} {ts : List Trade}

/-- A trade brings no order to life. -/
theorem live_onTrade_none (h : T.Fillable t b s) {id : UInt64} (hid : T.live id = none) :
    (T.onTrade t).live id = none := by
  have hb : id ≠ t.buyOrderId := by
    rintro rfl
    rw [h.buy] at hid
    cases hid
  have hs : id ≠ t.sellOrderId := by
    rintro rfl
    rw [h.sell] at hid
    cases hid
  rw [onTrade_live h, if_neg hb, if_neg hs, hid]

theorem live_afterTrades_none (h : T.Fills ts) {id : UInt64} (hid : T.live id = none) :
    (T.afterTrades ts).live id = none := by
  induction ts generalizing T with
  | nil => exact hid
  | cons t ts ih =>
    obtain ⟨⟨b, s, hf⟩, hts⟩ := h
    exact ih hts (live_onTrade_none hf hid)

/-- The record of an order, given which orders are still live. -/
def marked (live : UInt64 → Option LiveOrder) (r : ClientRecord) : ClientRecord :=
  if r.state = .resting ∧ live r.engineId = none then { r with state := .filled } else r

theorem record_onTrade (hrec : T.Recorded n) (h : T.Fillable t b s) (c : ConnId) (cid : Bytes) :
    (T.onTrade t).record c cid = (T.record c cid).map (marked (T.onTrade t).live) := by
  rw [onTrade_record h]
  cases hr : T.record c cid with
  | none => simp
  | some r =>
    rw [Option.map_some, Option.map_some]
    have hcond : ((b.after t.quantity = none ∧ c = b.owner ∧ cid = b.clientOrderId) ∨
        (s.after t.quantity = none ∧ c = s.owner ∧ cid = s.clientOrderId)) ↔
        r.state = .resting ∧ (T.onTrade t).live r.engineId = none := by
      have hleg : ∀ {id : UInt64} {lo : LiveOrder}, T.live id = some lo → c = lo.owner →
          cid = lo.clientOrderId → r.state = .resting ∧ r.engineId = id := by
        intro id lo hlo hc hcid
        obtain ⟨-, r', hr', hid, hst⟩ := hrec.entry id lo hlo
        rw [← hc, ← hcid, hr, Option.some_inj] at hr'
        exact hr' ▸ ⟨hst, hid⟩
      rw [onTrade_live h]
      constructor
      · rintro (⟨ha, hc, hcid⟩ | ⟨ha, hc, hcid⟩)
        · obtain ⟨hst, hid⟩ := hleg h.buy hc hcid
          exact ⟨hst, by rw [if_pos hid, ha]⟩
        · obtain ⟨hst, hid⟩ := hleg h.sell hc hcid
          exact ⟨hst, by rw [if_neg (hid ▸ h.ids_ne), if_pos hid, ha]⟩
      · rintro ⟨hst, hnone⟩
        obtain ⟨lo, hlo, ho, hcid⟩ := hrec.resting c cid r hr hst
        split at hnone
        · next hid =>
          rw [hid, h.buy, Option.some_inj] at hlo
          exact Or.inl ⟨hnone, hlo ▸ ho.symm, hlo ▸ hcid.symm⟩
        · split at hnone
          · next hid =>
            rw [hid, h.sell, Option.some_inj] at hlo
            exact Or.inr ⟨hnone, hlo ▸ ho.symm, hlo ▸ hcid.symm⟩
          · rw [hlo] at hnone
            cases hnone
    rw [marked]
    split
    · next hc => rw [if_pos (hcond.mp hc)]
    · next hc => rw [if_neg (mt hcond.mpr hc)]

/-- After all trades, the records of the orders that are gone say so. -/
theorem afterTrades_record (hrec : T.Recorded n) (h : T.Fills ts) (c : ConnId) (cid : Bytes) :
    (T.afterTrades ts).record c cid = (T.record c cid).map (marked (T.afterTrades ts).live) := by
  induction ts generalizing T with
  | nil =>
    show T.record c cid = _
    cases hr : T.record c cid with
    | none => rfl
    | some r =>
      have hkeep : ¬ (r.state = .resting ∧ T.live r.engineId = none) := by
        rintro ⟨hst, hnone⟩
        obtain ⟨lo, hlo, -⟩ := hrec.resting c cid r hr hst
        rw [hnone] at hlo
        cases hlo
      rw [Option.map_some]
      exact congrArg some (if_neg hkeep).symm
  | cons t ts ih =>
    obtain ⟨⟨b, s, hf⟩, hts⟩ := h
    refine (ih (hrec.onTrade hf) hts).trans ?_
    rw [record_onTrade hrec hf, Option.map_map]
    refine congrArg (fun f => (T.record c cid).map f) (funext fun r => ?_)
    show marked ((T.onTrade t).afterTrades ts).live (marked (T.onTrade t).live r) =
      marked ((T.onTrade t).afterTrades ts).live r
    by_cases hnone : r.state = .resting ∧ (T.onTrade t).live r.engineId = none
    · have hgone := live_afterTrades_none hts hnone.2
      simp [marked, hnone.1, hnone.2, hgone]
    · rw [marked, marked, if_neg hnone, marked]

/-- The last trade price, in the two fields the venue keeps it in. -/
def LastIs (T : Tables) (l : Option UInt32) : Prop :=
  T.hasLastTrade = l.isSome ∧ T.lastTradeTicks = l.getD 0

theorem routeFill_last (T : Tables) (id : UInt64) (p q : UInt32) :
    (T.routeFill id p q).hasLastTrade = T.hasLastTrade ∧
      (T.routeFill id p q).lastTradeTicks = T.lastTradeTicks := by
  have hmark : ∀ (T : Tables) (c : ConnId) (cid : Bytes) (st : OrderState),
      (T.markRecord c cid st).hasLastTrade = T.hasLastTrade ∧
        (T.markRecord c cid st).lastTradeTicks = T.lastTradeTicks := by
    intro T c cid st
    unfold markRecord
    split
    · exact ⟨rfl, rfl⟩
    · split <;> exact ⟨rfl, rfl⟩
  cases hl : T.byEngineId.lookup id with
  | none =>
    simp only [routeFill, hl]
    exact ⟨trivial, trivial⟩
  | some lo =>
    by_cases h0 : (if lo.remaining > q then lo.remaining - q else 0) = 0
    · simp only [routeFill, hl, h0, if_true]
      exact hmark _ _ _ _
    · simp only [routeFill, hl, h0, if_false]
      exact ⟨rfl, rfl⟩

theorem LastIs.afterTrades {l : Option UInt32} (h : T.LastIs l) (ts : List Trade) :
    (T.afterTrades ts).LastIs ((ts.getLast?.map Trade.price).or l) := by
  induction ts generalizing T l with
  | nil => exact h
  | cons t ts ih =>
    have hone : (T.onTrade t).LastIs (some t.price) := by
      obtain ⟨h₁, h₂⟩ := routeFill_last { T with lastTradeTicks := t.price, hasLastTrade := true }
        t.buyOrderId t.price t.quantity
      obtain ⟨h₃, h₄⟩ := routeFill_last (Tables.routeFill t.buyOrderId t.price t.quantity
        { T with lastTradeTicks := t.price, hasLastTrade := true }) t.sellOrderId t.price t.quantity
      exact ⟨h₃.trans h₁, h₄.trans h₂⟩
    have hrest := ih hone
    cases ts with
    | nil => exact hone
    | cons t' ts =>
      rw [List.getLast?_cons_cons]
      cases hlast : (t' :: ts).getLast? with
      | none => simp at hlast
      | some x =>
        rw [hlast] at hrest
        exact hrest

end Trades

end Tables

/-! ## Reports -/

/-- The table's entry of an order. -/
def MarketOrder.entry (o : MarketOrder) : LiveOrder :=
  ⟨o.owner, o.name, o.exchangeId, o.side, o.price, .ofNat o.remaining⟩

def MarketOrder.id (o : MarketOrder) : UInt64 := .ofNat o.number

theorem MarketOrder.fill_entry {o : MarketOrder} {t : Trade} {n : ℕ} (hn : n ≤ o.remaining)
    (hq : t.quantity = .ofNat n) : o.entry.fill t = o.report t.price n := by
  rw [LiveOrder.fill, MarketOrder.report, hq, UInt32.ofNat_sub hn]
  rfl

theorem MarketOrder.after_entry {o : MarketOrder} {n : ℕ} (hn : n ≤ o.remaining)
    (h : o.entry.after (.ofNat n) ≠ none) : o.entry.after (.ofNat n) = some (o.less n).entry := by
  unfold LiveOrder.after at h ⊢
  split at h
  · exact absurd rfl h
  · have hsub := UInt32.ofNat_sub hn
    rw [if_neg ‹_›]
    simp only [MarketOrder.less, MarketOrder.entry, hsub]
    rfl

/-- The incoming order of a trade is live. -/
theorem live_of_fillable {T : Tables} {side : Side} {id : UInt64} {x : MarketOrder × ℕ}
    {b s : LiveOrder} (h : T.Fillable (tradeWith side id x) b s) : T.live id ≠ none := by
  cases side with
  | buy => exact fun hn => by cases hn.symm.trans h.buy
  | sell => exact fun hn => by cases hn.symm.trans h.sell

/-- The two fills of a trade, and what the trade leaves of the incoming order. -/
theorem report_one {T : Tables} {inc o : MarketOrder} {n : ℕ} {b s : LiveOrder}
    (hinc : T.live inc.id = some inc.entry) (ho : T.live o.id = some o.entry)
    (hni : n ≤ inc.remaining) (hno : n ≤ o.remaining)
    (hf : T.Fillable (tradeWith inc.side inc.id (o, n)) b s) :
    (T.onTrade (tradeWith inc.side inc.id (o, n))).sent =
        T.sent ++ Market.reports inc [(o, n)] ∧
      (T.onTrade (tradeWith inc.side inc.id (o, n))).live inc.id = inc.entry.after (.ofNat n) ∧
      ∀ id, id ≠ inc.id → id ≠ o.id →
        (T.onTrade (tradeWith inc.side inc.id (o, n))).live id = T.live id := by
  rw [Tables.onTrade_sent hf]
  have hlive := Tables.onTrade_live hf
  have hbuy := hf.buy
  have hsell := hf.sell
  have hne := hf.ids_ne
  cases hside : inc.side with
  | buy =>
    rw [hside] at hlive hbuy hsell hne
    have hb : b = inc.entry := Option.some_inj.mp (hbuy.symm.trans hinc)
    have hs : s = o.entry := Option.some_inj.mp (hsell.symm.trans ho)
    subst hb hs
    refine ⟨?_, ?_, fun id h₁ h₂ => ?_⟩
    · rw [MarketOrder.fill_entry hni rfl, MarketOrder.fill_entry hno rfl]
      simp [Market.reports, hside, tradeWith, tradeOf, Side.opposite]
    · rw [hlive]
      exact if_pos rfl
    · rw [hlive]
      exact (if_neg h₁).trans (if_neg h₂)
  | sell =>
    rw [hside] at hlive hbuy hsell hne
    have hb : b = o.entry := Option.some_inj.mp (hbuy.symm.trans ho)
    have hs : s = inc.entry := Option.some_inj.mp (hsell.symm.trans hinc)
    subst hb hs
    refine ⟨?_, ?_, fun id h₁ h₂ => ?_⟩
    · rw [MarketOrder.fill_entry hni rfl, MarketOrder.fill_entry hno rfl]
      simp [Market.reports, hside, tradeWith, tradeOf, Side.opposite]
    · rw [hlive]
      exact (if_neg hne).trans (if_pos rfl)
    · rw [hlive]
      exact (if_neg h₂).trans (if_neg h₁)

/-- The fills the callback sends are the market's reports. -/
theorem reports_sent {T : Tables} (inc : MarketOrder) (xs : List (MarketOrder × ℕ))
    (hinc : xs ≠ [] → T.live inc.id = some inc.entry)
    (hlive : ∀ x ∈ xs, T.live x.1.id = some x.1.entry)
    (hids : (inc.id :: xs.map fun x => x.1.id).Nodup) (hle : ∀ x ∈ xs, x.2 ≤ x.1.remaining)
    (hsum : (xs.map Prod.snd).sum ≤ inc.remaining)
    (hfills : T.Fills (xs.map (tradeWith inc.side inc.id))) :
    (T.afterTrades (xs.map (tradeWith inc.side inc.id))).sent =
      T.sent ++ Market.reports inc xs := by
  induction xs generalizing T inc with
  | nil => exact (List.append_nil _).symm
  | cons x xs ih =>
    obtain ⟨o, n⟩ := x
    obtain ⟨⟨b, s, hf⟩, hrest⟩ := hfills
    rw [List.map_cons, List.sum_cons] at hsum
    have hinc := hinc (List.cons_ne_nil _ _)
    obtain ⟨hinc_ne, hids⟩ := List.nodup_cons.mp hids
    obtain ⟨ho_ne, hids'⟩ := List.nodup_cons.mp hids
    rw [List.map_cons, List.mem_cons, not_or] at hinc_ne
    obtain ⟨hsent, hafter, hother⟩ := report_one hinc (hlive _ List.mem_cons_self)
      ((Nat.le_add_right _ _).trans hsum) (hle _ List.mem_cons_self) hf
    have hrec := ih (inc.less n) (T := T.onTrade (tradeWith inc.side inc.id (o, n)))
      (fun hne => ?_) (fun x hx => ?_) ?_ (fun x hx => hle x (List.mem_cons_of_mem _ hx)) ?_ hrest
    · refine hrec.trans ?_
      rw [hsent, List.append_assoc]
      simp [Market.reports]
    · -- the next trade finds the incoming order live
      obtain ⟨y, ys, rfl⟩ := List.exists_cons_of_ne_nil hne
      obtain ⟨⟨b', s', hf'⟩, -⟩ := hrest
      refine hafter.trans (MarketOrder.after_entry ((Nat.le_add_right _ _).trans hsum) ?_)
      rw [← hafter]
      exact live_of_fillable hf'
    · have hx' := List.mem_map_of_mem (f := fun x : MarketOrder × ℕ => x.1.id) hx
      have hone : o.id ∉ xs.map fun x => x.1.id := ho_ne
      rw [hother _ (fun h => hinc_ne.2 (h ▸ hx')) (fun h : x.1.id = o.id => hone (h ▸ hx'))]
      exact hlive x (List.mem_cons_of_mem _ hx)
    · exact List.nodup_cons.mpr ⟨hinc_ne.2, hids'⟩
    · show _ ≤ inc.remaining - n
      omega

/-! ## Venue and market -/

/-- A connection's record of an order. -/
def MarketOrder.record (o : MarketOrder) : ClientRecord := ⟨o.state, o.exchangeId, o.id⟩

/-- How a connection calls an order. -/
def MarketOrder.call (o : MarketOrder) : ConnId × Bytes := (o.owner, o.name)

/-- No two orders of a connection have one name. -/
def Market.Named (M : Market) : Prop := (M.orders.map MarketOrder.call).Nodup

/-- The venue is the market. -/
structure Tracks (M : Market) (v : Venue cap) (a : PriorityBook cap) : Prop where
  synced : Synced M.accepted v a
  queued : Queued M a
  numbered : M.Numbered
  issued : ∀ o ∈ M.orders, o.number ≤ M.accepted
  named : M.Named
  record : ∀ c cid, v.tables.record c cid = (M.called c cid).map MarketOrder.record
  last : v.tables.LastIs M.last
  soft : M.softCap = v.softCap

section Tracks

variable {M : Market} {v v' : Venue cap} {a : PriorityBook cap} {o o' : MarketOrder}
  {conn c : ConnId} {cid name : Bytes} {side : Side} {p q : UInt32} {build : Build}

theorem Market.Numbered.inj (h : M.Numbered) (ho : o ∈ M.orders) (ho' : o' ∈ M.orders)
    (hn : o.number = o'.number) : o = o' := by
  refine List.inj_on_of_nodup_map (f := MarketOrder.number) (List.pairwise_map.mpr ?_) ho ho' hn
  exact h.imp fun hlt => hlt.ne

theorem called_eq_some (h : M.Named) :
    M.called c cid = some o ↔ o ∈ M.orders ∧ o.owner = c ∧ o.name = cid := by
  constructor
  · intro hf
    have hp := List.find?_some hf
    rw [decide_eq_true_eq] at hp
    exact ⟨List.mem_of_find?_eq_some hf, hp⟩
  · rintro ⟨ho, rfl, rfl⟩
    cases hf : M.called o.owner o.name with
    | none =>
      have hno := List.find?_eq_none.mp hf o ho
      simp at hno
    | some o' =>
      have hp := List.find?_some hf
      rw [decide_eq_true_eq] at hp
      have hmem := List.mem_of_find?_eq_some hf
      exact congrArg some (List.inj_on_of_nodup_map h hmem ho (Prod.ext hp.1 hp.2))

theorem called_eq_none : M.called c cid = none ↔ (c, cid) ∉ M.orders.map MarketOrder.call := by
  rw [Market.called, List.find?_eq_none]
  simp [MarketOrder.call]

/-- Which names are taken. -/
theorem Tracks.untaken (h : Tracks M v a) :
    v.tables.record c cid = none ↔ M.called c cid = none := by
  rw [h.record, Option.map_eq_none_iff]

theorem Tracks.id_toNat (h : Tracks M v a) (hlt : M.accepted < 2 ^ 64) (ho : o ∈ M.orders) :
    o.id.toNat = o.number :=
  UInt64.toNat_ofNat_of_lt' (lt_of_le_of_lt (h.issued o ho) hlt)

/-- The live ids are the numbers of the resting orders. -/
theorem live_ne_none {n : ℕ} (hs : Synced n v a) (hq : Queued M a) (id : UInt64) :
    v.tables.live id ≠ none ↔ ∃ o ∈ M.orders, o.state = .resting ∧ o.number = id.toNat := by
  constructor
  · intro hne
    obtain ⟨lo, hlo⟩ := Option.ne_none_iff_exists'.mp hne
    obtain ⟨s, e, he, rfl⟩ := hs.holds.live id lo hlo
    have hmem := List.mem_map_of_mem (f := MarketOrder.ofResting s) he
    rw [hq s] at hmem
    obtain ⟨o, ho, hoe⟩ := List.mem_map.mp hmem
    obtain ⟨ho, hst, -⟩ := mem_resting.mp ho
    exact ⟨o, ho, hst, congrArg MarketOrder.number hoe⟩
  · rintro ⟨o, ho, hst, hn⟩
    have hmem := List.mem_map_of_mem (f := MarketOrder.bare) (mem_resting.mpr ⟨ho, hst, rfl⟩)
    rw [← hq] at hmem
    obtain ⟨e, he, heo⟩ := List.mem_map.mp hmem
    obtain ⟨lo, hlo, -⟩ := hs.holds.queued _ e he
    have hid : e.orderId = id :=
      UInt64.toNat_inj.mp ((congrArg MarketOrder.number heo :).trans hn)
    rw [← hid, hlo]
    exact Option.some_ne_none lo

/-- The live orders are the resting ones. -/
theorem Tracks.live_iff (h : Tracks M v a) (hlt : M.accepted < 2 ^ 64) {id : UInt64}
    {lo : LiveOrder} : v.tables.live id = some lo ↔
      ∃ o ∈ M.orders, o.state = .resting ∧ o.id = id ∧ o.entry = lo := by
  have hfwd : ∀ {lo : LiveOrder}, v.tables.live id = some lo →
      ∃ o ∈ M.orders, o.state = .resting ∧ o.id = id ∧ o.entry = lo := by
    intro lo hlo
    obtain ⟨s, e, he, rfl⟩ := h.synced.holds.live id lo hlo
    obtain ⟨lo', hlo', hm⟩ := h.synced.holds.queued s e he
    rw [hlo, Option.some_inj] at hlo'
    subst hlo'
    have hmem := List.mem_map_of_mem (f := MarketOrder.ofResting s) he
    rw [h.queued s] at hmem
    obtain ⟨o, ho, hoe⟩ := List.mem_map.mp hmem
    obtain ⟨ho, hst, hside⟩ := mem_resting.mp ho
    have hnum : o.number = e.orderId.toNat := (congrArg MarketOrder.number hoe :)
    have hid : o.id = e.orderId := UInt64.toNat_inj.mp ((h.id_toNat hlt ho).trans hnum)
    -- the record of the entry is the record of the order, so they have one name
    obtain ⟨hex, r, hr, hrid, -⟩ := h.synced.recorded.entry _ lo hlo
    rw [h.record, Option.map_eq_some_iff] at hr
    obtain ⟨o', ho', hor⟩ := hr
    obtain ⟨hmem', -, hname'⟩ := (called_eq_some h.named).mp ho'
    have hid' : o'.id = o.id := (congrArg ClientRecord.engineId hor :).trans (hrid.trans hid.symm)
    have hsame : o' = o := h.numbered.inj hmem' ho
      ((h.id_toNat hlt hmem').symm.trans ((congrArg UInt64.toNat hid').trans (h.id_toNat hlt ho)))
    refine ⟨o, ho, hst, hid, ?_⟩
    have howner : o.owner = e.participantId := (congrArg MarketOrder.owner hoe :)
    have hprice : o.price = e.price := (congrArg MarketOrder.price hoe :)
    have hrem : o.remaining = e.quantity.toNat := (congrArg MarketOrder.remaining hoe :)
    have hexid : o.exchangeId = exchangeId e.orderId := by
      rw [MarketOrder.exchangeId, hnum]
      rfl
    obtain ⟨owner, clientOrderId, exId, side, price, remaining⟩ := lo
    simp only [MarketOrder.entry, LiveOrder.mk.injEq]
    exact ⟨howner.trans hm.owner.symm, hsame ▸ hname', hexid.trans hex.symm,
      hside.trans hm.side.symm, hprice.trans hm.priceTicks.symm,
      by rw [hrem, UInt32.ofNat_toNat]; exact hm.remaining.symm⟩
  refine ⟨hfwd, ?_⟩
  rintro ⟨o, ho, hst, rfl, rfl⟩
  obtain ⟨lo, hlo⟩ := Option.ne_none_iff_exists'.mp ((live_ne_none h.synced h.queued o.id).mpr
    ⟨o, ho, hst, (h.id_toNat hlt ho).symm⟩)
  obtain ⟨o', ho', -, hid, rfl⟩ := hfwd hlo
  have hsame : o' = o := h.numbered.inj ho' ho
    ((h.id_toNat hlt ho').symm.trans ((congrArg UInt64.toNat hid).trans (h.id_toNat hlt ho)))
  exact hsame ▸ hlo

/-! ### An accepted order -/

/-- The order an accepted one is kept as. -/
def Market.kept (M : Market) (conn : ConnId) (name : Bytes) (side : Side) (p : UInt32) (q : ℕ) :
    MarketOrder :=
  ⟨M.accepted + 1, conn, name, side, p,
    q - ((Market.trades (M.reach side p) q).map Prod.snd).sum, false⟩

theorem accept_orders (M : Market) (conn : ConnId) (name : Bytes) (side : Side) (p : UInt32)
    (q : ℕ) : (M.accept conn name side p q).1.orders =
      M.orders.map (Market.settle (M.reach side p) q) ++ [M.kept conn name side p q] := rfl

theorem map_call_settle (R : List MarketOrder) (q : ℕ) (l : List MarketOrder) :
    (l.map (Market.settle R q)).map MarketOrder.call = l.map MarketOrder.call := by
  rw [List.map_map]
  exact List.map_congr_left fun o _ => Prod.ext (settle_owner R q o) (settle_name R q o)

theorem Market.Numbered.accept (h : M.Numbered) (hi : ∀ o ∈ M.orders, o.number ≤ M.accepted)
    (conn : ConnId) (name : Bytes) (side : Side) (p : UInt32) (q : ℕ) :
    (M.accept conn name side p q).1.Numbered ∧
      ∀ o ∈ (M.accept conn name side p q).1.orders, o.number ≤ M.accepted + 1 := by
  simp only [Market.Numbered, accept_orders]
  constructor
  · refine List.pairwise_append.mpr ⟨List.pairwise_map.mpr (h.imp fun {o o'} hlt => ?_),
      List.pairwise_singleton _ _, fun o ho o' ho' => ?_⟩
    · rw [settle_number, settle_number]
      exact hlt
    · obtain ⟨o, hmem, rfl⟩ := List.mem_map.mp ho
      rw [List.mem_singleton.mp ho', settle_number]
      exact Nat.lt_succ_of_le (hi o hmem)
  · intro o ho
    rcases List.mem_append.mp ho with ho | ho
    · obtain ⟨o, hmem, rfl⟩ := List.mem_map.mp ho
      rw [settle_number]
      exact Nat.le_succ_of_le (hi o hmem)
    · rw [List.mem_singleton.mp ho]
      exact le_rfl

theorem Market.Named.accept (h : M.Named) (hnew : M.called conn name = none) (side : Side)
    (p : UInt32) (q : ℕ) : (M.accept conn name side p q).1.Named := by
  rw [Market.Named, accept_orders, List.map_append, map_call_settle]
  refine List.nodup_append.mpr ⟨h, List.nodup_singleton _, fun x hx y hy hxy => ?_⟩
  rw [List.map_singleton, List.mem_singleton] at hy
  have hx' : x = (conn, name) := hxy.trans hy
  exact called_eq_none.mp hnew (hx' ▸ hx)

/-- Who is called what after an order is in. -/
theorem called_accept (M : Market) (conn : ConnId) (name : Bytes) (side : Side) (p : UInt32)
    (q : ℕ) (c : ConnId) (cid : Bytes) : (M.accept conn name side p q).1.called c cid =
      ((M.called c cid).map (Market.settle (M.reach side p) q)).or
        (if conn = c ∧ name = cid then some (M.kept conn name side p q) else none) := by
  rw [Market.called, accept_orders, List.find?_append, List.find?_map]
  have hsame : ((fun o : MarketOrder => decide (o.owner = c ∧ o.name = cid)) ∘
      Market.settle (M.reach side p) q) = fun o => decide (o.owner = c ∧ o.name = cid) := by
    funext o
    simp only [Function.comp, settle_owner, settle_name]
  rw [hsame]
  refine congrArg _ ?_
  by_cases hc : conn = c ∧ name = cid
  · rw [if_pos hc]
    simp [Market.kept, hc.1, hc.2]
  · rw [if_neg hc]
    refine List.find?_eq_none.mpr fun o ho he => ?_
    rw [List.mem_singleton.mp ho] at he
    exact hc (of_decide_eq_true he)

theorem mem_trades {R : List MarketOrder} {q : ℕ} {x : MarketOrder × ℕ} :
    x ∈ Market.trades R q ↔ x.1 ∈ R ∧ x.2 = Market.gets R q x.1 ∧ 0 < x.2 := by
  obtain ⟨o, n⟩ := x
  simp only [Market.trades, List.mem_filter, List.mem_map, decide_eq_true_eq, Prod.mk.injEq]
  constructor
  · rintro ⟨⟨o', ho', rfl, rfl⟩, hpos⟩
    exact ⟨ho', rfl, hpos⟩
  · rintro ⟨ho, rfl, hpos⟩
    exact ⟨⟨o, ho, rfl, rfl⟩, hpos⟩

/-- The orders a limit reaches have ids of their own. -/
theorem Tracks.reach_ids (h : Tracks M v a) (hlt : M.accepted < 2 ^ 64) (side : Side) (p : UInt32) :
    ((M.reach side p).map MarketOrder.id).Nodup := by
  have hnd : (M.reach side p).Nodup :=
    (reach_before h.numbered side p).imp fun hb => fun he => hb.asymm (he ▸ hb)
  refine List.Nodup.map_on (fun o ho o' ho' hid => ?_) hnd
  have hmem := (mem_reach.mp ho).1
  have hmem' := (mem_reach.mp ho').1
  exact h.numbered.inj hmem hmem' ((h.id_toNat hlt hmem).symm.trans
    ((congrArg UInt64.toNat hid).trans (h.id_toNat hlt hmem')))

/-- The fills of an accepted order. -/
theorem Tracks.sent_accept (h : Tracks M v a) (hlt : M.accepted + 1 < 2 ^ 64)
    (hfills : (v.entered conn name side p q).Fills
      ((Market.trades (M.reach side p) q.toNat).map (tradeWith side v.nextEngineId))) :
    ((v.entered conn name side p q).afterTrades
      ((Market.trades (M.reach side p) q.toNat).map (tradeWith side v.nextEngineId))).sent =
      v.tables.sent ++ (M.accept conn name side p q.toNat).2 := by
  have hlt' : M.accepted < 2 ^ 64 := (Nat.lt_succ_self _).trans hlt
  have hid := h.synced.nextEngineId hlt
  set inc : MarketOrder := ⟨M.accepted + 1, conn, name, side, p, q.toNat, false⟩ with hinc
  have hincid : inc.id = v.nextEngineId := UInt64.toNat_inj.mp
    ((UInt64.toNat_ofNat_of_lt' hlt).trans hid.symm)
  have hincex : exchangeId v.nextEngineId = inc.exchangeId := by
    rw [exchangeId, hid]
    rfl
  have hnew : ∀ o ∈ M.orders, o.id ≠ inc.id := by
    intro o ho he
    have hn := (h.id_toNat hlt' ho).symm.trans (congrArg UInt64.toNat he)
    rw [hincid, hid] at hn
    exact absurd (h.issued o ho) (by omega)
  have hsent :=
    reports_sent inc (Market.trades (M.reach side p) q.toNat) (T := v.entered conn name side p q)
    (fun _ => ?_) (fun x hx => ?_) ?_
    (fun x hx => ?_) ?_ (hincid ▸ hfills)
  · rw [hincid] at hsent
    refine hsent.trans ?_
    rw [entered_sent, hincex, List.append_assoc]
    rfl
  · rw [entered_live, hincid, if_pos rfl, Venue.newOrder, hincex]
    simp [MarketOrder.entry, hinc]
  · obtain ⟨ho, hst, -⟩ := mem_reach.mp (mem_trades.mp hx).1
    rw [entered_live, if_neg (hincid ▸ hnew _ ho)]
    exact (h.live_iff hlt').mpr ⟨_, ho, hst, rfl, rfl⟩
  · refine List.nodup_cons.mpr ⟨fun hm => ?_, ?_⟩
    · obtain ⟨x, hx, he⟩ := List.mem_map.mp hm
      exact hnew _ (mem_reach.mp (mem_trades.mp hx).1).1 he
    · have hsub : ((Market.trades (M.reach side p) q.toNat).map fun x => x.1.id).Sublist
          (((M.reach side p).map fun o => (o, Market.gets (M.reach side p) q.toNat o)).map
            fun x => x.1.id) := List.filter_sublist.map _
      rw [List.map_map] at hsub
      exact (h.reach_ids hlt' side p).sublist hsub
  · rw [(mem_trades.mp hx).2.1]
    exact min_le_left _ _
  · rw [sum_trades h.numbered]
    exact min_le_right _ _

/-- An accepted order: the messages are the market's, and the venue is the market after it. -/
theorem Tracks.accept (h : Tracks M v a) (hlt : M.accepted + 1 < 2 ^ 64) {payload : Bytes}
    (hacc : Accepts v conn payload name side p q)
    (hsub : v.submit build conn name side p q = .ok v') :
    v'.tables.sent = v.tables.sent ++ (M.accept conn name side p q.toNat).2 ∧
      ∃ a', Tracks (M.accept conn name side p q.toNat).1 v' a' := by
  have hlt' : M.accepted < 2 ^ 64 := (Nat.lt_succ_self _).trans hlt
  obtain ⟨ts, a', hadd, hfills, hT, hs'⟩ := h.synced.accept hlt hacc hsub
  have hid := h.synced.nextEngineId hlt
  obtain ⟨hts, hq'⟩ := h.queued.accept h.numbered h.synced.wf (h.synced.noSelf hacc.noSelfCross)
    hid hadd name
  have hnew : M.called conn name = none := h.untaken.mp hacc.fresh
  obtain ⟨hnum', hiss'⟩ := h.numbered.accept h.issued conn name side p q.toNat
  have hnamed' := h.named.accept hnew side p q.toNat
  have hgone : ∀ o ∈ (M.accept conn name side p q.toNat).1.orders,
      v'.tables.live o.id = none ↔ o.state ≠ .resting := by
    intro o ho
    have hoid : o.id.toNat = o.number :=
      UInt64.toNat_ofNat_of_lt' (lt_of_le_of_lt (hiss' o ho) hlt)
    rw [← not_iff_not, not_not]
    refine (live_ne_none hs' hq' o.id).trans ⟨?_, fun hst => ⟨o, ho, hst, hoid.symm⟩⟩
    rintro ⟨o', ho', hst, hn⟩
    exact hnum'.inj ho' ho (hn.trans hoid) ▸ hst
  have hmarked : ∀ {o o' : MarketOrder}, o'∈ (M.accept conn name side p q.toNat).1.orders →
      o.number = o'.number → (o.state = .resting → o'.withdrawn = false) →
      (o.state ≠ .resting → o' = o) → Tables.marked v'.tables.live o.record = o'.record := by
    intro o o' ho' hn hrest hdone
    have hid : o.id = o'.id := congrArg UInt64.ofNat hn
    have hex : o.exchangeId = o'.exchangeId := congrArg (fun n => ascii "e-" ++ toDecimal n) hn
    by_cases hst : o.state = .resting
    · have hw := hrest hst
      by_cases hrem : o'.remaining = 0
      · have hnone : v'.tables.live o.record.engineId = none :=
          (congrArg v'.tables.live hid).trans
            ((hgone o' ho').mpr fun hr => (state_eq_resting.mp hr).2 hrem)
        rw [Tables.marked, if_pos ⟨hst, hnone⟩]
        simp [MarketOrder.record, MarketOrder.state, hw, hrem, hid, hex]
      · have hr : o'.state = .resting := state_eq_resting.mpr ⟨hw, hrem⟩
        rw [Tables.marked, if_neg fun hc =>
          (hgone o' ho').mp ((congrArg v'.tables.live hid).symm.trans hc.2) hr]
        simp [MarketOrder.record, hst, hr, hid, hex]
    · rw [hdone hst, Tables.marked, if_neg fun hc => hst hc.1]
  refine ⟨?_, a', hs', hq', hnum', hiss', hnamed', fun c cid => ?_, ?_, ?_⟩
  · rw [hT, hts]
    exact h.sent_accept hlt (hts ▸ hfills)
  · have hrec := Tables.afterTrades_record (h.synced.recorded_entered side p q hlt hacc.fresh)
      hfills c cid
    rw [← hT] at hrec
    rw [hrec, entered_record, called_accept]
    by_cases hc : c = conn ∧ cid = name
    · obtain ⟨rfl, rfl⟩ := hc
      rw [if_pos ⟨rfl, rfl⟩, if_pos ⟨rfl, rfl⟩, hnew]
      have hmem : M.kept c cid side p q.toNat ∈ (M.accept c cid side p q.toNat).1.orders := by
        rw [accept_orders]
        exact List.mem_append_right _ List.mem_cons_self
      set inc : MarketOrder := ⟨M.accepted + 1, c, cid, side, p, q.toNat, false⟩ with hinc
      have hst : inc.state = .resting :=
        state_eq_resting.mpr ⟨rfl, fun h0 => hacc.positive (UInt32.toNat_inj.mp h0)⟩
      have hnext : inc.id = v.nextEngineId :=
        UInt64.toNat_inj.mp ((UInt64.toNat_ofNat_of_lt' hlt).trans hid.symm)
      have hex : inc.exchangeId = exchangeId v.nextEngineId := by
        rw [exchangeId, hid]
        rfl
      have hrecord : inc.record = ⟨.resting, exchangeId v.nextEngineId, v.nextEngineId⟩ := by
        rw [MarketOrder.record, hst, hex, hnext]
      rw [← hrecord]
      exact congrArg some (hmarked hmem rfl (fun _ => rfl) fun h => absurd hst h)
    · rw [if_neg hc, if_neg fun he => hc ⟨he.1.symm, he.2.symm⟩, h.record, Option.or_none,
        Option.map_map, Option.map_map]
      cases ho : M.called c cid with
      | none => rfl
      | some o =>
        obtain ⟨hmem, -⟩ := (called_eq_some h.named).mp ho
        refine congrArg some (hmarked ?_ (settle_number _ _ o).symm ?_ ?_)
        · rw [accept_orders]
          exact List.mem_append_left _ (List.mem_map_of_mem hmem)
        · intro hst
          have hw := (state_eq_resting.mp hst).1
          unfold Market.settle
          split <;> exact hw
        · intro hst
          exact settle_of_notMem (fun hm => hst (mem_reach.mp hm).2.1) _
  · have hlast := Tables.LastIs.afterTrades (T := v.entered conn name side p q) h.last ts
    rw [← hT, hts, List.getLast?_map, Option.map_map] at hlast
    have hprice : Trade.price ∘ tradeWith side v.nextEngineId = fun x => x.1.price := by
      funext x
      cases side <;> rfl
    rw [hprice] at hlast
    exact hlast
  · obtain ⟨-, -, -, -, -, -, hsoft⟩ := submit_spec h.synced.rep h.synced.wf hsub
    exact h.soft.trans hsoft.symm

/-! ### Other calls -/

/-- A call about no order. -/
theorem Tracks.quiet (h : Tracks M v a) (book : v'.book = v.book)
    (clock : v'.nextEngineId = v.nextEngineId) (soft : v'.softCap = v.softCap)
    (live : v'.tables.byEngineId = v.tables.byEngineId)
    (record : ∀ c cid, v'.tables.record c cid = v.tables.record c cid)
    (last : v'.tables.hasLastTrade = v.tables.hasLastTrade ∧
      v'.tables.lastTradeTicks = v.tables.lastTradeTicks) : Tracks M v' a :=
  ⟨h.synced.quiet book clock live record, h.queued, h.numbered, h.issued, h.named,
    fun c cid => (record c cid).trans (h.record c cid),
    ⟨last.1.trans h.last.1, last.2.trans h.last.2⟩, h.soft.trans soft.symm⟩

/-- An order withdrawn if it is called so. -/
def MarketOrder.withdrawIf (conn : ConnId) (name : Bytes) (o : MarketOrder) : MarketOrder :=
  if o.owner = conn ∧ o.name = name then { o with withdrawn := true } else o

theorem withdrawIf_fields (conn : ConnId) (name : Bytes) (o : MarketOrder) :
    (o.withdrawIf conn name).number = o.number ∧ (o.withdrawIf conn name).call = o.call ∧
      (o.withdrawIf conn name).side = o.side ∧ (o.withdrawIf conn name).price = o.price ∧
      (o.withdrawIf conn name).bare = o.bare := by
  unfold MarketOrder.withdrawIf
  split <;> exact ⟨rfl, rfl, rfl, rfl, rfl⟩

theorem withdrawIf_resting (conn : ConnId) (name : Bytes) (o : MarketOrder) :
    (o.withdrawIf conn name).state = .resting ↔
      o.state = .resting ∧ ¬ (o.owner = conn ∧ o.name = name) := by
  unfold MarketOrder.withdrawIf
  split
  · next h => simp [state_eq_resting, h]
  · next h => simp [h]

/-- The market once the order called so is withdrawn. -/
def Market.withdrawn (M : Market) (conn : ConnId) (name : Bytes) : Market :=
  { M with orders := M.orders.map (MarketOrder.withdrawIf conn name) }

/-- The resting orders but one. -/
theorem resting_withdrawn (hnum : M.Numbered) (hnamed : M.Named)
    (ho : M.called conn name = some o) (s : Side) :
    ((M.withdrawn conn name).resting s).map MarketOrder.bare =
      ((M.resting s).filter fun x => x.number ≠ o.number).map MarketOrder.bare := by
  obtain ⟨hmem, howner, hname⟩ := (called_eq_some hnamed).mp ho
  have hone : ∀ x ∈ M.orders, (x.owner = conn ∧ x.name = name) ↔ x.number = o.number := by
    intro x hx
    constructor
    · rintro ⟨h₁, h₂⟩
      have hsome := (called_eq_some hnamed).mpr ⟨hx, h₁, h₂⟩
      rw [ho, Option.some_inj] at hsome
      rw [hsome]
    · intro hn
      rw [hnum.inj hx hmem hn]
      exact ⟨howner, hname⟩
  have hfilter : M.orders.filter ((fun x => x.state = .resting ∧ x.side = s) ∘
      MarketOrder.withdrawIf conn name) = (M.orders.filter fun x =>
        x.state = .resting ∧ x.side = s).filter fun x => x.number ≠ o.number := by
    rw [List.filter_filter]
    refine List.filter_congr fun x hx => ?_
    simp only [Function.comp, withdrawIf_resting, (withdrawIf_fields conn name x).2.2.1, hone x hx,
      ← Bool.decide_and]
    exact decide_eq_decide.mpr (by tauto)
  have hmap (l : List MarketOrder) :
      byPriority (fun o => s.rank o.price) (l.map (MarketOrder.withdrawIf conn name)) =
        (byPriority (fun o => s.rank o.price) l).map (MarketOrder.withdrawIf conn name) :=
    byPriority_map (fun o => by rw [(withdrawIf_fields conn name o).2.2.2.1]) l
  rw [Market.resting, Market.withdrawn, List.filter_map, hmap, hfilter, byPriority_filter,
    List.map_map]
  exact List.map_congr_left fun x _ => (withdrawIf_fields conn name x).2.2.2.2

/-- A withdrawn order. -/
theorem Tracks.cancel (h : Tracks M v a) (hlt : M.accepted < 2 ^ 64)
    (ho : M.called conn name = some o) {book : OrderBook cap}
    (hbook : v.book.cancelOrder build o.id = .ok book) :
    Tracks (M.withdrawn conn name) (v.cancelled conn name o.record book) (a.cancel o.id) := by
  obtain ⟨hmem, hcall⟩ := (called_eq_some h.named).mp ho
  have hrec : v.tables.record conn name = some o.record := by
    rw [h.record, ho]
    rfl
  refine ⟨h.synced.cancel hrec hbook, fun s => ?_, ?_, ?_, ?_, fun c cid => ?_, h.last, h.soft⟩
  · rw [resting_withdrawn h.numbered h.named ho, h.synced.indexed.cancel_queue h.synced.wf]
    have hq := congrArg (List.filter fun x : MarketOrder => x.number ≠ o.number) (h.queued s)
    rw [List.filter_map, List.filter_map] at hq
    refine Eq.trans (congrArg _ (List.filter_congr fun e _ => decide_eq_decide.mpr
      (not_congr ?_))) hq
    rw [← UInt64.toNat_inj, h.id_toNat hlt hmem]
    rfl
  · exact List.pairwise_map.mpr (h.numbered.imp fun {x y} hxy => by
      rw [(withdrawIf_fields conn name x).1, (withdrawIf_fields conn name y).1]
      exact hxy)
  · intro x hx
    obtain ⟨y, hy, rfl⟩ := List.mem_map.mp hx
    rw [(withdrawIf_fields conn name y).1]
    exact h.issued y hy
  · rw [Market.Named, Market.withdrawn, List.map_map]
    exact (List.map_congr_left fun x _ => (withdrawIf_fields conn name x).2.1) ▸ h.named
  · have hcalled : (M.withdrawn conn name).called c cid =
        (M.called c cid).map (MarketOrder.withdrawIf conn name) := by
      rw [Market.called, Market.withdrawn, List.find?_map]
      refine congrArg (fun p => (M.orders.find? p).map _) (funext fun x => ?_)
      obtain ⟨h₁, h₂⟩ := Prod.mk.inj (withdrawIf_fields conn name x).2.1
      simp only [Function.comp, h₁, h₂]
    rw [cancelled_record, hcalled, h.record, Option.map_map]
    by_cases hc : c = conn ∧ cid = name
    · obtain ⟨rfl, rfl⟩ := hc
      rw [if_pos ⟨rfl, rfl⟩, ho]
      simp only [Option.map_some, Function.comp, MarketOrder.withdrawIf, if_pos hcall]
      rfl
    · rw [if_neg hc]
      cases hx : M.called c cid with
      | none => rfl
      | some x =>
        obtain ⟨-, rfl, rfl⟩ := (called_eq_some h.named).mp hx
        simp only [Option.map_some, Function.comp, MarketOrder.withdrawIf, if_neg hc]

/-- The market without a connection. -/
def Market.without (M : Market) (conn : ConnId) : Market :=
  { M with orders := M.orders.filter fun o => o.owner ≠ conn }

/-- A dropped connection. -/
theorem Tracks.drop (h : Tracks M v a) (hv : v.dropConnection build conn = .ok v') :
    v'.tables.sent = v.tables.sent ∧ ∃ a', Tracks (M.without conn) v' a' := by
  obtain ⟨a', hs', hqueue, -, hrecord, hsent, -, hsoft⟩ := post_of_ok (h.synced.drop build conn) hv
  obtain ⟨-, -, -, -, hlast, -⟩ :=
    post_of_ok (dropIn_spec build conn (v.owned conn) h.synced.rep h.synced.wf) hv
  refine ⟨hsent, a', hs', fun s => ?_, h.numbered.filter _, fun o ho => ?_, ?_, fun c cid => ?_,
    ⟨hlast.1.trans h.last.1, hlast.2.trans h.last.2⟩, h.soft.trans hsoft.symm⟩
  · have hq := congrArg (List.filter fun x : MarketOrder => x.owner ≠ conn) (h.queued s)
    rw [List.filter_map, List.filter_map] at hq
    rw [hqueue]
    refine Eq.trans hq (congrArg _ ?_)
    rw [Market.resting, Market.resting, ← byPriority_filter, Market.without, List.filter_filter,
      List.filter_filter]
    exact congrArg _ (List.filter_congr fun x _ => Bool.and_comm _ _)
  · exact h.issued o (List.mem_filter.mp ho).1
  · exact List.Nodup.sublist (List.filter_sublist.map _) h.named
  · have hcalled : (M.without conn).called c cid = if c = conn then none else M.called c cid := by
      rw [Market.called, Market.without, List.find?_filter]
      split
      · next hc =>
        refine List.find?_eq_none.mpr fun x _ => ?_
        simp only [decide_eq_true_eq, not_and]
        exact fun hne hx => absurd (hx.trans hc) hne
      · next hc =>
        refine congrArg (fun p => M.orders.find? p) (funext fun x => ?_)
        simp only [decide_eq_true_eq]
        refine decide_eq_decide.mpr ⟨fun hx => hx.2, fun hx => ⟨fun he => hc ?_, hx⟩⟩
        exact hx.1.symm.trans he
    rw [hrecord, hcalled, h.record]
    split <;> rfl

end Tracks

end MarketMakerOps.Exchange
