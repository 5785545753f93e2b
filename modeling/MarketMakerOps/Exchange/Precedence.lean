import MarketMakerOps.Exchange.MarketRefinement
import MarketMakerOps.Exchange.SelfMatch

/-!
Price-time priority, as a connected client can observe it.

* `filledQty_reports`: what the market's reports say about a resting order;
* `served_ahead`: on the market, who trades leaves nothing to those ahead of it;
* `price_time_priority`: on the venue, a call that fills a resting order fills
  every order of its side that is ahead of it completely.
-/

namespace MarketMakerOps.Exchange

open Decimal Engine Priority Allotment Fallible

variable {cap softCap : Nat} {build : Build}

section Market

variable {M : Market} {o o' inc : MarketOrder} {side : Side} {limit : UInt32} {q : ℕ}

theorem exchangeId_number : o.exchangeId = o'.exchangeId ↔ o.number = o'.number := by
  rw [MarketOrder.exchangeId, MarketOrder.exchangeId, List.append_cancel_left_eq, toDecimal_inj]

theorem filledQty_append (e : Bytes) (msgs msgs' : List Sent) :
    filledQty e (msgs ++ msgs') = filledQty e msgs + filledQty e msgs' := by
  simp [filledQty, about]

theorem filledQty_report (e : Bytes) (o : MarketOrder) (price : UInt32) (n : ℕ) :
    filledQty e [o.report price n] = if o.exchangeId = e then (UInt32.ofNat n).toNat else 0 := by
  by_cases h : o.exchangeId = e <;>
    simp [filledQty, about, MarketOrder.report, Outbound.exchangeId?, Outbound.fillQty, h]

/-- The reports about a resting order are those of its own trades. -/
theorem filledQty_reports {e : Bytes} (inc : MarketOrder) (he : inc.exchangeId ≠ e)
    (ts : List (MarketOrder × ℕ)) :
    filledQty e (Market.reports inc ts) =
      ((ts.filter fun x => x.1.exchangeId = e).map fun x => (UInt32.ofNat x.2).toNat).sum := by
  induction ts generalizing inc with
  | nil => rfl
  | cons x ts ih =>
    obtain ⟨o, n⟩ := x
    have hrest := ih (inc.less n) he
    have hpair : ∀ x y : Sent, filledQty e [x, y] = filledQty e [x] + filledQty e [y] :=
      fun x y => filledQty_append e [x] [y]
    rw [Market.reports, filledQty_append, hrest]
    by_cases h : o.exchangeId = e <;> cases inc.side <;>
      simp [hpair, filledQty_report, he, h]

/-- An order ahead of one within reach is within reach. -/
theorem reach_of_before (ho : o ∈ M.reach side limit) (ho' : o' ∈ M.orders)
    (hst : o'.state = .resting) (hside : o'.side = o.side) (hb : o'.Before o) :
    o' ∈ M.reach side limit := by
  obtain ⟨-, -, hs, hc⟩ := mem_reach.mp ho
  refine mem_reach.mpr ⟨ho', hst, hside.trans hs, ?_⟩
  rw [RefBook.crosses_iff] at hc ⊢
  rcases hb with hlt | ⟨heq, -⟩
  · simp only [hside, hs] at hlt
    exact fun h => hc (hlt.trans h)
  · simp only [hside, hs] at heq
    exact fun h => hc (heq ▸ h)

/-- What an order of the list gets is reported for it. -/
theorem filledQty_accept (hnum : M.Numbered) (hiss : ∀ o ∈ M.orders, o.number ≤ M.accepted)
    (conn : ConnId) (name : Bytes) (ho : o ∈ M.orders)
    (hb : o.state = .resting → o.remaining < 2 ^ 32) :
    filledQty o.exchangeId (M.accept conn name side limit q).2 =
      if o ∈ M.reach side limit then Market.gets (M.reach side limit) q o else 0 := by
  set inc : MarketOrder := ⟨M.accepted + 1, conn, name, side, limit, q, false⟩ with hinc
  have hne : inc.exchangeId ≠ o.exchangeId := by
    rw [Ne, exchangeId_number]
    exact fun hn => absurd (hiss o ho) (by rw [← hn, hinc]; exact Nat.not_succ_le_self _)
  have hack : filledQty o.exchangeId ((conn, .ack name inc.exchangeId) ::
      Market.reports inc (Market.trades (M.reach side limit) q)) =
        filledQty o.exchangeId (Market.reports inc (Market.trades (M.reach side limit) q)) := by
    simp [filledQty, about, Outbound.exchangeId?, hne]
  refine hack.trans ?_
  rw [filledQty_reports inc hne]
  have hsame : ∀ x ∈ M.reach side limit, x.exchangeId = o.exchangeId ↔ x = o := by
    intro x hx
    rw [exchangeId_number]
    exact ⟨hnum.inj (mem_reach.mp hx).1 ho, fun hx => hx ▸ rfl⟩
  have hnd : (M.reach side limit).Nodup :=
    (reach_before hnum side limit).imp fun hb => fun he => hb.asymm (he ▸ hb)
  -- the trades of the order are the one trade it has, if any
  have hmine : (Market.trades (M.reach side limit) q).filter
      (fun x => x.1.exchangeId = o.exchangeId) = (((M.reach side limit).filter fun x => x = o).map
        fun x => (x, Market.gets (M.reach side limit) q x)).filter fun x => 0 < x.2 := by
    rw [Market.trades, List.filter_filter, List.filter_map, List.filter_map, List.filter_filter]
    refine congrArg _ (List.filter_congr fun x hx => ?_)
    simp only [Function.comp, hsame x hx, Bool.and_comm]
  rw [hmine, List.filter_eq, hnd.count]
  split
  · next hmem =>
    have hle : Market.gets (M.reach side limit) q o ≤ o.remaining := min_le_left _ _
    have hlt := lt_of_le_of_lt hle (hb (mem_reach.mp hmem).2.1)
    have hn : (UInt32.ofNat (Market.gets (M.reach side limit) q o)).toNat =
        Market.gets (M.reach side limit) q o := UInt32.toNat_ofNat_of_lt' hlt
    by_cases hpos : 0 < Market.gets (M.reach side limit) q o
    · rw [List.replicate_one, List.map_singleton, List.filter_cons_of_pos (by simpa using hpos),
        List.filter_nil, List.map_singleton, hn, List.sum_singleton]
    · simp [Nat.eq_zero_of_not_pos hpos]
  · rfl

/-- Only an accepted order fills others. -/
theorem handle_fills (M : Market) (ev : Event) :
    (∃ conn name side p q, M.handle ev = M.accept conn name side p q) ∨
      ∀ x ∈ (M.handle ev).2, x.2.fillQty = 0 := by
  cases ev with
  | drop conn => exact Or.inr fun x hx => (List.not_mem_nil hx).elim
  | line conn payload =>
    simp only [Market.handle]
    split
    · exact Or.inr (by simp [Outbound.fillQty])
    · split
      · unfold Market.order
        split
        · exact Or.inr (by simp [Outbound.fillQty])
        · exact Or.inl ⟨_, _, _, _, _, rfl⟩
      · split
        · unfold Market.withdraw
          simp only
          split
          · exact Or.inr (by simp [Outbound.fillQty])
          · exact Or.inr (by simp [Outbound.fillQty])
        · exact Or.inr fun x hx => (List.not_mem_nil hx).elim

theorem filledQty_eq_zero {e : Bytes} {msgs : List Sent} (h : ∀ x ∈ msgs, x.2.fillQty = 0) :
    filledQty e msgs = 0 := by
  refine List.sum_eq_zero fun n hn => ?_
  obtain ⟨x, hx, rfl⟩ := List.mem_map.mp hn
  exact h x (List.mem_filter.mp hx).1

/-- Whoever is filled on the market leaves those ahead of it completely filled. -/
theorem served_ahead {ev : Event} (hnum : M.Numbered)
    (hiss : ∀ o ∈ M.orders, o.number ≤ M.accepted)
    (hb : ∀ o ∈ M.orders, o.state = .resting → o.remaining < 2 ^ 32) (ho : o ∈ M.orders)
    (ho' : o' ∈ M.orders) (hst' : o'.state = .resting) (hside : o'.side = o.side)
    (hahead : o'.Before o) (hfill : 0 < filledQty o.exchangeId (M.handle ev).2) :
    filledQty o'.exchangeId (M.handle ev).2 = o'.remaining ∧
      ∀ x ∈ (M.handle ev).1.orders, x.number = o'.number → x.state ≠ .resting := by
  rcases handle_fills M ev with ⟨conn, name, side, p, q, hev⟩ | hnone
  · rw [hev] at hfill ⊢
    rw [filledQty_accept hnum hiss conn name ho (hb o ho)] at hfill
    split at hfill
    · next hmem =>
      have hmem' := reach_of_before hmem ho' hst' hside hahead
      have hall : Market.gets (M.reach side p) q o' = o'.remaining :=
        ahead_served (fun _ _ _ => Precedes.trans) (fun _ _ => Precedes.asymm) hmem' hahead hfill
      rw [filledQty_accept hnum hiss conn name ho' (hb o' ho'), if_pos hmem']
      refine ⟨hall, fun x hx hn hst => ?_⟩
      rcases List.mem_append.mp hx with hx | hx
      · obtain ⟨y, hy, rfl⟩ := List.mem_map.mp hx
        rw [settle_number] at hn
        obtain rfl := hnum.inj hy ho' hn
        have hrem := (state_eq_resting.mp hst).2
        rw [Market.settle, if_pos hmem', MarketOrder.less, hall] at hrem
        exact hrem (Nat.sub_self _)
      · rw [List.mem_singleton.mp hx] at hn
        have hle := hiss o' ho'
        rw [← hn] at hle
        exact Nat.not_succ_le_self _ hle
    · cases hfill
  · rw [filledQty_eq_zero hnone] at hfill
    cases hfill

end Market

section Venue

variable {s s' : Session cap} {ev : Event} {msgs : List Sent} {id id' : UInt64} {lo lo' : LiveOrder}

/-- What rests fits in 32 bits. -/
theorem Tracks.remaining_lt {M : Market} {v : Venue cap} {a : PriorityBook cap} (h : Tracks M v a)
    {o : MarketOrder} (ho : o ∈ M.orders) (hst : o.state = .resting) : o.remaining < 2 ^ 32 := by
  have hmem := List.mem_map_of_mem (f := MarketOrder.bare) (mem_resting.mpr ⟨ho, hst, rfl⟩)
  rw [← h.queued] at hmem
  obtain ⟨e, -, heo⟩ := List.mem_map.mp hmem
  rw [show o.remaining = e.quantity.toNat from (congrArg MarketOrder.remaining heo).symm]
  exact e.quantity.toNat_lt

/-- If a call fills a resting order, every order of its side with a better price, or the same price
and an earlier id, is reported filled for all it had open, and is gone. -/
theorem price_time_priority {events : List Event} (h : session build cap softCap events = .ok s)
    (hstep : s.step build ev = .ok s') (hlt : s'.accepted < 2 ^ 64)
    (hmsgs : s'.history = s.history ++ [(ev, msgs)]) (hlo : s.venue.tables.live id = some lo)
    (hlo' : s.venue.tables.live id' = some lo') (hside : lo'.side = lo.side)
    (hahead : lo.side.rank lo.priceTicks < lo.side.rank lo'.priceTicks ∨
      lo'.priceTicks = lo.priceTicks ∧ id' < id) (hfill : 0 < filledQty lo.exchangeId msgs) :
    filledQty lo'.exchangeId msgs = lo'.remaining.toNat ∧ s'.venue.tables.live id' = none := by
  have hmono := Session.accepted_mono hstep
  obtain ⟨M, ⟨a, hM⟩, hcount⟩ := session_tracks h (lt_of_le_of_lt hmono hlt)
  have hlt' : M.accepted < 2 ^ 64 := hcount ▸ lt_of_le_of_lt hmono hlt
  obtain ⟨hhist, a', hM'⟩ := step_follows ⟨a, hM⟩ hstep hlt'
    fun _ h => by rw [hcount, ← h]; exact hlt
  have hsame := List.append_cancel_left (hmsgs.symm.trans hhist)
  obtain rfl : msgs = (M.handle ev).2 := (Prod.mk.inj (List.cons.inj hsame).1).2
  obtain ⟨o, ho, -, rfl, rfl⟩ := (hM.live_iff hlt').mp hlo
  obtain ⟨o', ho', hst', rfl, rfl⟩ := (hM.live_iff hlt').mp hlo'
  have hside : o'.side = o.side := hside
  have hbefore : o'.Before o := by
    rcases hahead with hlt | ⟨heq, hid⟩
    · left
      simp only [hside]
      exact hlt
    · right
      have hprice : o'.price = o.price := heq
      refine ⟨by simp only [hside, hprice], ?_⟩
      rw [← hM.id_toNat hlt' ho, ← hM.id_toNat hlt' ho']
      exact UInt64.lt_iff_toNat_lt.mp hid
  obtain ⟨hall, hgone⟩ := served_ahead hM.numbered hM.issued
    (fun x hx hst => hM.remaining_lt hx hst) ho ho' hst' hside hbefore hfill
  refine ⟨hall.trans ?_, ?_⟩
  · exact (UInt32.toNat_ofNat_of_lt' (hM.remaining_lt ho' hst')).symm
  · by_contra hlive
    obtain ⟨x, hx, hst, hn⟩ := (live_ne_none hM'.synced hM'.queued o'.id).mp hlive
    exact hgone x hx (hn.trans (hM.id_toNat hlt' ho')) hst

/-- Two offers at different prices. -/
def twoAsks : List Event :=
  [.line 1 (newOrderLine idA .sell 100 5 idA), .line 2 (newOrderLine idA .sell 99 3 idA)]

/-- A buyer who reaches the worse one. -/
def sweepBoth : Event := .line 3 (newOrderLine idA .buy 100 4 idA)

def worseAsk : LiveOrder := ⟨1, idA.bytes, exchangeId 1, .sell, 100, 5⟩

def betterAsk : LiveOrder := ⟨2, idA.bytes, exchangeId 2, .sell, 99, 3⟩

/-- What the buyer's call sends. -/
def sweptBoth : List Sent :=
  [(3, .ack idA.bytes (exchangeId 3)), (3, .fill (exchangeId 3) idA.bytes 3 99 1),
    (2, .fill (exchangeId 2) idA.bytes 3 99 0), (3, .fill (exchangeId 3) idA.bytes 1 100 0),
    (1, .fill (exchangeId 1) idA.bytes 1 100 4)]

theorem price_time_priority_two_asks : ∃ s s' : Session 5, session .ndebug 5 4 twoAsks = .ok s ∧
    s.step .ndebug sweepBoth = .ok s' ∧ s.venue.tables.live 2 = some betterAsk ∧
    filledQty (exchangeId 2) sweptBoth = 3 ∧ s'.venue.tables.live 2 = none := by
  obtain ⟨s, hs, hp⟩ : ∃ s : Session 5, session .ndebug 5 4 twoAsks = .ok s ∧
      decide (s.venue.tables.live 1 = some worseAsk ∧ s.venue.tables.live 2 = some betterAsk ∧
        (s.step .ndebug sweepBoth).toOption.any (fun s' => decide (s'.accepted < 2 ^ 64 ∧
          s'.history = s.history ++ [(sweepBoth, sweptBoth)])) = true) = true :=
    exists_session (by decide +kernel)
  obtain ⟨hworse, hbetter, hstep⟩ := of_decide_eq_true hp
  obtain ⟨s', hs', hp'⟩ := exists_ok hstep
  obtain ⟨hlt, hmsgs⟩ := of_decide_eq_true hp'
  obtain ⟨hall, hgone⟩ := price_time_priority hs hs' hlt hmsgs hworse hbetter rfl
    (Or.inl (by decide)) (by decide +kernel)
  exact ⟨s, s', hs, hs', hbetter, hall, hgone⟩

end Venue

end MarketMakerOps.Exchange
