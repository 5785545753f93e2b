import MarketMakerOps.Exchange.Precedence

/-!
How much of an order trades at once.

* `Tables.reachable`: what is open within an order's limit, on the other side;
* `Tracks.reachable`: the market counts as much;
* `accepted_of_ack`: a call that acknowledges an order is its acceptance;
* `Acknowledged`: a call that acknowledges an order, as the market sees it;
* `execution_is_maximal`: an accepted order trades all that is within reach, or all of itself.
-/

namespace MarketMakerOps.Exchange

open Decimal Engine Priority Allotment Fallible

variable {cap softCap : Nat} {build : Build}

/-- The live orders a limit reaches. -/
def Tables.reached (T : Tables) (side : OrderSide) (limit : UInt32) :
    List (Sigma fun _ : UInt64 => LiveOrder) :=
  T.byEngineId.entries.filter fun x =>
    x.2.side = side.opposite ∧ crosses side limit x.2.priceTicks = true

/-- What they have open. -/
def Tables.reachable (T : Tables) (side : OrderSide) (limit : UInt32) : Nat :=
  ((T.reached side limit).map fun x => x.2.remaining.toNat).sum

section Market

variable {M : Market} {v : Venue cap} {a : PriorityBook cap} {o inc : MarketOrder} {side : Side}
  {limit : UInt32} {q : ℕ}

/-- What is open at the venue within a limit is open on the market. -/
theorem Tracks.reachable (h : Tracks M v a) (hlt : M.accepted < 2 ^ 64) (side : Side)
    (limit : UInt32) : v.tables.reachable side limit =
      ((M.reach side limit).map MarketOrder.remaining).sum := by
  have hperm : (v.tables.reached side limit).Perm ((M.reach side limit).map fun o =>
      (⟨o.id, o.entry⟩ : Sigma fun _ : UInt64 => LiveOrder)) := by
    refine (List.perm_ext_iff_of_nodup ?_ ?_).mpr fun x => ?_
    · exact v.tables.byEngineId.nodupKeys.nodup.filter _
    · exact List.Nodup.of_map Sigma.fst (by rw [List.map_map]; exact h.reach_ids hlt side limit)
    · obtain ⟨id, lo⟩ := x
      have hlive : (⟨id, lo⟩ : Sigma fun _ : UInt64 => LiveOrder) ∈ v.tables.byEngineId.entries ↔
          v.tables.live id = some lo := AList.mem_lookup_iff.symm
      rw [Tables.reached, List.mem_filter, hlive, h.live_iff hlt, List.mem_map, decide_eq_true_eq]
      constructor
      · rintro ⟨⟨o, ho, hst, rfl, rfl⟩, hside, hcross⟩
        exact ⟨o, mem_reach.mpr ⟨ho, hst, hside, hcross⟩, rfl⟩
      · rintro ⟨o, ho, hx⟩
        obtain ⟨ho, hst, hside, hcross⟩ := mem_reach.mp ho
        cases hx
        exact ⟨⟨o, ho, hst, rfl, rfl⟩, hside, hcross⟩
  rw [Tables.reachable, (hperm.map _).sum_eq, List.map_map]
  refine congrArg List.sum (List.map_congr_left fun o ho => ?_)
  obtain ⟨ho, hst, -, -⟩ := mem_reach.mp ho
  exact UInt32.toNat_ofNat_of_lt' (h.remaining_lt ho hst)

/-- What the reports say of the incoming order itself. -/
theorem filledQty_own (inc : MarketOrder) (ts : List (MarketOrder × ℕ))
    (hts : ∀ x ∈ ts, x.2 < 2 ^ 32)
    (hne : ∀ x ∈ ts, x.1.exchangeId ≠ inc.exchangeId) :
    filledQty inc.exchangeId (Market.reports inc ts) = (ts.map Prod.snd).sum := by
  induction ts generalizing inc with
  | nil => rfl
  | cons x ts ih =>
    obtain ⟨o, n⟩ := x
    obtain ⟨hn, hts⟩ := List.forall_mem_cons.mp hts
    obtain ⟨ho, hne⟩ := List.forall_mem_cons.mp hne
    have hrest : filledQty inc.exchangeId (Market.reports (inc.less n) ts) =
        (ts.map Prod.snd).sum :=
      ih (inc.less n) hts hne
    have hn : (UInt32.ofNat n).toNat = n := UInt32.toNat_ofNat_of_lt' hn
    have hpair : ∀ x y : Sent, filledQty inc.exchangeId [x, y] =
        filledQty inc.exchangeId [x] + filledQty inc.exchangeId [y] :=
      fun x y => filledQty_append _ [x] [y]
    rw [Market.reports, filledQty_append, hrest, List.map_cons, List.sum_cons]
    cases inc.side <;> simp [hpair, filledQty_report, ho, hn]

theorem accepted_of_ack {conn c : ConnId} {payload cid name e : Bytes} {p q : UInt32}
    {fills : List Sent} (hnew : IsNewOrder payload cid side p q)
    (hack : (M.handle (.line conn payload)).2 = (c, .ack name e) :: fills) :
    M.handle (.line conn payload) = M.accept conn cid side p q.toNat := by
  have hcode : M.handle (.line conn payload) = M.order conn (parseInbound payload) := by
    simp [Market.handle, hnew.readable, hnew.type]
  rw [hcode] at hack ⊢
  unfold Market.order at hack ⊢
  split at hack
  · cases hack
  · simp only [hnew.names, hnew.onSide, hnew.atPrice, hnew.forQty, Option.getD_some]

theorem gets_all (hsum : ((M.reach side limit).map MarketOrder.remaining).sum ≤ q)
    (ho : o ∈ M.reach side limit) : Market.gets (M.reach side limit) q o = o.remaining :=
  share_of_sum_le ho (fun h => Precedes.asymm h h) hsum

/-- Nothing within reach is left by an order that has something left. -/
theorem reach_accept (hsum : ((M.reach side limit).map MarketOrder.remaining).sum ≤ q)
    (conn : ConnId) (name : Bytes) : (M.accept conn name side limit q).1.reach side limit = [] := by
  refine List.eq_nil_iff_forall_not_mem.mpr fun o ho => ?_
  obtain ⟨ho, hst, hside, hcross⟩ := mem_reach.mp ho
  rw [accept_orders, List.mem_append, List.mem_singleton] at ho
  rcases ho with ho | rfl
  · obtain ⟨x, hx, rfl⟩ := List.mem_map.mp ho
    obtain ⟨hst, hrem⟩ := (settle_resting _ _ x).mp hst
    rw [settle_side] at hside
    rw [settle_price] at hcross
    have hmem := mem_reach.mpr ⟨hx, hst, hside, hcross⟩
    rw [Market.settle, if_pos hmem, MarketOrder.less, gets_all hsum hmem] at hrem
    exact hrem (Nat.sub_self _)
  · cases side <;> cases hside

end Market

section Venue

variable {s s' : Session cap} {conn : ConnId} {payload cid e : Bytes} {side : OrderSide}
  {p q : UInt32} {fills : List Sent}

/-- A call that acknowledges an order, on the market: the fills are the reports of its trades. -/
structure Acknowledged (s s' : Session cap) (conn : ConnId) (cid e : Bytes) (side : OrderSide)
    (p : UInt32) (q : ℕ) (fills : List Sent) (M : Market) : Prop where
  before : ∃ a, Tracks M s.venue a
  after : ∃ a, Tracks (M.accept conn cid side p q).1 s'.venue a
  room : (M.accept conn cid side p q).1.accepted < 2 ^ 64
  number : e = MarketOrder.exchangeId ⟨M.accepted + 1, conn, cid, side, p, q, false⟩
  reports : fills = Market.reports ⟨M.accepted + 1, conn, cid, side, p, q, false⟩
    (Market.trades (M.reach side p) q)

theorem acknowledged {events : List Event} (h : session build cap softCap events = .ok s)
    (hnew : IsNewOrder payload cid side p q)
    (hstep : s.step build (.line conn payload) = .ok s') (hlt : s'.accepted < 2 ^ 64)
    (hmsgs : s'.history =
      s.history ++ [(.line conn payload, (conn, .ack cid e) :: fills)]) :
    ∃ M, Acknowledged s s' conn cid e side p q.toNat fills M := by
  have hmono := Session.accepted_mono hstep
  obtain ⟨M, ⟨a, hM⟩, hcount⟩ := session_tracks h (lt_of_le_of_lt hmono hlt)
  have hlt' : M.accepted < 2 ^ 64 := hcount ▸ lt_of_le_of_lt hmono hlt
  obtain ⟨hhist, hM'⟩ := step_follows ⟨a, hM⟩ hstep hlt' fun _ h => by rw [hcount, ← h]; exact hlt
  have hlt₁ : (M.handle (.line conn payload)).1.accepted < 2 ^ 64 := by
    rw [accepted_handle, hcount, Session.accepted, ← acks_append, ← Session.messages_append hhist]
    exact hlt
  have hsame := List.append_cancel_left (hmsgs.symm.trans hhist)
  have hsent := (Prod.mk.inj (List.cons.inj hsame).1).2
  have haccept := accepted_of_ack hnew hsent.symm
  rw [haccept] at hsent hM' hlt₁
  obtain ⟨hack, hfills⟩ := List.cons.inj hsent
  refine ⟨M, ⟨a, hM⟩, hM', hlt₁, ?_, hfills⟩
  cases hack
  rfl

namespace Acknowledged

variable {M : Market} {q : ℕ}

theorem accepted_lt (h : Acknowledged s s' conn cid e side p q fills M) : M.accepted < 2 ^ 64 :=
  lt_of_le_of_lt (Nat.le_succ _) h.room

theorem exchangeId_ne (h : Acknowledged s s' conn cid e side p q fills M) {o : MarketOrder}
    (ho : o ∈ M.orders) : o.exchangeId ≠ e := by
  intro he
  obtain ⟨a, hM⟩ := h.before
  have hle := hM.issued o ho
  rw [h.number] at he
  rw [exchangeId_number.mp he] at hle
  exact Nat.not_succ_le_self _ hle

theorem filledQty (h : Acknowledged s s' conn cid e side p q fills M) :
    Exchange.filledQty e fills = min (s.venue.tables.reachable side p) q := by
  obtain ⟨a, hM⟩ := h.before
  rw [hM.reachable h.accepted_lt, ← sum_trades hM.numbered, h.reports, h.number]
  refine filledQty_own _ _ (fun x hx => ?_) fun x hx => ?_
  · obtain ⟨hx, hn, -⟩ := mem_trades.mp hx
    obtain ⟨ho, hst, -, -⟩ := mem_reach.mp hx
    rw [hn]
    exact lt_of_le_of_lt (min_le_left _ _) (hM.remaining_lt ho hst)
  · rw [← h.number]
    exact h.exchangeId_ne (mem_reach.mp (mem_trades.mp hx).1).1

end Acknowledged

/-- An accepted order is filled for all that is open within its limit, or for all of itself. What is
left of it rests, and then nothing within its limit does; if nothing is left, it does not rest. -/
theorem execution_is_maximal {events : List Event}
    (h : session build cap softCap events = .ok s) (hnew : IsNewOrder payload cid side p q)
    (hstep : s.step build (.line conn payload) = .ok s') (hlt : s'.accepted < 2 ^ 64)
    (hmsgs : s'.history =
      s.history ++ [(.line conn payload, (conn, .ack cid e) :: fills)]) :
    filledQty e fills = min (s.venue.tables.reachable side p) q.toNat ∧
    (filledQty e fills < q.toNat → s'.venue.tables.reachable side p = 0 ∧
      ∃ id, s'.venue.tables.live id =
        some ⟨conn, cid, e, side, p, .ofNat (q.toNat - filledQty e fills)⟩) ∧
    (filledQty e fills = q.toNat → ∀ id lo, s'.venue.tables.live id = some lo →
      lo.exchangeId ≠ e) := by
  obtain ⟨M, hack⟩ := acknowledged h hnew hstep hlt hmsgs
  obtain ⟨a, hM⟩ := hack.before
  obtain ⟨a', hM'⟩ := hack.after
  have hlt' := hack.accepted_lt
  have hkept : M.kept conn cid side p q.toNat ∈ (M.accept conn cid side p q.toNat).1.orders :=
    List.mem_append_right _ (List.mem_singleton_self _)
  have hleft : (M.kept conn cid side p q.toNat).remaining =
      q.toNat - min (s.venue.tables.reachable side p) q.toNat := by
    rw [hM.reachable hlt', ← sum_trades hM.numbered]
    rfl
  rw [hack.filledQty]
  refine ⟨rfl, fun hless => ⟨?_, (M.kept conn cid side p q.toNat).id, ?_⟩,
    fun hall id lo hlo he => ?_⟩
  · have hsum : ((M.reach side p).map MarketOrder.remaining).sum ≤ q.toNat := by
      rw [← hM.reachable hlt']
      omega
    rw [hM'.reachable hack.room, reach_accept hsum conn cid]
    rfl
  · refine (hM'.live_iff hack.room).mpr ⟨_, hkept, state_eq_resting.mpr ⟨rfl, ?_⟩, rfl, ?_⟩
    · rw [hleft]
      omega
    · rw [← hleft, hack.number]
      rfl
  · obtain ⟨o, ho, hst, -, rfl⟩ := (hM'.live_iff hack.room).mp hlo
    rw [accept_orders, List.mem_append, List.mem_singleton] at ho
    rcases ho with ho | rfl
    · obtain ⟨x, hx, rfl⟩ := List.mem_map.mp ho
      refine hack.exchangeId_ne hx ?_
      rw [← he]
      show x.exchangeId = (Market.settle _ _ x).exchangeId
      rw [exchangeId_number, settle_number]
    · have hrem := (state_eq_resting.mp hst).2
      rw [hleft, hall] at hrem
      exact hrem (Nat.sub_self _)

/-- A buyer of more than is offered. -/
def buyTen : Bytes := newOrderLine idA .buy 100 10 idA

/-- The fills of that buyer, and of those who sell. -/
def soldEight : List Sent :=
  [(3, .fill (exchangeId 3) idA.bytes 3 99 7), (2, .fill (exchangeId 2) idA.bytes 3 99 0),
    (3, .fill (exchangeId 3) idA.bytes 5 100 2), (1, .fill (exchangeId 1) idA.bytes 5 100 0)]

theorem execution_is_maximal_two_asks : ∃ s s' : Session 5,
    session .ndebug 5 4 twoAsks = .ok s ∧ s.step .ndebug (.line 3 buyTen) = .ok s' ∧
      s.venue.tables.reachable .buy 100 = 8 ∧ s'.venue.tables.reachable .buy 100 = 0 ∧
      ∃ id, s'.venue.tables.live id = some ⟨3, idA.bytes, exchangeId 3, .buy, 100, 2⟩ := by
  obtain ⟨s, hs, hp⟩ : ∃ s : Session 5, session .ndebug 5 4 twoAsks = .ok s ∧
      decide (s.venue.tables.reachable .buy 100 = 8 ∧
        (s.step .ndebug (.line 3 buyTen)).toOption.any (fun s' => decide (s'.accepted < 2 ^ 64 ∧
          s'.history = s.history ++ [(Event.line 3 buyTen,
            (3, .ack idA.bytes (exchangeId 3)) :: soldEight)])) = true) = true :=
    exists_session (by decide +kernel)
  obtain ⟨hreachable, hstep⟩ := of_decide_eq_true hp
  obtain ⟨s', hs', hp'⟩ := exists_ok hstep
  obtain ⟨hlt, hmsgs⟩ := of_decide_eq_true hp'
  have hnew : IsNewOrder buyTen idA.bytes .buy 100 10 := by
    constructor <;> decide +kernel
  have hfilled : filledQty (exchangeId 3) soldEight = 8 := by decide +kernel
  obtain ⟨-, hrests, -⟩ := execution_is_maximal hs hnew hs' hlt hmsgs
  rw [hfilled] at hrests
  obtain ⟨hnone, hlive⟩ := hrests (by decide)
  exact ⟨s, s', hs, hs', hreachable, hnone, hlive⟩

end Venue

end MarketMakerOps.Exchange
