import MarketMakerOps.Exchange.MarketTables

/-!
The venue is the market.

* `Tracks.handle`: a call on the venue is the call on the market, messages included;
* `venue_is_market`: after any calls the venue has sent, call by call, what the
  market sends, and shows the market's top of the book.
-/

namespace MarketMakerOps.Exchange

open Decimal Engine Priority Allotment Fallible

variable {cap softCap : Nat}

section Guards

variable {M : Market} {v v' : Venue cap} {a : PriorityBook cap} {conn : ConnId} {side : Side}
  {p : UInt32} {build : Build} {m : InboundMessage}

/-- As many live orders as resting ones. -/
theorem Tracks.liveCount (h : Tracks M v a) (hlt : M.accepted < 2 ^ 64) :
    v.tables.byEngineId.keys.length = (M.orders.filter fun o => o.state = .resting).length := by
  have hids : ((M.orders.filter fun o => o.state = .resting).map MarketOrder.id).Nodup := by
    refine List.Nodup.map_on (fun o ho o' ho' hid => ?_)
      ((h.numbered.imp fun hn he => hn.ne (congrArg MarketOrder.number he)).filter _)
    have hmem := (List.mem_filter.mp ho).1
    have hmem' := (List.mem_filter.mp ho').1
    exact h.numbered.inj hmem hmem' ((h.id_toNat hlt hmem).symm.trans
      ((congrArg UInt64.toNat hid).trans (h.id_toNat hlt hmem')))
  have hperm : v.tables.byEngineId.keys.Perm
      ((M.orders.filter fun o => o.state = .resting).map MarketOrder.id) := by
    refine (List.perm_ext_iff_of_nodup v.tables.byEngineId.keys_nodup hids).mpr fun id => ?_
    rw [← AList.mem_keys, ← AList.lookup_isSome, Option.isSome_iff_exists]
    constructor
    · rintro ⟨lo, hlo⟩
      obtain ⟨o, ho, hst, hid, -⟩ := (h.live_iff hlt).mp hlo
      exact List.mem_map.mpr ⟨o, List.mem_filter.mpr ⟨ho, decide_eq_true hst⟩, hid⟩
    · intro hm
      obtain ⟨o, ho, hid⟩ := List.mem_map.mp hm
      obtain ⟨ho, hst⟩ := List.mem_filter.mp ho
      exact ⟨o.entry, (h.live_iff hlt).mpr ⟨o, ho, of_decide_eq_true hst, hid, rfl⟩⟩
  rw [hperm.length_eq, List.length_map]

/-- The self-match check looks for an own order within reach. -/
theorem Tracks.wouldSelfCross (h : Tracks M v a) (hlt : M.accepted < 2 ^ 64) (conn : ConnId)
    (side : Side) (p : UInt32) : v.tables.wouldSelfCross conn side p = true ↔
      ∃ o ∈ M.reach side p, o.owner = conn := by
  have hside : ∀ s : Side, ∀ r : UInt32,
      ((side = .buy ∧ s = .sell ∧ p ≥ r) ∨ (side = .sell ∧ s = .buy ∧ p ≤ r)) ↔
        s = side.opposite ∧ crosses side p r = true := by
    intro s r
    cases side <;> simp [Side.opposite, crosses]
  simp only [Tables.wouldSelfCross, List.any_eq_true, decide_eq_true_eq, hside]
  constructor
  · rintro ⟨⟨id, lo⟩, hm, howner, hs, hc⟩
    obtain ⟨o, ho, hst, -, rfl⟩ := (h.live_iff hlt).mp (AList.mem_lookup_iff.mpr hm)
    exact ⟨o, mem_reach.mpr ⟨ho, hst, hs, hc⟩, howner⟩
  · rintro ⟨o, ho, howner⟩
    obtain ⟨ho, hst, hs, hc⟩ := mem_reach.mp ho
    exact ⟨⟨o.id, o.entry⟩, AList.mem_lookup_iff.mp ((h.live_iff hlt).mpr ⟨o, ho, hst, rfl, rfl⟩),
      howner, hs, hc⟩

/-- The messages and the market after a call are those of the venue. -/
def Follows (v v' : Venue cap) (r : Market × List Sent) : Prop :=
  v'.tables.sent = v.tables.sent ++ r.2 ∧ ∃ a', Tracks r.1 v' a'

/-- A refusal, after the connection's records are created or before. -/
theorem Tracks.refused (h : Tracks M v a) {w : Venue cap}
    (hw : w = v ∨ w = { v with tables := { v.tables with
      byConn := v.tables.byConn.insert conn ((v.tables.byConn.lookup conn).getD ∅) } })
    (x : Outbound) : Follows v (w.send conn x) (M, [(conn, x)]) := by
  rcases hw with rfl | rfl
  · exact ⟨rfl, a, h.quiet rfl rfl rfl rfl (fun _ _ => rfl) ⟨rfl, rfl⟩⟩
  · exact ⟨rfl, a, h.quiet rfl rfl rfl rfl (record_touch v.tables conn) ⟨rfl, rfl⟩⟩

/-- Accepting an order acknowledges it. -/
theorem Tracks.acks_submit (h : Tracks M v a) {cid : Bytes} {q : UInt32}
    (hsub : v.submit build conn cid side p q = .ok v') :
    acks v'.tables.sent = acks v.tables.sent + 1 := by
  obtain ⟨ts, -, -, -, hT, -⟩ := submit_spec h.synced.rep h.synced.wf hsub
  rw [hT, acks_afterTrades, entered_sent, acks_append]
  rfl

/-- A request to trade meets the market's objections in the market's order. -/
theorem Tracks.newOrder (h : Tracks M v a) {payload : Bytes}
    (hok : (parseInbound payload).parseError = none)
    (htype : (parseInbound payload).type = .newOrder)
    (hv : v.handleNewOrder build conn (parseInbound payload) = .ok v') (hlt : M.accepted < 2 ^ 64)
    (hacc : (M.order conn (parseInbound payload)).1.accepted = M.accepted + 1 →
      acks v'.tables.sent = acks v.tables.sent + 1 → M.accepted + 1 < 2 ^ 64) :
    Follows v v' (M.order conn (parseInbound payload)) := by
  set m := parseInbound payload with hm
  have hrefuse : ∀ {reason : RejectReason} {w : Venue cap} {cid : Bytes},
      m.clientOrderId.getD [] = cid → M.objection conn m = some reason →
      (w = v ∨ w = { v with tables := { v.tables with
        byConn := v.tables.byConn.insert conn ((v.tables.byConn.lookup conn).getD ∅) } }) →
      (.ok (w.send conn (.reject cid reason)) : Except Fault (Venue cap)) = .ok v' →
      Follows v v' (M.order conn m) := by
    rintro reason w cid rfl hobj hw hres
    cases hres
    rw [Market.order, hobj]
    exact h.refused hw _
  unfold Venue.handleNewOrder at hv
  split at hv
  · next hcid => exact hrefuse (by rw [hcid]; rfl) (by simp [Market.objection, hcid]) (.inl rfl) hv
  · next cid hcid =>
    have hname : m.clientOrderId.getD [] = cid := by rw [hcid]; rfl
    split at hv
    · next hsym => exact hrefuse hname (by simp [Market.objection, hcid, hsym]) (.inl rfl) hv
    · next hsym =>
      split at hv
      · next hside =>
        exact hrefuse hname (by simp [Market.objection, hcid, hsym, hside]) (.inl rfl) hv
      · next side hside =>
        split at hv
        · next hp =>
          exact hrefuse hname (by simp [Market.objection, hcid, hsym, hside, hp]) (.inl rfl) hv
        · next p hp =>
          split at hv
          · next hq =>
            exact hrefuse hname (by simp [Market.objection, hcid, hsym, hside, hp, hq]) (.inl rfl)
              hv
          · next q hq =>
            split at hv
            · next hpos =>
              exact hrefuse hname (by simp [Market.objection, hcid, hsym, hside, hp, hq, hpos])
                (.inl rfl) hv
            · next hpos =>
              simp only at hv
              have hdup : cid ∈ (v.tables.byConn.lookup conn).getD ∅ ↔
                  (M.called conn cid).isSome = true := by
                rw [← not_iff_not, ← record_eq_none, h.untaken,
                  Option.not_isSome_iff_eq_none]
              split at hv
              · next hmem =>
                have hobj : M.objection conn m = some .duplicateClientOrderId := by
                  simp [Market.objection, hcid, hsym, hside, hp, hq, hpos, hdup.mp hmem]
                exact hrefuse hname hobj (.inr rfl) hv
              · next hfresh =>
                have hnew : M.called conn cid = none :=
                  Option.not_isSome_iff_eq_none.mp (mt hdup.mpr hfresh)
                have hcount := h.liveCount hlt
                split at hv
                · next hfull =>
                  have hobj : M.objection conn m = some .venueFull := by
                    simp only [ge_iff_le] at hfull
                    rw [hcount, ← h.soft] at hfull
                    simp [Market.objection, hcid, hsym, hside, hp, hq, hpos, hnew, hfull]
                  exact hrefuse hname hobj (.inr rfl) hv
                · next hroom =>
                  have hroom' :
                      ¬ M.softCap ≤ (M.orders.filter fun o => o.state = .resting).length := by
                    rw [← hcount, h.soft]
                    exact hroom
                  split at hv
                  · next hcross =>
                    have hself := (h.wouldSelfCross hlt conn side p).mp hcross
                    have hobj : M.objection conn m = some .selfMatch := by
                      simp [Market.objection, hcid, hsym, hside, hp, hq, hpos, hnew, hroom', hself]
                    exact hrefuse hname hobj (.inr rfl) hv
                  · next hcross =>
                    have hself := mt (h.wouldSelfCross hlt conn side p).mpr hcross
                    have hobj : M.objection conn m = none := by
                      simp [Market.objection, hcid, hsym, hside, hp, hq, hpos, hnew, hroom', hself]
                    have horder : M.order conn m = M.accept conn cid side p q.toNat := by
                      simp [Market.order, hobj, hcid, hside, hp, hq]
                    rw [submit_touch] at hv
                    rw [horder] at hacc ⊢
                    exact h.accept (hacc rfl (h.acks_submit hv))
                      ⟨⟨hok, htype, hcid, not_not.mp hsym, hside, hp, hq⟩, hpos,
                      record_eq_none.mpr hfresh, not_le.mp hroom,
                      Bool.eq_false_iff.mpr hcross⟩ hv

theorem Tracks.withdraw (h : Tracks M v a) (hlt : M.accepted < 2 ^ 64)
    (hv : v.handleCancel build conn m = .ok v') : Follows v v' (M.withdraw conn m) := by
  have hrefuse : ∀ {reason : CancelRejectReason} {cid : Bytes}, m.clientOrderId.getD [] = cid →
      Market.cancelObjection (m.clientOrderId.bind (M.called conn)) = some reason →
      (.ok (v.send conn (.cancelReject cid reason)) : Except Fault (Venue cap)) = .ok v' →
      Follows v v' (M.withdraw conn m) := by
    rintro reason cid rfl hobj hres
    cases hres
    rw [Market.withdraw, hobj]
    exact h.refused (.inl rfl) _
  have hrecord : ∀ cid, v.tables.record conn cid = (M.called conn cid).map MarketOrder.record :=
    h.record conn
  unfold Venue.handleCancel at hv
  split at hv
  · next hcid => exact hrefuse (by rw [hcid]; rfl) (by simp [hcid, Market.cancelObjection]) hv
  · next cid hcid =>
    have hname : m.clientOrderId.getD [] = cid := by rw [hcid]; rfl
    have hnamed : m.clientOrderId.bind (M.called conn) = M.called conn cid := by rw [hcid]; rfl
    have hcid' := hrecord cid
    split at hv
    · next hnone =>
      rw [Tables.record, hnone] at hcid'
      have hno := Option.map_eq_none_iff.mp hcid'.symm
      exact hrefuse hname (by simp [hnamed, hno, Market.cancelObjection]) hv
    · next records hrecords =>
      rw [Tables.record, hrecords, Option.bind_some] at hcid'
      split at hv
      · next hnone =>
        rw [hnone] at hcid'
        have hno := Option.map_eq_none_iff.mp hcid'.symm
        exact hrefuse hname (by simp [hnamed, hno, Market.cancelObjection]) hv
      · next r hr =>
        rw [hr] at hcid'
        obtain ⟨o, ho, rfl⟩ := Option.map_eq_some_iff.mp hcid'.symm
        split at hv
        · next hst =>
          have hst : o.state = .filled := hst
          exact hrefuse hname (by simp [hnamed, ho, Market.cancelObjection, hst]) hv
        · next hst =>
          have hst : o.state = .cancelled := hst
          exact hrefuse hname (by simp [hnamed, ho, Market.cancelObjection, hst]) hv
        · next hst =>
          have hst : o.state = .resting := hst
          obtain ⟨book, hbook, hres⟩ := bind_eq_ok.mp hv
          have hv' : v.cancelled conn cid o.record book = v' := by
            simp only [Venue.cancelled, hrecords, Option.getD_some]
            exact Except.ok.inj hres
          have hwithdraw : M.withdraw conn m =
              (M.withdrawn conn cid, [(conn, .cancelAck cid o.exchangeId)]) := by
            simp [Market.withdraw, hnamed, ho, Market.cancelObjection, hst, hname]
            rfl
          rw [hwithdraw, ← hv']
          exact ⟨rfl, _, h.cancel hlt ho hbook⟩

end Guards

section Calls

variable {M : Market} {v v' : Venue cap} {a : PriorityBook cap} {ev : Event} {build : Build}

/-- A call on the venue is the call on the market. -/
theorem Tracks.handle (h : Tracks M v a) (hv : v.handle build ev = .ok v')
    (hlt : M.accepted < 2 ^ 64) (hacc : (M.handle ev).1.accepted = M.accepted + 1 →
      acks v'.tables.sent = acks v.tables.sent + 1 → M.accepted + 1 < 2 ^ 64) :
    Follows v v' (M.handle ev) := by
  cases ev with
  | drop conn =>
    obtain ⟨hsent, hM⟩ := h.drop hv
    exact ⟨hsent.trans (List.append_nil _).symm, hM⟩
  | line conn payload =>
    simp only [Venue.handle, Venue.handleLine, Venue.handleMessage] at hv
    simp only [Market.handle] at hacc ⊢
    split at hv
    · next hbad =>
      cases hv
      rw [if_pos hbad]
      exact h.refused (.inl rfl) _
    · next hread =>
      rw [if_neg hread] at hacc ⊢
      have hok : (parseInbound payload).parseError = none := by
        rw [← Option.not_isSome_iff_eq_none]
        exact fun hs => hread (Or.inl hs)
      split at hv
      · next ht =>
        rw [if_pos ht] at hacc ⊢
        exact h.newOrder hok ht hv hlt hacc
      · next ht =>
        rw [if_neg (by simp [ht]), if_pos ht]
        exact h.withdraw hlt hv
      · next ht =>
        cases hv
        rw [if_neg (by simp [ht]), if_neg (by simp [ht])]
        exact ⟨(List.append_nil _).symm, a, h⟩
      · next ht => exact absurd (Or.inr ht) hread

theorem acks_reports (inc : MarketOrder) (ts : List (MarketOrder × ℕ)) :
    acks (Market.reports inc ts) = 0 := by
  induction ts generalizing inc with
  | nil => rfl
  | cons x ts ih =>
    rw [Market.reports, acks_append, ih]
    cases inc.side <;> rfl

/-- An order is accepted by acknowledging it. -/
theorem accepted_handle (M : Market) (ev : Event) :
    (M.handle ev).1.accepted = M.accepted + acks (M.handle ev).2 := by
  have hack : ∀ (x : Sent) (msgs : List Sent), acks (x :: msgs) = acks [x] + acks msgs :=
    fun x msgs => acks_append [x] msgs
  cases ev with
  | drop conn => rfl
  | line conn payload =>
    simp only [Market.handle]
    split
    · rfl
    · split
      · unfold Market.order
        split
        · rfl
        · rw [Market.accept, hack, acks_reports]
          rfl
      · split
        · unfold Market.withdraw
          simp only
          split
          · rfl
          · cases ((parseInbound payload).clientOrderId.bind (M.called conn)) <;> rfl
        · rfl

theorem accepted_run (M : Market) (events : List Event) :
    (M.run events).1.accepted = M.accepted + acks ((M.run events).2.flatMap Prod.snd) := by
  induction events generalizing M with
  | nil => rfl
  | cons ev events ih =>
    rw [Market.run, List.flatMap_cons, acks_append, ih, accepted_handle, Nat.add_assoc]

/-- The best price of a side is the price of the order that is first in line. -/
theorem Tracks.bestPrice (h : Tracks M v a) (s : Side) :
    ((v.book.levels s).getLast?).map PriceLevel.price =
      (M.resting s).head?.map MarketOrder.price := by
  have hhead := congrArg List.head? (h.queued s)
  rw [List.head?_map, List.head?_map] at hhead
  have hprice := congrArg (Option.map MarketOrder.price) hhead
  rw [Option.map_map, Option.map_map] at hprice
  refine Eq.trans ?_ hprice
  cases hP : a.queue s with
  | nil => rw [(h.synced.rep.levels s).eq_nil_iff.mpr hP]; rfl
  | cons e P =>
    have hlevels := h.synced.rep.levels s
    rw [hP] at hlevels
    obtain ⟨L, pl, q, P', hL, -, hl, -⟩ := hlevels.last
    rw [hL, List.getLast?_concat]
    exact congrArg some (hl.price e List.mem_cons_self).symm

theorem Tracks.top (h : Tracks M v a) : v.currentTop = M.top := by
  have hsome : ∀ s : Side, ((v.book.levels s).getLast?).isSome = (M.resting s).head?.isSome := by
    intro s
    have hp := congrArg Option.isSome (h.bestPrice s)
    rwa [Option.isSome_map, Option.isSome_map] at hp
  have hbid : v.book.bestBid.map PriceLevel.price = _ := h.bestPrice .buy
  have hask : v.book.bestAsk.map PriceLevel.price = _ := h.bestPrice .sell
  have hbid' : v.book.bestBid.isSome = _ := hsome .buy
  have hask' : v.book.bestAsk.isSome = _ := hsome .sell
  rw [Venue.currentTop, Market.top, hbid, hask, hbid', hask', h.last.1, h.last.2]

end Calls

/-! ## Runs -/

section Runs

variable {M : Market} {events : List Event} {build : Build} {s s' : Session cap}

theorem Tracks.cleared {v : Venue cap} {a : PriorityBook cap} (h : Tracks M v a) :
    Tracks M v.cleared a := h.quiet rfl rfl rfl rfl (fun _ _ => rfl) ⟨rfl, rfl⟩

theorem step_follows {ev : Event} (h : ∃ a, Tracks M s.venue a) (hstep : s.step build ev = .ok s')
    (hlt : M.accepted < 2 ^ 64) (hacc : (M.handle ev).1.accepted = M.accepted + 1 →
      s'.accepted = s.accepted + 1 → M.accepted + 1 < 2 ^ 64) :
    s'.history = s.history ++ [(ev, (M.handle ev).2)] ∧
      ∃ a, Tracks (M.handle ev).1 s'.venue a := by
  obtain ⟨v', hv', rfl⟩ := Session.step_eq_ok.mp hstep
  obtain ⟨a, h⟩ := h
  obtain ⟨hsent, h'⟩ := h.cleared.handle hv' hlt fun h₁ h₂ => hacc h₁ (by
    rw [Session.accepted_concat, h₂]
    exact congrArg _ (Nat.zero_add 1))
  exact ⟨by rw [show v'.tables.sent = (M.handle ev).2 from hsent], h'⟩

theorem run_follows (h : ∃ a, Tracks M s.venue a)
    (hrun : Fallible.run (Session.step build) s events = .ok s')
    (hlt : (M.run events).1.accepted < 2 ^ 64) :
    s'.history = s.history ++ (M.run events).2 ∧ ∃ a, Tracks (M.run events).1 s'.venue a := by
  induction events generalizing M s with
  | nil =>
    cases hrun
    exact ⟨(List.append_nil _).symm, h⟩
  | cons ev events ih =>
    obtain ⟨s₁, hstep, hrun⟩ := bind_eq_ok.mp hrun
    have hnext : (M.handle ev).1.accepted < 2 ^ 64 :=
      lt_of_le_of_lt ((accepted_run _ events).symm ▸ Nat.le_add_right _ _) hlt
    have hnow : M.accepted < 2 ^ 64 :=
      lt_of_le_of_lt ((accepted_handle M ev).symm ▸ Nat.le_add_right _ _) hnext
    obtain ⟨hone, h₁⟩ := step_follows h hstep hnow fun heq _ => heq ▸ hnext
    obtain ⟨hhist, hend⟩ := ih h₁ hrun hlt
    refine ⟨hhist.trans ?_, hend⟩
    rw [hone, List.append_assoc]
    rfl

/-- With assertions compiled out and room beyond the soft cap, every run succeeds. -/
theorem run_succeeds (h : ∃ a, Tracks M s.venue a) (hcap : s.venue.softCap < cap)
    (hlt : (M.run events).1.accepted < 2 ^ 64) :
    ∃ s', Fallible.run (Session.step .ndebug) s events = .ok s' := by
  induction events generalizing M s with
  | nil => exact ⟨s, rfl⟩
  | cons ev events ih =>
    obtain ⟨a, ha⟩ := h
    obtain ⟨v', hv'⟩ := ha.cleared.synced.handle_total hcap ev
    have hstep : s.step .ndebug ev = .ok ⟨s.history ++ [(ev, v'.tables.sent)], v'⟩ :=
      Session.step_eq_ok.mpr ⟨v', hv', rfl⟩
    have hnext : (M.handle ev).1.accepted < 2 ^ 64 :=
      lt_of_le_of_lt ((accepted_run _ events).symm ▸ Nat.le_add_right _ _) hlt
    have hnow : M.accepted < 2 ^ 64 :=
      lt_of_le_of_lt ((accepted_handle M ev).symm ▸ Nat.le_add_right _ _) hnext
    obtain ⟨-, h₁⟩ := step_follows ⟨a, ha⟩ hstep hnow fun heq _ => heq ▸ hnext
    have hcap' : v'.softCap < cap := (handle_softCap hv').symm ▸ hcap
    obtain ⟨s', hs'⟩ := ih (s := ⟨s.history ++ [(ev, v'.tables.sent)], v'⟩) h₁ hcap' hlt
    exact ⟨s', by rw [run_cons, hstep]; exact hs'⟩

/-- A new venue is a market just opened. -/
theorem Tracks.opened {v : Venue cap} (h : Venue.new cap softCap = .ok v) :
    Tracks (Market.opened softCap) v (PriorityBook.empty cap) := by
  obtain ⟨hsoft, hsynced⟩ := Venue.new_eq_ok h
  obtain ⟨b, -, hv⟩ := bind_eq_ok.mp h
  cases hv
  exact ⟨hsynced, fun _ => rfl, List.Pairwise.nil, fun o ho => (List.not_mem_nil ho).elim,
    List.nodup_nil, fun _ _ => rfl, ⟨rfl, rfl⟩, hsoft.symm⟩

theorem new_succeeds (hcap : softCap < cap) : ∃ v : Venue cap, Venue.new cap softCap = .ok v := by
  obtain ⟨pool, hpool, -⟩ := OrderPool.new_spec (Nat.zero_lt_of_lt hcap)
  rw [Venue.new, OrderBook.new, hpool]
  exact ⟨_, rfl⟩

/-- Every reached venue is some market that has accepted as many orders. -/
theorem session_tracks {events : List Event} (h : session build cap softCap events = .ok s)
    (hlt : s.accepted < 2 ^ 64) : ∃ M, (∃ a, Tracks M s.venue a) ∧ M.accepted = s.accepted := by
  refine session_inv (fun s => s.accepted < 2 ^ 64 →
    ∃ M, (∃ a, Tracks M s.venue a) ∧ M.accepted = s.accepted)
    (fun v hv _ => ⟨_, ⟨_, Tracks.opened hv⟩, rfl⟩) (fun s ev s' hs hstep hlt => ?_) h hlt
  have hmono := Session.accepted_mono hstep
  obtain ⟨M, hM, hcount⟩ := hs (lt_of_le_of_lt hmono hlt)
  obtain ⟨hhist, hM'⟩ := step_follows hM hstep (hcount ▸ lt_of_le_of_lt hmono hlt)
    fun _ h => by rw [hcount, ← h]; exact hlt
  refine ⟨_, hM', ?_⟩
  rw [accepted_handle, hcount, Session.accepted, Session.accepted, Session.messages_append hhist,
    acks_append]

/-- Whatever calls arrive, the venue sends call by call what the market sends and shows the market's
top of the book, as long as fewer than `2 ^ 64` orders are accepted; with assertions compiled out
and room beyond the soft cap it never fails. -/
theorem venue_is_market (softCap : ℕ) (events : List Event)
    (hlt : ((Market.opened softCap).run events).1.accepted < 2 ^ 64) :
    (∀ build, ∀ s : Session cap, session build cap softCap events = .ok s →
      s.history = ((Market.opened softCap).run events).2 ∧
      s.venue.currentTop = ((Market.opened softCap).run events).1.top) ∧
    (softCap < cap → ∃ s : Session cap, session .ndebug cap softCap events = .ok s) := by
  refine ⟨fun build s hs => ?_, fun hcap => ?_⟩
  · obtain ⟨v, hv, hrun⟩ := bind_eq_ok.mp hs
    obtain ⟨hhist, a, h⟩ := run_follows (s := Session.start v) ⟨_, Tracks.opened hv⟩ hrun hlt
    exact ⟨hhist, h.top⟩
  · obtain ⟨v, hv⟩ := new_succeeds hcap
    have hsoft : (Session.start v).venue.softCap < cap := (Venue.new_eq_ok hv).1.symm ▸ hcap
    obtain ⟨s, hs⟩ := run_succeeds (s := Session.start v) ⟨_, Tracks.opened hv⟩ hsoft hlt
    exact ⟨s, by rw [session, hv]; exact hs⟩

/-- Two offers, a buyer who takes one and part of the other, a withdrawal, and a disconnect. -/
def twoOffers : List Event :=
  [.line 1 (newOrderLine idA .sell 100 5 idA), .line 2 (newOrderLine idA .sell 99 3 idA),
    .line 3 (newOrderLine idA .buy 100 4 idA), .line 1 (cancelLine idA idA), .drop 2]

theorem venue_is_market_two_offers : ∃ s : Session 5, session .ndebug 5 4 twoOffers = .ok s ∧
    s.history = ((Market.opened 4).run twoOffers).2 ∧
    s.venue.currentTop = ⟨false, 0, false, 0, true, 100⟩ := by
  have hlt : ((Market.opened 4).run twoOffers).1.accepted < 2 ^ 64 := by decide +kernel
  obtain ⟨hsame, hex⟩ := @venue_is_market 5 4 twoOffers hlt
  obtain ⟨s, hs⟩ := hex (by decide)
  obtain ⟨hhist, htop⟩ := hsame _ s hs
  exact ⟨s, hs, hhist, htop.trans (by decide +kernel)⟩

end Runs

end MarketMakerOps.Exchange
