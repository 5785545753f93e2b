import MarketMakerOps.Exchange.Capacity
import MarketMakerOps.Exchange.Renaming

/-!
What a request is answered, and that a refused one leaves no trace.

* `Replies`: the messages a request may cause, by its kind;
* `Aborted`: a call that ends in a fault, with what it has sent by then;
* `Venue.Alike`: two venues no later call can tell apart;
* `trace_alike`: they answer alike;
* `one_reply`: each request gets its one reply, and a refusal changes nothing.
-/

namespace MarketMakerOps.Exchange

open Decimal Engine Fallible

variable {cap softCap : Nat} {build : Build}

def Outbound.isFill : Outbound → Bool
  | .fill .. => true
  | _ => false

/-- A REJECT or CANCEL_REJECT. -/
def Outbound.isRefusal : Outbound → Bool
  | .reject .. => true
  | .cancelReject .. => true
  | _ => false

/-- The messages a request causes. -/
def Replies (conn : ConnId) (m : InboundMessage) (msgs : List Sent) : Prop :=
  if m.parseError.isSome ∨ m.type = .unknown then ∃ cid reason, msgs = [(conn, .reject cid reason)]
  else
    match m.type with
    | .heartbeat => msgs = []
    | .newOrder => (∃ cid reason, msgs = [(conn, .reject cid reason)]) ∨
        ∃ cid e fills, msgs = (conn, .ack cid e) :: fills ∧ ∀ f ∈ fills, f.2.isFill = true
    | .cancel => (∃ cid e, msgs = [(conn, .cancelAck cid e)]) ∨
        ∃ cid reason, msgs = [(conn, .cancelReject cid reason)]
    | .unknown => False

theorem Refusal.replies {conn : ConnId} {m : InboundMessage} {msgs : List Sent}
    (h : Refusal conn m msgs) : Replies conn m msgs := by
  cases h with
  | heartbeat readable type => simp [Replies, readable, type]
  | malformed cid reason _ unreadable => simp [Replies, unreadable]
  | newOrder cid reason _ readable type => simp [Replies, readable, type]
  | cancel cid reason _ readable type => simp [Replies, readable, type]

section Fills

variable (T : Tables)

theorem fills_routeFill (id : UInt64) (p q : UInt32) : ∃ fills,
    (T.routeFill id p q).sent = T.sent ++ fills ∧ ∀ f ∈ fills, f.2.isFill = true := by
  cases hl : T.live id with
  | none => exact ⟨[], by rw [Tables.routeFill_of_none hl, List.append_nil], by simp⟩
  | some lo => exact ⟨_, (Tables.routeFill_spec hl).2.1, by simp [Outbound.isFill]⟩

/-- The callback sends fills and nothing else. -/
theorem fills_afterTrades (ts : List Trade) : ∃ fills,
    (T.afterTrades ts).sent = T.sent ++ fills ∧ ∀ f ∈ fills, f.2.isFill = true := by
  induction ts generalizing T with
  | nil => exact ⟨[], (List.append_nil _).symm, by simp⟩
  | cons t ts ih =>
    obtain ⟨fs₁, h₁, hf₁⟩ := fills_routeFill
      { T with lastTradeTicks := t.price, hasLastTrade := true } t.buyOrderId t.price t.quantity
    obtain ⟨fs₂, h₂, hf₂⟩ := fills_routeFill (Tables.routeFill t.buyOrderId t.price t.quantity
      { T with lastTradeTicks := t.price, hasLastTrade := true }) t.sellOrderId t.price t.quantity
    obtain ⟨fs₃, h₃, hf₃⟩ := ih (T.onTrade t)
    refine ⟨fs₁ ++ fs₂ ++ fs₃, ?_, ?_⟩
    · show ((T.onTrade t).afterTrades ts).sent = _
      rw [h₃, Tables.onTrade, h₂, h₁]
      simp
    · intro f hf
      rw [List.mem_append, List.mem_append] at hf
      rcases hf with (hf | hf) | hf
      · exact hf₁ f hf
      · exact hf₂ f hf
      · exact hf₃ f hf

/-- An accepted order is acknowledged, and then its fills are sent. -/
theorem submit_sent {v v' : Venue cap} (hsound : v.book.Sound) (hsent : v.tables.sent = [])
    {conn : ConnId} {cid : Bytes} {side : OrderSide} {p q : UInt32}
    (hsub : v.submit build conn cid side p q = .ok v') : ∃ fills,
    v'.tables.sent = (conn, .ack cid (exchangeId v.nextEngineId)) :: fills ∧
      ∀ f ∈ fills, f.2.isFill = true := by
  obtain ⟨a, hrep, hwf⟩ := hsound
  obtain ⟨ts, -, -, -, hT, -⟩ := submit_spec hrep hwf hsub
  obtain ⟨fills, hfills, hf⟩ := fills_afterTrades (v.entered conn cid side p q) ts
  refine ⟨fills, ?_, hf⟩
  rw [hT, hfills, entered_sent, hsent]
  rfl

theorem handle_replies {v v' : Venue cap} (hsound : v.book.Sound) (hsent : v.tables.sent = [])
    {conn : ConnId} {payload : Bytes} (hv : v.handle build (.line conn payload) = .ok v') :
    Replies conn (parseInbound payload) v'.tables.sent := by
  cases handled_ok hv with
  | quiet result msgs _ _ _ _ _ sent _ reply =>
    cases result
    rw [sent, hsent]
    exact reply.replies
  | accept accepts result =>
    obtain ⟨fills, hmsgs, hf⟩ := submit_sent hsound hsent result.symm
    simp only [Replies, accepts.readable, accepts.type, Option.isSome_none, Bool.false_eq_true,
      reduceCtorEq, or_self, if_false]
    exact Or.inr ⟨_, _, fills, hmsgs, hf⟩
  | cancel isCancel _ _ result =>
    obtain ⟨book, -, hv'⟩ := bind_eq_ok.mp result.symm
    cases hv'
    simp only [Replies, isCancel.readable, isCancel.type, Option.isSome_none, Bool.false_eq_true,
      reduceCtorEq, or_self, if_false]
    rw [cancelled_sent, hsent]
    exact Or.inl ⟨_, _, rfl⟩

end Fills

/-! ## Calls that do not return -/

/-- An order in the slot it was given, before it is matched. -/
def placed (b : OrderBook cap) (pool : OrderPool cap) (order : Fin cap) (side : Side)
    (price quantity : UInt32) (id participantId : UInt64) : OrderBook cap :=
  { b with
    pool := { pool with
      orders := Function.update pool.orders order
        ((pool.orders order).init id price quantity b.sequence side participantId) }
    sequence := b.sequence + 1 }

/-- A call that ends in a fault, and the tables by then. Its order has passed every check and is
entered and acknowledged; there is no slot for it, or the fault comes after it was matched. -/
inductive Aborted (build : Build) (v : Venue cap) (conn : ConnId) (payload : Bytes) (f : Fault) :
    Tables → Prop
  | unplaced {cid : Bytes} {side : OrderSide} {p q : UInt32}
      (accepts : Accepts v conn payload cid side p q)
      (full : v.book.pool.allocate build = .error f) :
      Aborted build v conn payload f (v.entered conn cid side p q)
  | matched {cid : Bytes} {side : OrderSide} {p q : UInt32} {order : Fin cap}
      {pool : OrderPool cap} {T : Tables} {b : OrderBook cap}
      (accepts : Accepts v conn payload cid side p q)
      (slot : v.book.pool.allocate build = .ok (order, pool))
      (swept : (placed v.book pool order side p q v.nextEngineId conn).matchIncoming build
        Tables.onTrade side p (v.entered conn cid side p q) order = .ok (T, b))
      (fault : (if 0 < (b.pool.orders order).quantity then
        b.restIncoming build side p v.nextEngineId order
      else do
        let pool ← b.pool.deallocate build order
        pure { b with pool := pool }) = .error f) : Aborted build v conn payload f T

/-- Refusals and cancels always return; an order that does not was acknowledged, and then its fills
were sent. -/
theorem handle_aborted {v : Venue cap} (hsound : v.book.Sound) (hsent : v.tables.sent = [])
    {conn : ConnId} {payload : Bytes} {f : Fault}
    (hv : v.handle build (.line conn payload) = .error f) : ∃ T, Aborted build v conn payload f T ∧
      Replies conn (parseInbound payload) T.sent := by
  obtain ⟨a, hrep, hwf⟩ := hsound
  cases handled build v (.line conn payload) with
  | quiet result =>
    rw [hv] at result
    cases result
  | cancel isCancel record resting result =>
    obtain ⟨b, hb, -⟩ := cancelOrder_sim build hrep hwf _
    rw [hv, hb] at result
    cases result
  | @accept _ _ cid side p q _ accepts result =>
    have hacked : ∀ ts : List Trade, Replies conn (parseInbound payload)
        ((v.entered conn cid side p q).afterTrades ts).sent := by
      intro ts
      obtain ⟨fills, hfills, hf⟩ := fills_afterTrades (v.entered conn cid side p q) ts
      simp only [Replies, accepts.readable, accepts.type, Option.isSome_none, Bool.false_eq_true,
        reduceCtorEq, or_self, if_false]
      refine Or.inr ⟨cid, exchangeId v.nextEngineId, fills, ?_, hf⟩
      rw [hfills, entered_sent, hsent]
      rfl
    rw [hv, Venue.submit] at result
    have hpool := hrep.pool
    cases hfree : a.free with
    | nil =>
      rw [hfree] at hpool
      have halloc := OrderPool.allocate_empty build hpool
      simp only [OrderBook.addLimitOrder, halloc, error_bind] at result
      cases result
      exact ⟨_, .unplaced accepts halloc, hacked []⟩
    | cons s free =>
      rw [hfree] at hpool
      obtain ⟨pool, halloc, hpool', horders⟩ := OrderPool.allocate_spec build hpool
      have hmid := mid_of_allocate side p q v.nextEngineId conn hrep
        (perm_finRange_iff.mp hwf.slots).1 hfree hpool' horders
      obtain ⟨b, hmatch, -⟩ := matchIncoming_spec build Tables.onTrade
        (v.entered conn cid side p q) hmid
      refine ⟨_, .matched accepts halloc hmatch ?_, hacked _⟩
      have hadd := eq_error_of_bind result.symm fun _ => ok_ne_error _ _
      simp only [OrderBook.addLimitOrder, halloc, ok_bind, hmatch] at hadd
      -- what follows the book's last step cannot fail
      split at hadd
      · next hleft =>
        rw [if_pos hleft]
        exact eq_error_of_bind hadd fun _ => ok_ne_error _ _
      · next hleft =>
        rw [if_neg hleft, eq_error_of_bind hadd fun _ => ok_ne_error _ _]
        rfl

/-- Why an order is refused as a duplicate, or as crossing an order of its own connection. -/
theorem newOrder_refused {v v' : Venue cap} {conn : ConnId} {m : InboundMessage}
    (hsound : v.book.Sound) (hsent : v.tables.sent = [])
    (hv : v.handleNewOrder build conn m = .ok v') {conn' : ConnId} {cid' : Bytes}
    {reason : RejectReason} (hr : (conn', .reject cid' reason) ∈ v'.tables.sent) :
    (reason = .duplicateClientOrderId → ∃ cid r, m.clientOrderId = some cid ∧
      v.tables.record conn cid = some r) ∧
    (reason = .selfMatch → ∃ side p, m.side = some side ∧ m.priceTicks = some p ∧
      v.tables.wouldSelfCross conn side p = true) := by
  have hreply : ∀ {w : Venue cap} {cid : Bytes} {x : RejectReason},
      Except.ok (w.send conn (.reject cid x)) = (.ok v' : Except Fault (Venue cap)) →
        w.tables.sent = [] → reason = x := by
    intro w cid x hv hw
    cases hv
    have hm : (conn', Outbound.reject cid' reason) ∈ w.tables.sent ++ [(conn, .reject cid x)] := hr
    rw [hw, List.nil_append, List.mem_singleton] at hm
    cases hm
    rfl
  have hother : ∀ {x : RejectReason}, reason = x → x ≠ .duplicateClientOrderId → x ≠ .selfMatch →
      (reason = .duplicateClientOrderId → ∃ cid r, m.clientOrderId = some cid ∧
        v.tables.record conn cid = some r) ∧
      (reason = .selfMatch → ∃ side p, m.side = some side ∧ m.priceTicks = some p ∧
        v.tables.wouldSelfCross conn side p = true) := by
    rintro x rfl hdup hself
    exact ⟨fun h => absurd h hdup, fun h => absurd h hself⟩
  unfold Venue.handleNewOrder at hv
  split at hv
  · exact hother (hreply hv hsent) (by decide) (by decide)
  · next cid hcid =>
    split at hv
    · exact hother (hreply hv hsent) (by decide) (by decide)
    · split at hv
      · exact hother (hreply hv hsent) (by decide) (by decide)
      · next side hside =>
        split at hv
        · exact hother (hreply hv hsent) (by decide) (by decide)
        · next p hp =>
          split at hv
          · exact hother (hreply hv hsent) (by decide) (by decide)
          · next q hq =>
            split at hv
            · exact hother (hreply hv hsent) (by decide) (by decide)
            · simp only at hv
              split at hv
              · next hdup =>
                refine ⟨fun _ => ?_, fun h => ?_⟩
                · obtain ⟨r, hr⟩ := Option.ne_none_iff_exists'.mp
                    (mt record_eq_none.mp (not_not.mpr hdup))
                  exact ⟨cid, r, hcid, hr⟩
                · rw [hreply hv hsent] at h
                  cases h
              · split at hv
                · exact hother (hreply hv hsent) (by decide) (by decide)
                · split at hv
                  · next hcross =>
                    refine ⟨fun h => ?_, fun _ => ⟨side, p, hside, hp, hcross⟩⟩
                    rw [hreply hv hsent] at h
                    cases h
                  · rw [submit_touch] at hv
                    -- an accepted order is not refused
                    obtain ⟨fills, hfills, hf⟩ := submit_sent hsound hsent hv
                    rw [hfills] at hr
                    rcases List.mem_cons.mp hr with hr | hr
                    · cases hr
                    · cases hf _ hr

/-! ## Venues that answer alike -/

/-- Tables with the same entries, records and messages. -/
structure Tables.Alike (T T' : Tables) : Prop where
  lastTrade : T.hasLastTrade = T'.hasLastTrade
  lastTicks : T.lastTradeTicks = T'.lastTradeTicks
  byEngineId : T.byEngineId = T'.byEngineId
  record : ∀ c cid, T.record c cid = T'.record c cid
  sent : T.sent = T'.sent

namespace Venue

/-- The same tables, and books that represent the same priority book. -/
structure Alike (v v' : Venue cap) : Prop where
  soft : v.softCap = v'.softCap
  clock : v.nextEngineId = v'.nextEngineId
  tables : v.tables.Alike v'.tables
  books : ∃ a, v.book.Rep a ∧ v'.book.Rep a ∧ a.WF

variable {v v' : Venue cap}

theorem Alike.renamed (h : v.Alike v') : v.Renamed (Renaming.none fun _ => true) v' := by
  obtain ⟨a, hrep, hrep', hwf⟩ := h.books
  refine ⟨h.soft.symm, h.clock.symm, ⟨h.tables.lastTrade.symm, h.tables.lastTicks.symm,
    fun id => ?_, fun c cid => (h.tables.record c cid).symm, by rw [h.tables.sent]⟩,
    _, a, a, hrep, hrep', hwf, hwf,
    PriorityBook.Relocated.refl a⟩
  rw [Tables.live, Tables.live, h.tables.byEngineId]
  cases v'.tables.byEngineId.lookup id <;> rfl

theorem Alike.top (h : v.Alike v') : v.currentTop = v'.currentTop := h.renamed.top.symm

/-- The messages of some calls, with the published top of the book after each. -/
def trace (build : Build) : Venue cap → List Event → Except Fault (List (List Sent × Top))
  | _, [] => .ok []
  | v, ev :: events => do
    let v ← v.cleared.handle build ev
    let rest ← trace build v events
    pure ((v.tables.sent, v.currentTop) :: rest)

/-- The trace is what every connection together sees. -/
theorem trace_eq_watched (build : Build) (v : Venue cap) (events : List Event) :
    v.trace build events =
      v.watched build (fun _ => true) (events.map fun ev => (ev, Enumeration.stored)) := by
  induction events generalizing v with
  | nil => rfl
  | cons ev events ih =>
    rw [List.map_cons, trace, watched, ← handle_eq_handleIn]
    simp only [ih, List.filter_true]

theorem trace_alike (build : Build) (h : v.Alike v') (events : List Event) :
    v.trace build events = v'.trace build events := by
  rw [trace_eq_watched, trace_eq_watched]
  refine (h.renamed.watched ?_).symm
  rw [List.forall₂_map_left_iff, List.forall₂_map_right_iff]
  exact List.forall₂_same.mpr fun ev _ => ev.renamed_none _

end Venue

/-- Every request gets the one reply of its kind, whether the call returns or ends in a fault; a
refusal is the only message, and nothing that follows can tell that the request was made. With
assertions compiled out every call returns, as long as no id has come round again. -/
theorem one_reply {events : List Event} {s : Session cap}
    (h : session build cap softCap events = .ok s) (conn : ConnId) (payload : Bytes) :
    (build = .ndebug → softCap < cap → s.accepted < 2 ^ 64 →
      ∃ s', s.step build (.line conn payload) = .ok s') ∧
    (∀ f, s.step build (.line conn payload) = .error f →
      ∃ T, Aborted build s.venue.cleared conn payload f T ∧
        Replies conn (parseInbound payload) T.sent) ∧
    ∀ s', s.step build (.line conn payload) = .ok s' →
      Replies conn (parseInbound payload) s'.venue.tables.sent ∧
      ∀ m ∈ s'.venue.tables.sent, m.2.isRefusal = true →
        s'.venue.tables.sent = [m] ∧ s'.venue.currentTop = s.venue.currentTop ∧
        ∀ later, s'.venue.trace build later = s.venue.trace build later := by
  obtain ⟨hsound, -⟩ := session_size h
  refine ⟨?_, fun f hf => ?_, fun s' hs' => ?_⟩
  · rintro rfl hcap hlt
    obtain ⟨a, hs⟩ := session_synced h hlt
    have hsoft : s.venue.cleared.softCap < cap := (session_softCap h).symm ▸ hcap
    obtain ⟨v', hv'⟩ := hs.cleared.handle_total hsoft (.line conn payload)
    exact ⟨_, Session.step_eq_ok.mpr ⟨v', hv', rfl⟩⟩
  · exact handle_aborted (v := s.venue.cleared) hsound rfl
      (eq_error_of_bind hf fun _ => ok_ne_error _ _)
  obtain ⟨v', hv', rfl⟩ := Session.step_eq_ok.mp hs'
  have hreplies := handle_replies (v := s.venue.cleared) hsound rfl hv'
  refine ⟨hreplies, fun m hm href => ?_⟩
  cases handled_ok hv' with
  | quiet result msgs book clock soft live record sent about reply last =>
    cases result
    have hmsgs : v'.tables.sent = msgs := sent
    obtain ⟨a, hrep, hwf⟩ := hsound
    -- the reply is not part of the comparison, which starts after it
    have halike : v'.cleared.Alike s.venue.cleared := by
      refine ⟨soft, clock, ⟨last.1, last.2, live, record, rfl⟩, a, ?_, hrep, hwf⟩
      show v'.book.Rep a
      rw [book]
      exact hrep
    have htop : v'.currentTop = s.venue.currentTop := halike.top
    refine ⟨?_, htop, fun later => ?_⟩
    · rw [hmsgs] at hm ⊢
      cases reply <;> simp_all
    · cases later with
      | nil => rfl
      | cons ev later =>
        have := Venue.trace_alike build halike (ev :: later)
        exact this
  | accept _ result =>
    obtain ⟨fills, hmsgs, hf⟩ := submit_sent (v := s.venue.cleared) hsound rfl result.symm
    rw [hmsgs, List.mem_cons] at hm
    rcases hm with rfl | hm
    · cases href
    · have := hf m hm
      obtain ⟨c, m⟩ := m
      cases m <;> simp_all [Outbound.isRefusal, Outbound.isFill]
  | cancel _ _ _ result =>
    obtain ⟨book, -, hv₁⟩ := bind_eq_ok.mp result.symm
    cases hv₁
    rw [cancelled_sent] at hm
    have hm := List.mem_singleton.mp hm
    subst hm
    cases href

theorem one_reply_duplicate : ∃ s s' : Session 3, session .ndebug 3 2 partialFill = .ok s ∧
    s.step .ndebug (.line 1 (newOrderLine idA .buy 100 5 idA)) = .ok s' ∧
    s'.venue.tables.sent = [(1, .reject idA.bytes .duplicateClientOrderId)] ∧
    ∀ later, s'.venue.trace .ndebug later = s.venue.trace .ndebug later := by
  obtain ⟨s, hs, hp⟩ : ∃ s : Session 3, session .ndebug 3 2 partialFill = .ok s ∧
      ((s.step .ndebug (.line 1 (newOrderLine idA .buy 100 5 idA))).toOption.any fun s' =>
        decide (s'.venue.tables.sent = [(1, .reject idA.bytes .duplicateClientOrderId)])) = true :=
    exists_session (by decide +kernel)
  obtain ⟨s', hs', hsent⟩ := exists_ok hp
  rw [decide_eq_true_eq] at hsent
  have h := ((one_reply hs _ _).2.2 s' hs').2 _ (hsent ▸ List.mem_singleton_self _) rfl
  exact ⟨s, s', hs, hs', hsent, h.2.2⟩

end MarketMakerOps.Exchange
