import MarketMakerOps.Exchange.Tables

/-!
What one call on the venue can do.

* `Accepts`: the guards a NEW_ORDER has passed when it reaches the book;
* `Handled`: a call is quiet, accepts an order, cancels one, or drops a
  connection; everything else about the venue's runs follows from these cases;
* `handled`: each call is one of them, failing calls included.
-/

namespace MarketMakerOps.Exchange

open Decimal Engine Fallible

variable {cap : Nat}

/-- The exchange id a message is about. -/
def Outbound.exchangeId? : Outbound → Option Bytes
  | .ack _ e => some e
  | .reject .. => none
  | .cancelAck _ e => some e
  | .cancelReject .. => none
  | .fill e .. => some e

/-- A well-formed request to trade. -/
structure IsNewOrder (payload : Bytes) (cid : Bytes) (side : OrderSide) (p q : UInt32) : Prop where
  readable : (parseInbound payload).parseError = none
  type : (parseInbound payload).type = .newOrder
  names : (parseInbound payload).clientOrderId = some cid
  symbol : (parseInbound payload).symbol = some kSymbol
  onSide : (parseInbound payload).side = some side
  atPrice : (parseInbound payload).priceTicks = some p
  forQty : (parseInbound payload).qty = some q

/-- A well-formed request to cancel. -/
structure IsCancel (payload : Bytes) (cid : Bytes) : Prop where
  readable : (parseInbound payload).parseError = none
  type : (parseInbound payload).type = .cancel
  names : (parseInbound payload).clientOrderId = some cid

/-- The guards of `handleNewOrder`, all passed. -/
structure Accepts (v : Venue cap) (conn : ConnId) (payload cid : Bytes) (side : OrderSide)
    (p q : UInt32) : Prop extends IsNewOrder payload cid side p q where
  positive : q ≠ 0
  fresh : v.tables.record conn cid = none
  room : v.tables.byEngineId.keys.length < v.softCap
  noSelfCross : v.tables.wouldSelfCross conn side p = false

/-- The venue once the order of a resting record is cancelled. -/
def Venue.cancelled (v : Venue cap) (conn : ConnId) (cid : Bytes) (r : ClientRecord)
    (book : OrderBook cap) : Venue cap :=
  { v with
    book := book
    tables := Tables.send
      { v.tables with
        byEngineId := v.tables.byEngineId.erase r.engineId
        byConn := v.tables.byConn.insert conn
          (((v.tables.byConn.lookup conn).getD ∅).insert cid { r with state := .cancelled }) }
      conn (.cancelAck cid r.exchangeId) }

/-- The reply to a request that changes nothing; it names the order the request named. -/
inductive Refusal (conn : ConnId) (m : InboundMessage) : List Sent → Prop
  | heartbeat (readable : m.parseError = none) (type : m.type = .heartbeat) : Refusal conn m []
  | malformed (cid : Bytes) (reason : RejectReason) (names : cid = m.clientOrderId.getD [])
      (unreadable : m.parseError.isSome ∨ m.type = .unknown) :
      Refusal conn m [(conn, .reject cid reason)]
  | newOrder (cid : Bytes) (reason : RejectReason) (names : cid = m.clientOrderId.getD [])
      (readable : m.parseError = none) (type : m.type = .newOrder) :
      Refusal conn m [(conn, .reject cid reason)]
  | cancel (cid : Bytes) (reason : CancelRejectReason) (names : cid = m.clientOrderId.getD [])
      (readable : m.parseError = none) (type : m.type = .cancel) :
      Refusal conn m [(conn, .cancelReject cid reason)]

theorem Refusal.about {conn : ConnId} {m : InboundMessage} {msgs : List Sent}
    (h : Refusal conn m msgs) : ∀ x ∈ msgs, x.2.exchangeId? = none := by
  cases h <;> simp [Outbound.exchangeId?]

/-- The cases of a call with result `res`. -/
inductive Handled (build : Build) (v : Venue cap) : Event → Except Fault (Venue cap) → Prop
  | quiet {conn : ConnId} {payload : Bytes} {v' : Venue cap} {res : Except Fault (Venue cap)}
      (result : res = .ok v') (msgs : List Sent)
      (book : v'.book = v.book) (clock : v'.nextEngineId = v.nextEngineId)
      (soft : v'.softCap = v.softCap)
      (live : v'.tables.byEngineId = v.tables.byEngineId)
      (record : ∀ c cid, v'.tables.record c cid = v.tables.record c cid)
      (sent : v'.tables.sent = v.tables.sent ++ msgs)
      (about : ∀ m ∈ msgs, m.2.exchangeId? = none)
      (reply : Refusal conn (parseInbound payload) msgs)
      (last : v'.tables.hasLastTrade = v.tables.hasLastTrade ∧
        v'.tables.lastTradeTicks = v.tables.lastTradeTicks) :
      Handled build v (.line conn payload) res
  | accept {conn : ConnId} {payload cid : Bytes} {side : OrderSide} {p q : UInt32}
      {res : Except Fault (Venue cap)} (accepts : Accepts v conn payload cid side p q)
      (result : res = v.submit build conn cid side p q) : Handled build v (.line conn payload) res
  | cancel {conn : ConnId} {payload cid : Bytes} {r : ClientRecord}
      {res : Except Fault (Venue cap)} (isCancel : IsCancel payload cid)
      (record : v.tables.record conn cid = some r) (resting : r.state = .resting)
      (result : res = do
        let book ← v.book.cancelOrder build r.engineId
        pure (v.cancelled conn cid r book)) : Handled build v (.line conn payload) res
  | drop {conn : ConnId} {res : Except Fault (Venue cap)}
      (result : res = v.dropConnection build conn) : Handled build v (.drop conn) res

section Inversion

variable {build : Build} {v v' : Venue cap} {conn : ConnId} {payload : Bytes}

theorem handled_send {m : Outbound} (hm : Refusal conn (parseInbound payload) [(conn, m)]) :
    Handled build v (.line conn payload) (.ok (v.send conn m)) :=
  .quiet rfl [(conn, m)] rfl rfl rfl rfl (fun _ _ => rfl) rfl hm.about hm ⟨rfl, rfl⟩

/-- The entry `byConn_[conn]` creates holds no record. -/
theorem record_touch (T : Tables) (conn c : ConnId) (cid : Bytes) :
    Tables.record { T with
      byConn := T.byConn.insert conn ((T.byConn.lookup conn).getD ∅) } c cid = T.record c cid := by
  simp only [Tables.record, lookup_insert_ite]
  split
  · next h =>
    subst h
    cases T.byConn.lookup c <;> rfl
  · rfl

theorem record_eq_none {T : Tables} {conn : ConnId} {cid : Bytes} :
    T.record conn cid = none ↔ cid ∉ (T.byConn.lookup conn).getD ∅ := by
  simp only [Tables.record]
  cases T.byConn.lookup conn with
  | none => simp
  | some records => simp [AList.lookup_eq_none]

/-- Creating the connection's records first changes nothing about an accepted order. -/
theorem submit_touch (v : Venue cap) (conn : ConnId) (cid : Bytes) (side : OrderSide)
    (p q : UInt32) :
    Venue.submit build { v with tables := { v.tables with
        byConn := v.tables.byConn.insert conn ((v.tables.byConn.lookup conn).getD ∅) } }
      conn cid side p q = v.submit build conn cid side p q := by
  simp [Venue.submit, Venue.entered, AList.lookup_insert, AList.insert_insert]

/-- The guards, in the order of the source. -/
theorem handled_newOrder (hok : (parseInbound payload).parseError = none)
    (htype : (parseInbound payload).type = .newOrder) :
    Handled build v (.line conn payload) (v.handleNewOrder build conn (parseInbound payload)) := by
  have hsend : ∀ cid reason, cid = (parseInbound payload).clientOrderId.getD [] →
      Handled build v (.line conn payload) (.ok (v.send conn (.reject cid reason))) :=
    fun cid reason hcid => handled_send (.newOrder cid reason hcid hok htype)
  have htouch : ∀ cid reason, cid = (parseInbound payload).clientOrderId.getD [] →
      Handled build v (.line conn payload) (.ok (Venue.send { v with tables := { v.tables with
        byConn := v.tables.byConn.insert conn ((v.tables.byConn.lookup conn).getD ∅) } }
          conn (.reject cid reason))) := fun cid reason hcid =>
    have hr := Refusal.newOrder cid reason hcid hok htype
    .quiet rfl [(conn, .reject cid reason)] rfl rfl rfl rfl (record_touch v.tables conn) rfl
      hr.about
      hr ⟨rfl, rfl⟩
  unfold Venue.handleNewOrder
  split
  · next hnone => exact hsend _ _ (by rw [hnone]; rfl)
  · next cid hcid =>
    have hname : cid = (parseInbound payload).clientOrderId.getD [] := by rw [hcid]; rfl
    split
    · exact hsend _ _ hname
    · next hsym =>
      split
      · exact hsend _ _ hname
      · next side hside =>
        split
        · exact hsend _ _ hname
        · next p hp =>
          split
          · exact hsend _ _ hname
          · next q hq =>
            split
            · exact hsend _ _ hname
            · next hpos =>
              simp only
              split
              · exact htouch _ _ hname
              · next hfresh =>
                split
                · exact htouch _ _ hname
                · next hroom =>
                  split
                  · exact htouch _ _ hname
                  · next hcross =>
                    rw [submit_touch]
                    exact .accept ⟨⟨hok, htype, hcid, not_not.mp hsym, hside, hp, hq⟩, hpos,
                      record_eq_none.mpr hfresh, not_le.mp hroom, Bool.eq_false_iff.mpr hcross⟩ rfl

/-- An order that passes the guards reaches the book. -/
theorem Accepts.handle {cid : Bytes} {side : OrderSide} {p q : UInt32}
    (h : Accepts v conn payload cid side p q) :
    v.handle build (.line conn payload) = v.submit build conn cid side p q := by
  have hfresh := record_eq_none.mp h.fresh
  have hroom := not_le.mpr h.room
  have hcross : Tables.wouldSelfCross { v.tables with
      byConn := v.tables.byConn.insert conn ((v.tables.byConn.lookup conn).getD ∅) }
      conn side p = false := h.noSelfCross
  simp only [Venue.handle, Venue.handleLine, Venue.handleMessage, h.readable, h.type,
    Venue.handleNewOrder, h.names, h.symbol, h.onSide, h.atPrice, h.forQty, h.positive, hfresh,
    hroom, hcross, if_false, Option.isSome_none, Bool.false_eq_true, reduceCtorEq,
    or_self, ne_eq, not_true_eq_false]
  exact submit_touch v conn cid side p q

theorem handled_cancel (hok : (parseInbound payload).parseError = none)
    (htype : (parseInbound payload).type = .cancel) :
    Handled build v (.line conn payload) (v.handleCancel build conn (parseInbound payload)) := by
  have hsend : ∀ cid reason, cid = (parseInbound payload).clientOrderId.getD [] →
      Handled build v (.line conn payload) (.ok (v.send conn (.cancelReject cid reason))) :=
    fun cid reason hcid => handled_send (.cancel cid reason hcid hok htype)
  unfold Venue.handleCancel
  split
  · next hnone => exact hsend _ _ (by rw [hnone]; rfl)
  · next cid hcid =>
    have hname : cid = (parseInbound payload).clientOrderId.getD [] := by rw [hcid]; rfl
    split
    · exact hsend _ _ hname
    · next records hrecords =>
      split
      · exact hsend _ _ hname
      · next r hr =>
        split
        · exact hsend _ _ hname
        · exact hsend _ _ hname
        · next hst =>
          refine .cancel ⟨hok, htype, hcid⟩ ?_ hst ?_
          · simp [Tables.record, hrecords, hr]
          · simp only [Venue.cancelled, hrecords, Option.getD_some]

/-- Each call is one of the cases. -/
theorem handled (build : Build) (v : Venue cap) (ev : Event) :
    Handled build v ev (v.handle build ev) := by
  cases ev with
  | drop conn => exact .drop rfl
  | line conn payload =>
    simp only [Venue.handle, Venue.handleLine, Venue.handleMessage]
    split
    · next hbad => exact handled_send (.malformed _ _ rfl hbad)
    · next hread =>
      have hok : (parseInbound payload).parseError = none := by
        rw [← Option.not_isSome_iff_eq_none]
        exact fun hs => hread (Or.inl hs)
      split
      · next ht => exact handled_newOrder hok ht
      · next ht => exact handled_cancel hok ht
      · next ht =>
        exact .quiet rfl [] rfl rfl rfl rfl (fun _ _ => rfl) (by simp) (by simp) (.heartbeat hok ht)
          ⟨rfl, rfl⟩
      · next ht => exact handled_send (.malformed _ _ rfl (Or.inr ht))

theorem handled_ok {ev : Event} (h : v.handle build ev = .ok v') :
    Handled build v ev (.ok v') := h ▸ handled build v ev

end Inversion

section Cancelled

variable (v : Venue cap) (conn : ConnId) (cid : Bytes) (r : ClientRecord) (book : OrderBook cap)

theorem cancelled_live (id : UInt64) : (v.cancelled conn cid r book).tables.live id =
    if id = r.engineId then none else v.tables.live id :=
  lookup_erase_ite _ _ _

theorem cancelled_record (c : ConnId) (cid' : Bytes) :
    (v.cancelled conn cid r book).tables.record c cid' =
      if c = conn ∧ cid' = cid then some { r with state := .cancelled }
      else v.tables.record c cid' := Tables.record_insert rfl c cid'

theorem cancelled_sent : (v.cancelled conn cid r book).tables.sent =
    v.tables.sent ++ [(conn, .cancelAck cid r.exchangeId)] := rfl

end Cancelled

end MarketMakerOps.Exchange
