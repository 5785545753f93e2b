import MarketMakerOps.Exchange.Delivery
import MarketMakerOps.Exchange.Replies
import MarketMakerOps.Exchange.Sockets

/-!
Requests and their answers, connection by connection.

* `Answers`: the reply of a request's kind, which names the order the request named;
* `handle_answers`: a call answers its own request first, and sends nothing else but fills;
* `answers_of_fresh`: a new order in good form is refused for two reasons only;
* `session_answers`: so the answers to a connection are those of its requests, in their order;
* `requests_are_answered_in_order`: and so it is on every socket.
-/

namespace MarketMakerOps.Exchange

open Decimal Engine Fallible

variable {cap softCap : Nat} {build : Build}

/-- Everything is answered but a heartbeat. -/
def asks (payload : Bytes) : Bool :=
  (parseInbound payload).parseError.isSome || (parseInbound payload).type ≠ .heartbeat

/-- The answer to a request. -/
def Answers (payload : Bytes) (m : Outbound) : Prop :=
  let r := parseInbound payload
  let cid := r.clientOrderId.getD []
  if r.parseError.isSome ∨ r.type = .unknown then ∃ reason, m = .reject cid reason
  else if r.type = .newOrder then (∃ reason, m = .reject cid reason) ∨ ∃ e, m = .ack cid e
  else if r.type = .cancel then
    (∃ e, m = .cancelAck cid e) ∨ ∃ reason, m = .cancelReject cid reason
  else False

/-! ## Calls -/

/-- What a request causes: its answer and some fills, or nothing. -/
inductive Answered (conn : ConnId) (payload : Bytes) : List Sent → Prop
  | asked (m : Outbound) (fills : List Sent) (asked : asks payload = true)
      (answer : Answers payload m) (notFill : m.isFill = false)
      (rest : ∀ f ∈ fills, f.2.isFill = true) : Answered conn payload ((conn, m) :: fills)
  | silent (silent : asks payload = false) : Answered conn payload []

theorem Refusal.answered {conn : ConnId} {payload : Bytes} {msgs : List Sent}
    (h : Refusal conn (parseInbound payload) msgs) : Answered conn payload msgs := by
  cases h with
  | heartbeat readable type => exact .silent (by simp [asks, readable, type])
  | malformed cid reason names unreadable =>
    refine .asked _ [] ?_ ?_ rfl (fun f hf => (List.not_mem_nil hf).elim)
    · rcases unreadable with herror | htype <;> simp [asks, *]
    · rw [Answers, if_pos unreadable, names]
      exact ⟨reason, rfl⟩
  | newOrder cid reason names readable type =>
    refine .asked _ [] ?_ ?_ rfl (fun f hf => (List.not_mem_nil hf).elim)
    · simp [asks, type]
    · simp [Answers, readable, type, names]
  | cancel cid reason names readable type =>
    refine .asked _ [] ?_ ?_ rfl (fun f hf => (List.not_mem_nil hf).elim)
    · simp [asks, type]
    · simp [Answers, readable, type, names]

theorem handle_answers {v v' : Venue cap} (hsound : v.book.Sound) (hsent : v.tables.sent = [])
    {conn : ConnId} {payload : Bytes} (hv : v.handle build (.line conn payload) = .ok v') :
    Answered conn payload v'.tables.sent := by
  cases handled_ok hv with
  | quiet result msgs _ _ _ _ _ sent _ reply =>
    cases result
    rw [sent, hsent]
    exact reply.answered
  | accept accepts result =>
    obtain ⟨fills, hmsgs, hf⟩ := submit_sent hsound hsent result.symm
    rw [hmsgs]
    refine .asked _ fills ?_ ?_ rfl hf
    · simp [asks, accepts.type]
    · simp [Answers, accepts.readable, accepts.type, accepts.names]
  | cancel isCancel _ _ result =>
    obtain ⟨book, -, hv'⟩ := bind_eq_ok.mp result.symm
    cases hv'
    rw [cancelled_sent, hsent]
    refine .asked _ [] ?_ ?_ rfl (fun f hf => (List.not_mem_nil hf).elim)
    · simp [asks, isCancel.type]
    · simp [Answers, isCancel.readable, isCancel.type, isCancel.names]

/-- A well-formed order under a new id is refused for two reasons only: the venue is full, or it
would trade with its own connection. -/
theorem IsNewOrder.answers_of_fresh {v v' : Venue cap} {conn : ConnId} {payload cid : Bytes}
    {side : OrderSide} {p q : UInt32} (h : IsNewOrder payload cid side p q) (positive : q ≠ 0)
    (fresh : v.tables.record conn cid = none) (hsound : v.book.Sound) (hsent : v.tables.sent = [])
    (hv : v.handle build (.line conn payload) = .ok v') :
    (∃ fills, v'.tables.sent = (conn, .ack cid (exchangeId v.nextEngineId)) :: fills ∧
      ∀ f ∈ fills, f.2.isFill = true) ∨
    (v.softCap ≤ v.tables.byEngineId.keys.length ∧
      v'.tables.sent = [(conn, .reject cid .venueFull)]) ∨
    (v.tables.wouldSelfCross conn side p = true ∧
      v'.tables.sent = [(conn, .reject cid .selfMatch)]) := by
  have hnew := record_eq_none.mp fresh
  by_cases hroom : v.softCap ≤ v.tables.byEngineId.keys.length
  · refine Or.inr (Or.inl ⟨hroom, ?_⟩)
    simp only [Venue.handle, Venue.handleLine, Venue.handleMessage, h.readable, h.type,
      Venue.handleNewOrder, h.names, h.symbol, h.onSide, h.atPrice, h.forQty, positive, hnew, hroom,
      if_true, if_false, Option.isSome_none, Bool.false_eq_true, reduceCtorEq, or_self, ne_eq,
      not_true_eq_false] at hv
    cases hv
    exact congrArg (· ++ [(conn, Outbound.reject cid .venueFull)]) hsent
  · cases hcross : v.tables.wouldSelfCross conn side p with
    | true =>
      have hcross' : Tables.wouldSelfCross { v.tables with
          byConn := v.tables.byConn.insert conn ((v.tables.byConn.lookup conn).getD ∅) }
          conn side p = true := hcross
      refine Or.inr (Or.inr ⟨rfl, ?_⟩)
      simp only [Venue.handle, Venue.handleLine, Venue.handleMessage, h.readable, h.type,
        Venue.handleNewOrder, h.names, h.symbol, h.onSide, h.atPrice, h.forQty, positive, hnew,
        hroom,
        hcross', if_true, if_false, Option.isSome_none, Bool.false_eq_true, reduceCtorEq, or_self,
        ne_eq, not_true_eq_false] at hv
      cases hv
      exact congrArg (· ++ [(conn, Outbound.reject cid .selfMatch)]) hsent
    | false =>
      have haccepts : Accepts v conn payload cid side p q :=
        ⟨h, positive, fresh, not_le.mp hroom, hcross⟩
      exact Or.inl (submit_sent hsound hsent (haccepts.handle.symm.trans hv))

/-! ## Runs -/

/-- The messages to a connection that are no fills. -/
def Session.answersTo (s : Session cap) (id : ConnId) : List Outbound :=
  (s.sentTo id).filter fun m => !m.isFill

/-- The requests of a connection that are to be answered. -/
def Session.questionsOf (s : Session cap) (id : ConnId) : List Bytes := (s.linesOf id).filter asks

/-- Of some messages, those to a connection that are no fills. -/
def answersIn (id : ConnId) (msgs : List Sent) : List Outbound :=
  ((msgs.filter fun m => m.1 = id).map Prod.snd).filter fun m => !m.isFill

section Messages

variable {id conn : ConnId} {m : Outbound} {msgs fills : List Sent}

theorem answersIn_eq_nil (h : ∀ m ∈ msgs, m.1 = id → m.2.isFill = true) :
    answersIn id msgs = [] := by
  refine List.filter_eq_nil_iff.mpr fun m hm => ?_
  obtain ⟨x, hx, rfl⟩ := List.mem_map.mp hm
  obtain ⟨hx, hid⟩ := List.mem_filter.mp hx
  rw [h x hx (of_decide_eq_true hid)]
  decide

theorem answersIn_cons (hm : m.isFill = false) (hf : ∀ f ∈ fills, f.2.isFill = true) :
    answersIn id ((conn, m) :: fills) = if conn = id then [m] else [] := by
  have hnone : answersIn id fills = [] := answersIn_eq_nil fun f hmem _ => hf f hmem
  unfold answersIn at hnone ⊢
  split
  · next hid =>
    rw [List.filter_cons_of_pos (by simpa using hid), List.map_cons,
      List.filter_cons_of_pos (by simp [hm]), hnone]
  · next hid => rw [List.filter_cons_of_neg (by simpa using hid), hnone]

theorem Session.answersTo_of_step {s s' : Session cap} {ev : Event} (h : s.step build ev = .ok s') :
    s'.answersTo id = s.answersTo id ++ answersIn id s'.venue.tables.sent := by
  rw [answersTo, sentTo_of_step h, List.filter_append]
  rfl

end Messages

/-- Of a call's messages only the answer is no fill, and it goes to the sender. -/
theorem Answered.answers {conn : ConnId} {payload : Bytes} {msgs : List Sent}
    (h : Answered conn payload msgs) (id : ConnId) :
    List.Forall₂ Answers (((Event.line conn payload).lineOf id).toList.filter asks)
      (answersIn id msgs) := by
  cases h with
  | silent silent =>
    by_cases hid : conn = id <;> simp [Event.lineOf, answersIn, hid, silent]
  | asked m fills asked answer notFill rest =>
    rw [answersIn_cons notFill rest]
    by_cases hid : conn = id
    · simp only [Event.lineOf, hid, if_true, Option.toList_some, List.filter_cons_of_pos asked,
        List.filter_nil]
      exact .cons answer .nil
    · simp [Event.lineOf, hid]

/-- Each connection's requests are answered in their order. -/
theorem session_answers {s : Session cap} {events : List Event}
    (h : session build cap softCap events = .ok s) (id : ConnId) :
    List.Forall₂ Answers (s.questionsOf id) (s.answersTo id) := by
  refine (session_inv (fun s => (∃ events, session build cap softCap events = .ok s) ∧
    List.Forall₂ Answers (s.questionsOf id) (s.answersTo id)) (fun v hv => ?_)
    (fun s ev s' hs hstep => ?_) h).2
  · exact ⟨⟨[], by rw [session, hv]; rfl⟩, .nil⟩
  · obtain ⟨⟨events, hevents⟩, hanswers⟩ := hs
    refine ⟨⟨_, session_snoc hevents hstep⟩, ?_⟩
    obtain ⟨hsound, -⟩ := session_size hevents
    obtain ⟨v', hv', hs'⟩ := Session.step_eq_ok.mp hstep
    have hv : s'.venue = v' := by rw [hs']
    rw [Session.questionsOf, Session.linesOf_of_step hstep, Session.answersTo_of_step hstep,
      List.filter_append, hv]
    refine List.rel_append hanswers ?_
    cases ev with
    | line conn payload =>
      exact (handle_answers (v := s.venue.cleared) hsound rfl hv').answers id
    | drop conn =>
      obtain ⟨a, hrep, hwf⟩ := hsound
      obtain ⟨-, -, -, hsent, -⟩ :=
        post_of_ok (dropIn_spec (v := s.venue.cleared) build conn (s.venue.cleared.owned conn) hrep
          hwf) hv'
      rw [hsent]
      exact .nil

/-! ## Sockets -/

/-- A socket whose requests have been answered, in their order. -/
def Conn.Answered (c : Conn) : Prop :=
  List.Forall₂ Answers (c.handled.filter asks) (c.replies.filter fun m => !m.isFill)

theorem Session.Belongs.answered {s : Session cap} {id : ConnId} {c : Conn} (h : s.Belongs id c)
    {events : List Event} (hs : session build cap softCap events = .ok s) : c.Answered := by
  have hanswers := session_answers hs id
  rw [Session.questionsOf, Session.answersTo, ← h.handled, ← h.replies] at hanswers
  exact hanswers

/-- Each complete frame on an open connection was executed, and each that asks for something has
its one answer in the output stream, in the order of the requests, fills aside. A connection that
was closed had got an answer for each request executed. -/
theorem requests_are_answered_in_order {passes : List Pass} {s : Server cap}
    (h : Server.run build cap softCap passes = .ok s)
    (hp : ∀ v, Venue.new cap softCap = .ok v →
      Allowed (Server.pass build) Server.AcceptsClosed (Server.start v) passes)
    (hn : (passes.map fun p => p.accepts.length).sum < 2 ^ 64) :
    (∀ fd c, s.conns fd = some c → Executed c.received.flatten c.handled ∧ c.Answered) ∧
    ∀ x ∈ s.closed, x.2.Answered := by
  have hdelivered := Server.delivered_of_run h
  obtain ⟨gone, hrouted⟩ := (Server.run_reached h hp).routed hn
  obtain ⟨events, hevents⟩ := hrouted.reached
  refine ⟨fun fd c hc => ⟨(hdelivered.served fd c hc).executed, ?_⟩, fun x hx => ?_⟩
  · obtain ⟨id, hid⟩ := hrouted.id_of_conn hc
    exact (hrouted.belongs fd id c hid hc).answered hevents
  · obtain ⟨i, hi, rfl⟩ := List.getElem_of_mem hx
    have hgone : i < gone.length := hrouted.closed.length_eq ▸ hi
    exact ((List.forall₂_iff_get.mp hrouted.closed).2 i hgone hi).answered hevents

/-- Two connections: a bid in two halves, an offer that meets it, a cancel too late, and garbage. -/
def tradeAndGarbage : List Pass :=
  [⟨true, [5, 6], []⟩,
    ⟨false, [], [⟨5, false, some [.data (bidFrame.take 30), .again], none⟩]⟩,
    ⟨false, [], [⟨5, false, some [.data (bidFrame.drop 30), .again], none⟩,
      ⟨6, false, some [.data (encodeFrame (newOrderLine idA .sell 100 5 idA)), .again], none⟩]⟩,
    ⟨false, [], [⟨5, false, some [.data (encodeFrame (cancelLine idA idA)), .again], none⟩,
      ⟨6, false, some [.data (encodeFrame [1, 2, 3]), .data bidFrame, .again], none⟩]⟩]

theorem requests_are_answered_in_order_trade : ∃ (s : Server 3) (c : Conn),
    Server.run .debug 3 2 tradeAndGarbage = .ok s ∧ s.conns 5 = some c ∧ c.handled.length = 2 ∧
      c.Answered := by
  obtain ⟨s, hs, hx⟩ := exists_ok (x := Server.run .debug 3 2 tradeAndGarbage)
    (p := fun s => decide ((s.conns 5).map (fun c => c.handled.length) = some 2))
    (by decide +kernel)
  obtain ⟨c, hc, hlen⟩ := Option.map_eq_some_iff.mp (of_decide_eq_true hx)
  have hallowed : ∀ v ∈ (Venue.new 3 2).toOption, Allowed (Server.pass .debug)
      Server.AcceptsClosed (Server.start v) tradeAndGarbage := by
    decide +kernel
  have h := requests_are_answered_in_order hs (fun v hv => hallowed v (by rw [hv]; rfl)) (by decide)
  exact ⟨s, c, hs, hc, hlen, (h.1 5 c hc).2⟩

end MarketMakerOps.Exchange
