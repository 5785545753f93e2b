import MarketMakerOps.Lib.Pairing
import MarketMakerOps.Exchange.PrivateNames
import MarketMakerOps.Exchange.Server

/-!
Descriptors are reused, connection ids are not.

* `Tables.Among P`: the tables speak of the connections in `P` only; so do the
  messages of a call;
* `Routing s gone`: the maps of the server agree, and every socket, open or closed,
  has got the messages of its own id and is the source of that id's requests;
* `Routed`: the invariant of all steps, with the ids issued so far;
* `Routed.accept`, `Routed.read`, `Routed.close`, `Routed.broadcast`: they keep it.
-/

namespace MarketMakerOps.Exchange

open Decimal Engine Fallible Pairing

variable {cap softCap n : Nat} {build : Build}

/-! ## The connections a venue knows -/

/-- Live orders, records and messages are those of the connections in `P`. -/
structure Tables.Among (P : ConnId → Prop) (T : Tables) : Prop where
  live : ∀ id lo, T.live id = some lo → P lo.owner
  record : ∀ c cid r, T.record c cid = some r → P c
  sent : ∀ m ∈ T.sent, P m.1

namespace Tables

variable {P : ConnId → Prop} {T : Tables}

theorem Among.routeFill (h : T.Among P) (id : UInt64) (p q : UInt32) :
    (T.routeFill id p q).Among P := by
  cases hl : T.live id with
  | none => rwa [routeFill_of_none hl]
  | some lo =>
    obtain ⟨hlive, hsent, hrecord⟩ := routeFill_spec (p := p) (q := q) hl
    have howner := h.live id lo hl
    refine ⟨fun id' lo' hlo' => ?_, fun c cid r hr => ?_, fun m hm => ?_⟩
    · rw [hlive] at hlo'
      split at hlo'
      · split at hlo'
        · cases hlo'
        · cases hlo'
          exact howner
      · exact h.live id' lo' hlo'
    · rw [hrecord] at hr
      split at hr
      · obtain ⟨r', hr', -⟩ := Option.map_eq_some_iff.mp hr
        exact h.record c cid r' hr'
      · exact h.record c cid r hr
    · rw [hsent, List.mem_append, List.mem_singleton] at hm
      rcases hm with hm | rfl
      · exact h.sent m hm
      · exact howner

theorem Among.afterTrades (h : T.Among P) (ts : List Trade) : (T.afterTrades ts).Among P := by
  induction ts generalizing T with
  | nil => exact h
  | cons t ts ih =>
    have hlast : Among P { T with lastTradeTicks := t.price, hasLastTrade := true } :=
      ⟨h.live, h.record, h.sent⟩
    exact ih ((hlast.routeFill t.buyOrderId t.price t.quantity).routeFill t.sellOrderId t.price
      t.quantity)

end Tables

section Venue

variable {P : ConnId → Prop} {v v' : Venue cap} {c : ConnId}

theorem Tables.Among.entered (h : v.tables.Among P) (hc : P c) (cid : Bytes) (side : OrderSide)
    (p q : UInt32) : (v.entered c cid side p q).Among P := by
  refine ⟨fun id lo hlo => ?_, fun c' cid' r hr => ?_, fun m hm => ?_⟩
  · rw [entered_live] at hlo
    split at hlo
    · cases hlo
      exact hc
    · exact h.live id lo hlo
  · rw [entered_record] at hr
    split at hr
    · next hkey => exact hkey.1 ▸ hc
    · exact h.record c' cid' r hr
  · rw [entered_sent, List.mem_append, List.mem_singleton] at hm
    rcases hm with hm | rfl
    · exact h.sent m hm
    · exact hc

/-- A request is answered to its own connection, its fills to owners of live orders. -/
theorem Tables.Among.line (h : v.tables.Among P) (hc : P c) (hsound : v.book.Sound)
    {payload : Bytes} (hv : v.handle build (.line c payload) = .ok v') : v'.tables.Among P := by
  obtain ⟨a, hrep, hwf⟩ := hsound
  cases handled_ok hv with
  | quiet result msgs _ _ _ live record sent _ reply =>
    cases result
    refine ⟨fun id lo hlo => ?_, fun c' cid r hr => ?_, fun m hm => ?_⟩
    · rw [Tables.live, live] at hlo
      exact h.live id lo hlo
    · rw [record] at hr
      exact h.record c' cid r hr
    · rw [sent, List.mem_append] at hm
      rcases hm with hm | hm
      · exact h.sent m hm
      · cases reply with
        | heartbeat => cases hm
        | malformed | newOrder | cancel =>
          rw [List.mem_singleton.mp hm]
          exact hc
  | accept accepts result =>
    obtain ⟨ts, -, -, -, hT, -⟩ := submit_spec hrep hwf result.symm
    rw [hT]
    exact (h.entered hc _ _ _ _).afterTrades ts
  | cancel _ record _ result =>
    obtain ⟨book, -, hv'⟩ := bind_eq_ok.mp result.symm
    cases hv'
    refine ⟨fun id lo hlo => ?_, fun c' cid r hr => ?_, fun m hm => ?_⟩
    · rw [cancelled_live] at hlo
      split at hlo
      · cases hlo
      · exact h.live id lo hlo
    · rw [cancelled_record] at hr
      split at hr
      · next hkey => exact hkey.1 ▸ hc
      · exact h.record c' cid r hr
    · rw [cancelled_sent, List.mem_append, List.mem_singleton] at hm
      rcases hm with hm | rfl
      · exact h.sent m hm
      · exact hc

/-- A connection that is dropped is forgotten, and nothing is sent. -/
theorem Tables.Among.drop (h : v.tables.Among P) (hsound : v.book.Sound)
    (hnone : v.tables.sent = []) (hv : v.handle build (.drop c) = .ok v') :
    v'.tables.Among (fun c' => P c' ∧ c' ≠ c) ∧ v'.tables.sent = [] := by
  obtain ⟨a, hrep, hwf⟩ := hsound
  obtain ⟨-, hlive, hrecord, hsent, -⟩ := post_of_ok (dropIn_spec build c (v.owned c) hrep hwf) hv
  refine ⟨⟨fun id lo hlo => ?_, fun c' cid r hr => ?_, fun m hm => ?_⟩, hsent.trans hnone⟩
  · rw [hlive] at hlo
    split at hlo
    · cases hlo
    · next hid => exact ⟨h.live id lo hlo, fun ho => hid (mem_owned.mpr ⟨lo, hlo, ho⟩)⟩
  · rw [hrecord] at hr
    split at hr
    · cases hr
    · next hc => exact ⟨h.record c' cid r hr, hc⟩
  · rw [hsent, hnone] at hm
    cases hm

end Venue

/-! ## What belongs to a connection id -/

def Payload.reply? : Payload → Option Outbound
  | .reply m => some m
  | _ => none

/-- The replies appended to an output stream. -/
def Conn.replies (c : Conn) : List Outbound := c.out.filterMap Payload.reply?

/-- The request of a call, if it is one of `id`. -/
def Event.lineOf (id : ConnId) : Event → Option Bytes
  | .line c payload => if c = id then some payload else none
  | .drop _ => none

namespace Session

/-- The messages to a connection. -/
def sentTo (s : Session cap) (id : ConnId) : List Outbound :=
  (s.messages.filter fun m => m.1 = id).map Prod.snd

/-- The requests of a connection. -/
def linesOf (s : Session cap) (id : ConnId) : List Bytes :=
  s.history.filterMap fun x => x.1.lineOf id

/-- The socket `c` got the messages to `id`, and all requests under `id` are its own. -/
structure Belongs (s : Session cap) (id : ConnId) (c : Conn) : Prop where
  replies : c.replies = s.sentTo id
  handled : c.handled = s.linesOf id

section Step

variable {s s' : Session cap} {ev : Event}

theorem history_of_step (h : s.step build ev = .ok s') :
    s'.history = s.history ++ [(ev, s'.venue.tables.sent)] := by
  obtain ⟨v', -, rfl⟩ := Session.step_eq_ok.mp h
  rfl

theorem sentTo_of_step (h : s.step build ev = .ok s') (id : ConnId) : s'.sentTo id =
    s.sentTo id ++ ((s'.venue.tables.sent.filter fun m => m.1 = id).map Prod.snd) := by
  rw [sentTo, Session.messages_append (history_of_step h), List.filter_append, List.map_append]
  rfl

theorem linesOf_of_step (h : s.step build ev = .ok s') (id : ConnId) :
    s'.linesOf id = s.linesOf id ++ (ev.lineOf id).toList := by
  rw [linesOf, history_of_step h, List.filterMap_append]
  cases hev : ev.lineOf id <;> simp [linesOf, hev]

/-- The messages of a call appended, and its request if it is one of `id`. -/
theorem Belongs.step {id : ConnId} {c c' : Conn} (h : s.Belongs id c)
    (hstep : s.step build ev = .ok s')
    (replies : c'.replies =
      c.replies ++ (s'.venue.tables.sent.filter fun m => m.1 = id).map Prod.snd)
    (handled : c'.handled = c.handled ++ (ev.lineOf id).toList) : s'.Belongs id c' := by
  refine ⟨?_, ?_⟩
  · rw [replies, h.replies, sentTo_of_step hstep]
  · rw [handled, h.handled, linesOf_of_step hstep]

/-- A call that has nothing to do with `id`. -/
theorem Belongs.apart {id : ConnId} {c : Conn} (h : s.Belongs id c)
    (hstep : s.step build ev = .ok s') (hsent : ∀ m ∈ s'.venue.tables.sent, m.1 ≠ id)
    (hline : ev.lineOf id = none) : s'.Belongs id c := by
  have hno : (s'.venue.tables.sent.filter fun m => m.1 = id) = [] :=
    List.filter_eq_nil_iff.mpr fun m hm heq => hsent m hm (of_decide_eq_true heq)
  refine h.step hstep ?_ ?_
  · rw [hno, List.map_nil, List.append_nil]
  · rw [hline, Option.toList_none, List.append_nil]

end Step
end Session

namespace Server

variable {s s' : Server cap} {gone : List ConnId} {fd : Fd} {id : ConnId}

/-- Maps and sockets agree; `gone` are the ids of the closed sockets. -/
structure Routing (s : Server cap) (gone : List ConnId) : Prop where
  inverse : ∀ fd id, s.fdConn fd = some id ↔ s.connFd id = some fd
  keys : ∀ fd, (s.fdConn fd).isSome = (s.conns fd).isSome
  belongs : ∀ fd id c, s.fdConn fd = some id → s.conns fd = some c → s.session.Belongs id c
  closed : List.Forall₂ (fun id x => s.session.Belongs id x.2) gone s.closed
  nodup : gone.Nodup
  apart : ∀ id ∈ gone, s.connFd id = none
  attributed : ∀ x ∈ s.session.history, ∀ id payload, x.1 = .line id payload →
    (s.connFd id).isSome ∨ id ∈ gone
  forgotten : ∀ id, s.connFd id = none → (∀ cid, s.venue.tables.record id cid = none) ∧
    ∀ eid lo, s.venue.tables.live eid = some lo → lo.owner ≠ id

/-- The id was given to a socket. -/
def Known (s : Server cap) (gone : List ConnId) (id : ConnId) : Prop :=
  (s.connFd id).isSome ∨ id ∈ gone

/-- The invariant of all steps, after `n` accepted connections. -/
structure Routed (build : Build) (softCap n : Nat) (gone : List ConnId) (s : Server cap) :
    Prop where
  reached : ∃ events, Exchange.session build cap softCap events = .ok s.session
  inverse : ∀ fd id, s.fdConn fd = some id ↔ s.connFd id = some fd
  keys : ∀ fd, (s.fdConn fd).isSome = (s.conns fd).isSome
  belongs : ∀ fd id c, s.fdConn fd = some id → s.conns fd = some c → s.session.Belongs id c
  closed : List.Forall₂ (fun id x => s.session.Belongs id x.2) gone s.closed
  nodup : gone.Nodup
  apart : ∀ id ∈ gone, s.connFd id = none
  among : s.venue.cleared.tables.Among fun id => (s.connFd id).isSome
  heard : ∀ x ∈ s.session.history, (∀ id payload, x.1 = .line id payload → s.Known gone id) ∧
    ∀ m ∈ x.2, s.Known gone m.1
  clock : s.nextConnId = UInt64.ofNat (n + 1)
  issued : ∀ id, s.Known gone id → 1 ≤ id.toNat ∧ id.toNat ≤ n

theorem Routed.routing (h : Routed build softCap n gone s) : s.Routing gone := by
  refine ⟨h.inverse, h.keys, h.belongs, h.closed, h.nodup, h.apart,
    fun x hx id payload hev => (h.heard x hx).1 id payload hev, fun id hid => ⟨fun cid => ?_,
    fun eid lo hlo ho => ?_⟩⟩
  · cases hr : s.venue.tables.record id cid with
    | none => rfl
    | some r =>
      have hknown := h.among.record id cid r hr
      rw [hid] at hknown
      cases hknown
  · have hknown := h.among.live eid lo hlo
    rw [ho, hid] at hknown
    cases hknown

/-! ## Replies find their socket -/

/-- The connections once some messages are enqueued. -/
def deliver (s : Server cap) (msgs : List Sent) : Fd → Option Conn := fun fd =>
  (s.conns fd).map fun c => { c with out :=
    c.out ++ (msgs.filter fun m => s.fdConn fd = some m.1).map fun m => .reply m.2 }

theorem deliver_nil (s : Server cap) : s.deliver [] = s.conns := by
  funext fd
  cases hc : s.conns fd <;> simp [deliver, hc]

/-- A reply reaches the socket of its id and no other. -/
theorem enqueue_eq (hinv : Paired s.fdConn s.connFd) (id : ConnId) (m : Outbound) :
    s.enqueue id (.reply m) = { s with conns := s.deliver [(id, m)] } := by
  have hsame : s.deliver [(id, m)] = s.conns → s = { s with conns := s.deliver [(id, m)] } := by
    intro heq
    rw [heq]
  have hother : ∀ fd, s.fdConn fd ≠ some id → s.deliver [(id, m)] fd = s.conns fd := by
    intro fd hne
    cases hc : s.conns fd <;> simp [deliver, hc, hne]
  unfold enqueue
  cases hid : s.connFd id with
  | none =>
    exact hsame (funext fun fd => hother fd (hinv.ne_some hid))
  | some fd =>
    have hiff : ∀ fd', s.fdConn fd' = some id ↔ fd' = fd := fun fd' => hinv.eq_some_iff hid
    cases hc : s.conns fd with
    | none =>
      simp only [hc]
      refine hsame (funext fun fd' => ?_)
      by_cases hfd : fd' = fd
      · rw [hfd, hc, deliver, hc]
        rfl
      · exact hother fd' (mt (hiff fd').mp hfd)
    | some c =>
      simp only [hc, setConn]
      congr 1
      funext fd'
      by_cases hfd : fd' = fd
      · subst hfd
        simp [deliver, hc, (hiff fd').mpr rfl]
      · rw [Function.update_of_ne hfd, hother fd' (mt (hiff fd').mp hfd)]

theorem foldl_enqueue (hinv : Paired s.fdConn s.connFd) (msgs : List Sent) :
    msgs.foldl (fun s m => s.enqueue m.1 (.reply m.2)) s =
      { s with conns := s.deliver msgs } := by
  induction msgs generalizing s with
  | nil => rw [List.foldl_nil, deliver_nil]
  | cons m msgs ih =>
    rw [List.foldl_cons, enqueue_eq hinv]
    refine (ih (s := { s with conns := s.deliver [m] }) hinv).trans ?_
    congr 1
    funext fd
    cases hc : s.conns fd with
    | none => simp [deliver, hc]
    | some c => by_cases hm : s.fdConn fd = some m.1 <;> simp [deliver, hc, hm]

/-- A call on the venue, its messages delivered. -/
theorem call_eq (hinv : Paired s.fdConn s.connFd) {ev : Event} (h : s.call build ev = .ok s') :
    ∃ session, s.session.step build ev = .ok session ∧
      s' = { s with session := session, conns := s.deliver session.venue.tables.sent } := by
  obtain ⟨session, hsession, hs'⟩ := bind_eq_ok.mp h
  refine ⟨session, hsession, ?_⟩
  have hfold := foldl_enqueue (s := { s with session := session }) hinv session.venue.tables.sent
  exact (Except.ok.inj hs').symm.trans hfold

theorem replies_deliver (c : Conn) (msgs : List Sent) :
    Conn.replies { c with out := c.out ++ msgs.map fun m => .reply m.2 } =
      c.replies ++ msgs.map Prod.snd := by
  have hmap : (msgs.map fun m => Payload.reply m.2).filterMap Payload.reply? =
      msgs.map Prod.snd := by
    rw [List.filterMap_map, ← List.filterMap_eq_map]
    rfl
  rw [Conn.replies, List.filterMap_append, hmap]
  rfl

/-! ## The steps -/

section Steps

variable {c : Conn}

theorem setConn_conns (s : Server cap) (fd : Fd) (c : Conn) (fd' : Fd) :
    (s.setConn fd c).conns fd' = if fd' = fd then some c else s.conns fd' :=
  Function.update_apply ..

/-- A change of a connection that is neither a reply nor a request. -/
theorem Routed.setConn (h : Routed build softCap n gone s) {c' : Conn} (hc : s.conns fd = some c)
    (hreplies : c'.replies = c.replies) (hhandled : c'.handled = c.handled) :
    Routed build softCap n gone (s.setConn fd c') := by
  refine { h with keys := fun fd' => ?_, belongs := fun fd' id c₁ hid hc₁ => ?_ }
  · rw [setConn_conns]
    split
    · next hfd =>
      rw [hfd]
      exact (h.keys fd).trans (by rw [hc]; rfl)
    · exact h.keys fd'
  · rw [setConn_conns] at hc₁
    split at hc₁
    · next hfd =>
      cases hc₁
      obtain ⟨hr, hh⟩ := h.belongs fd id c (hfd ▸ hid) hc
      exact ⟨hreplies.trans hr, hhandled.trans hh⟩
    · exact h.belongs fd' id c₁ hid hc₁

theorem Routed.paired (h : Routed build softCap n gone s) : Paired s.fdConn s.connFd := h.inverse

/-- A request handed to the venue under the id of its socket. -/
theorem Routed.line (h : Routed build softCap n gone s) (hc : s.conns fd = some c)
    (hid : s.fdConn fd = some id) {d : FrameDecoder} {payload : Bytes}
    (hs' : (s.setConn fd { c with decoder := d, handled := c.handled ++ [payload] }).call build
      (.line id payload) = .ok s') :
    Routed build softCap n gone s' ∧ s'.fdConn = s.fdConn ∧ (s'.conns fd).isSome := by
  set c₀ : Conn := { c with decoder := d, handled := c.handled ++ [payload] } with hc₀
  obtain ⟨session, hstep, rfl⟩ := call_eq (s := s.setConn fd c₀) h.inverse hs'
  have hstep : s.session.step build (.line id payload) = .ok session := hstep
  have hopen : (s.connFd id).isSome := by rw [(h.inverse fd id).mp hid]; rfl
  obtain ⟨events, hevents⟩ := h.reached
  have hsound := (session_size hevents).1
  obtain ⟨v', hv', hsession⟩ := Session.step_eq_ok.mp hstep
  have hv : session.venue = v' := by rw [hsession]
  have hamong : session.venue.tables.Among fun id => (s.connFd id).isSome := by
    rw [hv]
    exact h.among.line hopen hsound hv'
  have hgone : List.Forall₂ (fun id' x => session.Belongs id' x.2) gone s.closed := by
    -- the id of the request is open, and so are those of the replies
    refine ((List.forall₂_and_left _ _).mpr ⟨h.apart, h.closed⟩).imp ?_
    rintro id' x ⟨hnone, hold⟩
    refine hold.apart hstep (fun m hm heq => ?_) (if_neg ?_)
    · have hm := hamong.sent m hm
      rw [heq, hnone] at hm
      cases hm
    · rintro rfl
      rw [hnone] at hopen
      cases hopen
  refine ⟨⟨⟨_, session_snoc hevents hstep⟩, h.inverse, fun fd' => ?_, fun fd' id' c' hid' hc' => ?_,
    hgone, h.nodup, h.apart, ⟨hamong.live, hamong.record, fun m hm => ?_⟩, fun x hx => ?_, h.clock,
    h.issued⟩, rfl, ?_⟩
  · show (s.fdConn fd').isSome = ((s.setConn fd c₀).deliver _ fd').isSome
    rw [deliver, Option.isSome_map, setConn_conns]
    split
    · next hfd => rw [hfd, hid]; rfl
    · exact h.keys fd'
  · obtain ⟨c₁, hc₁, rfl⟩ := Option.map_eq_some_iff.mp hc'
    have hid' : s.fdConn fd' = some id' := hid'
    have hto : (session.venue.tables.sent.filter fun m => (s.setConn fd c₀).fdConn fd' = some m.1) =
        session.venue.tables.sent.filter fun m => m.1 = id' := by
      refine List.filter_congr fun m _ => decide_eq_decide.mpr ?_
      show s.fdConn fd' = some m.1 ↔ m.1 = id'
      rw [hid', Option.some_inj, eq_comm]
    rw [hto]
    have hreplies := replies_deliver c₁ (session.venue.tables.sent.filter fun m => m.1 = id')
    rw [setConn_conns] at hc₁
    split at hc₁
    · next hfd =>
      cases hc₁
      subst hfd
      have heq : id = id' := Option.some_inj.mp (hid.symm.trans hid')
      subst heq
      refine (h.belongs fd' id c hid hc).step hstep hreplies ?_
      rw [Event.lineOf, if_pos rfl]
      rfl
    · next hfd =>
      have hne : id ≠ id' := by
        rintro rfl
        exact hfd (h.paired.inj hid hid')
      refine (h.belongs fd' id' c₁ hid' hc₁).step hstep hreplies ?_
      rw [Event.lineOf, if_neg hne, Option.toList_none, List.append_nil]
  · cases hm
  · rw [Session.history_of_step hstep, List.mem_append, List.mem_singleton] at hx
    rcases hx with hx | rfl
    · exact h.heard x hx
    · refine ⟨fun id' payload' hev => ?_, fun m hm => Or.inl (hamong.sent m hm)⟩
      cases hev
      exact Or.inl hopen
  · show ((s.setConn fd c₀).deliver _ fd).isSome
    rw [deliver, Option.isSome_map, setConn_conns, if_pos rfl]
    rfl

/-- A closed socket: its id is never used again. -/
theorem Routed.close (h : Routed build softCap n gone s) (hc : s.conns fd = some c)
    (hid : s.fdConn fd = some id) {how : Closing} (hs' : s.closeConn build fd how = .ok s') :
    Routed build softCap n (gone ++ [id]) s' := by
  obtain ⟨s₁, hs₁, hs'⟩ := bind_eq_ok.mp hs'
  rw [hid] at hs₁
  obtain ⟨s₂, hs₂, hs₁⟩ := bind_eq_ok.mp hs₁
  obtain ⟨session, hstep, rfl⟩ := call_eq h.inverse hs₂
  obtain ⟨events, hevents⟩ := h.reached
  obtain ⟨v', hv', hsession⟩ := Session.step_eq_ok.mp hstep
  have hv : session.venue = v' := by rw [hsession]
  obtain ⟨hamong, hsent⟩ := h.among.drop (session_size hevents).1 rfl hv'
  rw [← hv] at hamong hsent
  cases hs₁
  cases hs'
  have hfd : s.connFd id = some fd := (h.inverse fd id).mp hid
  have hsame : ∀ id' c', s.session.Belongs id' c' → session.Belongs id' c' :=
    fun id' c' hold => hold.apart hstep (fun m hm => by rw [hsent] at hm; cases hm) rfl
  have hknown : ∀ id', s.Known gone id' → Known { s with
      connFd := Function.update s.connFd id none } (gone ++ [id]) id' := by
    intro id' hknown
    by_cases heq : id' = id
    · rw [heq]
      exact Or.inr (List.mem_append_right _ List.mem_cons_self)
    · rcases hknown with hopen | hgone
      · exact Or.inl (isSome_unpair.mpr ⟨heq, hopen⟩)
      · exact Or.inr (List.mem_append_left _ hgone)
  refine ⟨⟨_, session_snoc hevents hstep⟩, fun fd' id' => ?_, fun fd' => ?_,
    fun fd' id' c' hid' hc' => ?_, ?_, ?_, fun id' hid' => ?_, ⟨fun eid lo hlo => ?_,
    fun c' cid r hr => ?_, fun m hm => (by cases hm)⟩, fun x hx => ?_, h.clock, fun id' hk => ?_⟩
  · exact h.paired.unpair hid fd' id'
  · show (Function.update s.fdConn fd none fd').isSome =
      (Function.update (s.deliver session.venue.tables.sent) fd none fd').isSome
    rw [hsent, deliver_nil, Function.update_apply, Function.update_apply]
    split
    · rfl
    · exact h.keys fd'
  · have hid' : Function.update s.fdConn fd none fd' = some id' := hid'
    have hc' : Function.update (s.deliver session.venue.tables.sent) fd none fd' = some c' := hc'
    rw [Function.update_apply] at hid'
    rw [hsent, deliver_nil, Function.update_apply] at hc'
    split at hid'
    · cases hid'
    · next hne =>
      rw [if_neg hne] at hc'
      exact hsame id' c' (h.belongs fd' id' c' hid' hc')
  · show List.Forall₂ _ (gone ++ [id]) (s.closed ++
      ((s.deliver session.venue.tables.sent fd).map fun c => (how, c)).toList)
    rw [hsent, deliver_nil, hc]
    refine List.rel_append (h.closed.imp fun id' x hx => hsame id' x.2 hx) (.cons ?_ .nil)
    exact hsame id c (h.belongs fd id c hid hc)
  · refine List.nodup_append.mpr ⟨h.nodup, List.nodup_singleton id, fun x hx y hy heq => ?_⟩
    rw [heq, List.mem_singleton.mp hy] at hx
    rw [h.apart id hx] at hfd
    cases hfd
  · show Function.update s.connFd id none id' = none
    rw [Function.update_apply]
    split
    · rfl
    · next hne =>
      refine h.apart id' ?_
      rcases List.mem_append.mp hid' with hid' | hid'
      · exact hid'
      · exact absurd (List.mem_singleton.mp hid') hne
  · obtain ⟨hopen, hne⟩ := hamong.live eid lo hlo
    exact isSome_unpair.mpr ⟨hne, hopen⟩
  · obtain ⟨hopen, hne⟩ := hamong.record c' cid r hr
    exact isSome_unpair.mpr ⟨hne, hopen⟩
  · have hx : x ∈ session.history := hx
    rw [Session.history_of_step hstep, List.mem_append, List.mem_singleton] at hx
    rcases hx with hx | rfl
    · obtain ⟨hline, hmsg⟩ := h.heard x hx
      exact ⟨fun id' payload hev => hknown id' (hline id' payload hev), fun m hm =>
        hknown m.1 (hmsg m hm)⟩
    · refine ⟨fun id' payload hev => (by cases hev), fun m hm => ?_⟩
      rw [hsent] at hm
      cases hm
  · refine h.issued id' ?_
    rcases hk with hopen | hgone
    · exact Or.inl (isSome_unpair.mp hopen).2
    · rcases List.mem_append.mp hgone with hgone | hgone
      · exact Or.inr hgone
      · rw [List.mem_singleton.mp hgone]
        exact Or.inl (by rw [hfd]; rfl)

/-- The decoding loop hands over requests of one id. -/
theorem Routed.handleFrames {fuel : Nat} (h : Routed build softCap n gone s)
    (hid : s.fdConn fd = some id) (hs' : Server.handleFrames build fd id fuel s = .ok s') :
    Routed build softCap n gone s' ∧ s'.fdConn fd = some id := by
  induction fuel generalizing s with
  | zero => cases hs'; exact ⟨h, hid⟩
  | succ fuel ih =>
    cases hc : s.conns fd with
    | none =>
      rw [Server.handleFrames, hc] at hs'
      cases hs'
      exact ⟨h, hid⟩
    | some c =>
      simp only [Server.handleFrames, hc] at hs'
      cases hnext : c.decoder.next with
      | mk payload? d =>
        rw [hnext] at hs'
        cases payload? with
        | none =>
          cases hs'
          exact ⟨h.setConn hc rfl rfl, hid⟩
        | some payload =>
          obtain ⟨s₁, hs₁, hs'⟩ := bind_eq_ok.mp hs'
          obtain ⟨h₁, hfd, -⟩ := h.line hc hid hs₁
          exact ih h₁ (by rw [hfd]; exact hid) hs'

theorem Routed.id_of_conn (h : Routed build softCap n gone s) (hc : s.conns fd = some c) :
    ∃ id, s.fdConn fd = some id :=
  Option.isSome_iff_exists.mp ((h.keys fd).trans (by rw [hc]; rfl))

/-- A readable socket. -/
theorem Routed.read (h : Routed build softCap n gone s) {rs : List Recv}
    (hs' : s.handleReadable build fd rs = .ok s') : ∃ gone', Routed build softCap n gone' s' := by
  cases hc : s.conns fd with
  | none =>
    rw [Server.handleReadable, hc] at hs'
    cases hs'
    exact ⟨gone, h⟩
  | some c =>
    obtain ⟨id, hid⟩ := h.id_of_conn hc
    simp only [Server.handleReadable, hc] at hs'
    cases hr : recvLoop rs c.decoder with
    | mk d stop =>
      rw [hr] at hs'
      have h₀ : Routed build softCap n gone (s.setConn fd { c with
          decoder := d, received := c.received ++ [received rs] }) := h.setConn hc rfl rfl
      have hc₀ : (s.setConn fd { c with
          decoder := d, received := c.received ++ [received rs] }).conns fd = some _ :=
        Function.update_self _ _ _
      have hid₀ : (s.setConn fd { c with
          decoder := d, received := c.received ++ [received rs] }).fdConn fd = some id := hid
      dsimp only at hs'
      generalize s.setConn fd { c with decoder := d, received := c.received ++ [received rs] } = s₀
        at h₀ hc₀ hid₀ hs'
      cases stop with
      | some how => exact ⟨_, h₀.close hc₀ hid₀ hs'⟩
      | none =>
        obtain ⟨s₁, hs₁, hs'⟩ := bind_eq_ok.mp hs'
        -- the socket has its id: the lookup enters nothing
        have hsame : Function.update s₀.fdConn fd (some id) = s₀.fdConn := by
          rw [← hid₀, Function.update_eq_self]
        rw [hid₀, Option.getD_some, hsame] at hs₁
        obtain ⟨h₁, hid₁⟩ := h₀.handleFrames hid₀ hs₁
        split at hs'
        · next herror =>
          cases hc₁ : s₁.conns fd with
          | none =>
            rw [hc₁] at herror
            cases herror
          | some c₁ => exact ⟨_, h₁.close hc₁ hid₁ hs'⟩
        · cases hs'
          exact ⟨gone, h₁⟩

theorem acceptOne_eq {cfd : Fd} (hclosed : s.conns cfd = none) : s.acceptOne cfd = { s with
    nextConnId := s.nextConnId + 1
    conns := Function.update s.conns cfd
      (some { Conn.fresh with out := [.marketData s.venue.currentTop] })
    connFd := Function.update s.connFd s.nextConnId (some cfd)
    fdConn := Function.update s.fdConn cfd (some s.nextConnId) } := by
  simp [acceptOne, enqueue, Server.setConn, hclosed, venue, Conn.fresh]

/-- Nothing is known of an id that was not given to a socket. -/
theorem Routed.unheard (h : Routed build softCap n gone s) (hid : ¬ s.Known gone id) :
    s.session.sentTo id = [] ∧ s.session.linesOf id = [] := by
  constructor
  · refine List.map_eq_nil_iff.mpr (List.filter_eq_nil_iff.mpr fun m hm heq => hid ?_)
    obtain ⟨x, hx, hmx⟩ := List.mem_flatMap.mp hm
    exact of_decide_eq_true heq ▸ (h.heard x hx).2 m hmx
  · refine List.filterMap_eq_nil_iff.mpr fun x hx => ?_
    cases hev : x.1 with
    | drop c => rfl
    | line c payload =>
      have hne : c ≠ id := by
        rintro rfl
        exact hid ((h.heard x hx).1 c payload hev)
      exact if_neg hne

/-- A new socket gets an id of its own. -/
theorem Routed.accept (h : Routed build softCap n gone s) (hn : n + 1 < 2 ^ 64) {cfd : Fd}
    (hclosed : s.conns cfd = none) : Routed build softCap (n + 1) gone (s.acceptOne cfd) := by
  rw [acceptOne_eq hclosed]
  set id := s.nextConnId with hid
  have hval : id.toNat = n + 1 := by rw [hid, h.clock, UInt64.toNat_ofNat_of_lt' hn]
  have hnew : ¬ s.Known gone id := fun hknown => by
    have := (h.issued id hknown).2
    omega
  have hfree : s.connFd id = none := Option.not_isSome_iff_eq_none.mp fun hs => hnew (Or.inl hs)
  have hfd : s.fdConn cfd = none := by
    rw [← Option.not_isSome_iff_eq_none, h.keys, hclosed]
    simp
  have hkept : ∀ id', (s.connFd id').isSome →
      (Function.update s.connFd id (some cfd) id').isSome := fun id' hopen =>
    isSome_pair.mpr (Or.inr hopen)
  refine ⟨h.reached, fun fd id' => ?_, fun fd => ?_, fun fd id' c hfd' hc => ?_, h.closed, h.nodup,
    fun id' hgone => ?_, ⟨fun eid lo hlo => hkept _ (h.among.live eid lo hlo),
    fun c cid r hr => hkept c (h.among.record c cid r hr), fun m hm => (by cases hm)⟩,
    fun x hx => ?_, ?_, fun id' hknown => ?_⟩
  · exact h.paired.pair hfd hfree fd id'
  · show (Function.update s.fdConn cfd (some id) fd).isSome =
      (Function.update s.conns cfd (some _) fd).isSome
    rw [Function.update_apply, Function.update_apply]
    split
    · rfl
    · exact h.keys fd
  · have hfd' : Function.update s.fdConn cfd (some id) fd = some id' := hfd'
    have hc : Function.update s.conns cfd
      (some { Conn.fresh with out := [.marketData s.venue.currentTop] }) fd = some c := hc
    rw [Function.update_apply] at hfd' hc
    split at hfd'
    · next heq =>
      rw [if_pos heq] at hc
      cases hfd'
      cases hc
      obtain ⟨hsent, hlines⟩ := h.unheard hnew
      exact ⟨hsent.symm, hlines.symm⟩
    · next hne =>
      rw [if_neg hne] at hc
      exact h.belongs fd id' c hfd' hc
  · show Function.update s.connFd id (some cfd) id' = none
    rw [Function.update_apply, if_neg]
    · exact h.apart id' hgone
    · rintro rfl
      exact hnew (Or.inr hgone)
  · obtain ⟨hline, hmsg⟩ := h.heard x hx
    exact ⟨fun id' payload hev => (hline id' payload hev).imp_left (hkept id'), fun m hm =>
      (hmsg m hm).imp_left (hkept m.1)⟩
  · show id + 1 = UInt64.ofNat (n + 1 + 1)
    rw [hid, h.clock, UInt64.ofNat_add (n + 1)]
    rfl
  · rcases hknown with hopen | hgone
    · rcases isSome_pair.mp hopen with rfl | hopen
      · rw [hval]
        exact ⟨by omega, le_rfl⟩
      · have := h.issued id' (Or.inl hopen)
        omega
    · have := h.issued id' (Or.inr hgone)
      omega

/-- The feed goes to all, and is no reply. -/
theorem Routed.broadcast (h : Routed build softCap n gone s) {payload : Payload}
    (hp : payload.reply? = none) (seq : UInt64) (top : Venue.Top) : Routed build softCap n gone
      (broadcastPayload { s with heartbeatSeq := seq, lastTop := top } payload) := by
  refine ⟨h.reached, h.inverse, fun fd => ?_, fun fd id c hid hc => ?_, h.closed, h.nodup, h.apart,
    h.among, h.heard, h.clock, h.issued⟩
  · show _ = ((s.conns fd).map _).isSome
    rw [Option.isSome_map]
    exact h.keys fd
  · obtain ⟨c₀, hc₀, rfl⟩ := Option.map_eq_some_iff.mp hc
    obtain ⟨hr, hh⟩ := h.belongs fd id c₀ hid hc₀
    refine ⟨?_, hh⟩
    rw [Conn.replies, List.filterMap_append, List.filterMap_cons_none hp, List.filterMap_nil,
      List.append_nil]
    exact hr

theorem Routed.beat (h : Routed build softCap n gone s) :
    Routed build softCap n gone s.broadcastFeed := by
  have hheartbeat : Routed build softCap n gone (broadcastPayload { s with
      heartbeatSeq := s.heartbeatSeq + 1 } (.heartbeat (s.heartbeatSeq + 1))) :=
    h.broadcast rfl (s.heartbeatSeq + 1) s.lastTop
  exact hheartbeat.broadcast rfl (s.heartbeatSeq + 1) s.venue.currentTop

theorem routed_start {v : Venue cap} (hv : Venue.new cap softCap = .ok v) :
    Routed build softCap 0 [] (Server.start v) := by
  refine ⟨⟨[], by rw [Exchange.session, hv]; rfl⟩, fun fd id => iff_of_false (by simp [start])
    (by simp [start]), fun fd => rfl, fun fd id c hid => (by cases hid), .nil, List.nodup_nil,
    fun _ hid => (by cases hid), ?_, fun x hx => (by cases hx), rfl, ?_⟩
  · obtain ⟨b, -, hv⟩ := bind_eq_ok.mp hv
    cases hv
    exact ⟨fun id lo hlo => (by cases hlo), fun c cid r hr => (by cases hr),
      fun m hm => (by cases hm)⟩
  · rintro id (hopen | hgone)
    · cases hopen
    · cases hgone

end Steps

end Server

end MarketMakerOps.Exchange
