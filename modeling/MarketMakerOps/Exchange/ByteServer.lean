import MarketMakerOps.Exchange.Encoding
import MarketMakerOps.Exchange.Sockets

/-!
The poll loop (`venue/server.cpp`) down to the bytes of its output buffers.

* `ByteServer`: its connections hold the framed text still to be sent; `send` takes some bytes off
  its front, as many as the socket has room for, or none;
* `ByteConn.Carries`: what was sent and what is left are the frames of the payloads, each with some
  timestamp;
* `run_sim`: this server and `Server` run alike, whatever the sockets take.
-/

namespace MarketMakerOps.Exchange

open Decimal Engine Fallible

def mdPayload (top : Venue.Top) (ts : Bytes) : Bytes :=
  encodeMarketData kSymbol top.hasBid top.bidTicks top.hasAsk top.askTicks top.hasLast top.lastTicks
    ts

/-- The text of a payload. -/
def Payload.encode (ts : Bytes) : Payload → Bytes
  | .reply m => m.encode ts
  | .heartbeat seq => encodeHeartbeat seq ts
  | .marketData top => mdPayload top ts

/-- A connection. The bytes already sent are history. -/
structure ByteConn where
  decoder : FrameDecoder
  out : Bytes
  sent : Bytes
  deriving DecidableEq, Repr

def ByteConn.fresh : ByteConn := ⟨FrameDecoder.empty, [], []⟩

/-- A result of `send`: the bytes taken, or `errno`. -/
inductive Send
  | wrote (n : Nat)
  | again
  | intr
  | failed
  deriving DecidableEq, Repr

/-- A descriptor that is ready: the results of `recv` if it is readable,
those of `send` if it is writable. -/
structure ByteReady where
  fd : Fd
  hangUp : Bool
  readable : Option (List Recv)
  writable : Option (List Send)
  deriving DecidableEq, Repr

structure BytePass where
  heartbeat : Bool
  accepts : List Fd
  ready : List ByteReady
  deriving DecidableEq, Repr

/-- What the loop has taken off the buffer, what is left, and whether
the connection is to be closed. -/
def sendLoop : List Send → Bytes → Bytes × Bytes × Bool
  | _, [] => ([], [], false)
  | [], out => ([], out, false)
  | .wrote n :: rs, out =>
    if n > 0 then
      let (taken, left, fails) := sendLoop rs (out.drop n)
      (out.take n ++ taken, left, fails)
    else ([], out, true)
  | .again :: _, out => ([], out, false)
  | .intr :: rs, out => sendLoop rs out
  | .failed :: _, out => ([], out, true)

/-- `clock` are the readings to come. -/
structure ByteServer (cap : Nat) where
  clock : Nat → UtcTime
  nextConnId : ConnId
  heartbeatSeq : UInt64
  lastTop : Venue.Top
  conns : Fd → Option ByteConn
  connFd : ConnId → Option Fd
  fdConn : Fd → Option ConnId
  session : Session cap
  closed : List (Closing × ByteConn)

namespace ByteServer

variable {cap : Nat}

def venue (b : ByteServer cap) : Venue cap := b.session.venue

def isoTimestampNow (b : ByteServer cap) : Bytes × ByteServer cap :=
  (isoTimestamp (b.clock 0), { b with clock := fun n => b.clock (n + 1) })

def setConn (b : ByteServer cap) (fd : Fd) (c : ByteConn) : ByteServer cap :=
  { b with conns := Function.update b.conns fd (some c) }

def enqueue (b : ByteServer cap) (id : ConnId) (payload : Bytes) : ByteServer cap :=
  match b.connFd id with
  | none => b
  | some fd =>
    match b.conns fd with
    | none => b
    | some c => b.setConn fd { c with out := c.out ++ encodeFrame payload }

def broadcastPayload (b : ByteServer cap) (payload : Bytes) : ByteServer cap :=
  let framed := encodeFrame payload
  { b with conns := fun fd => (b.conns fd).map fun c => { c with out := c.out ++ framed } }

def broadcastFeed (b : ByteServer cap) : ByteServer cap :=
  let b := { b with heartbeatSeq := b.heartbeatSeq + 1 }
  let (ts, b) := b.isoTimestampNow
  let b := b.broadcastPayload (encodeHeartbeat b.heartbeatSeq ts)
  let b := { b with lastTop := b.venue.currentTop }
  let (ts, b) := b.isoTimestampNow
  b.broadcastPayload (mdPayload b.lastTop ts)

def acceptOne (b : ByteServer cap) (cfd : Fd) : ByteServer cap :=
  let cid := b.nextConnId
  let b := { b with nextConnId := b.nextConnId + 1 }
  let b := if (b.conns cfd).isSome then b else b.setConn cfd ByteConn.fresh
  let b := { b with
    connFd := Function.update b.connFd cid (some cfd)
    fdConn := Function.update b.fdConn cfd (some cid) }
  let (ts, b) := b.isoTimestampNow
  b.enqueue cid (mdPayload b.venue.currentTop ts)

def acceptNew (b : ByteServer cap) (accepts : List Fd) : ByteServer cap := accepts.foldl acceptOne b

/-- One message of the venue, stamped and enqueued. -/
def reply (b : ByteServer cap) (m : Sent) : ByteServer cap :=
  let (ts, b) := b.isoTimestampNow
  b.enqueue m.1 (m.2.encode ts)

variable (build : Build)

def call (b : ByteServer cap) (ev : Event) : Except Fault (ByteServer cap) := do
  let session ← b.session.step build ev
  pure (session.venue.tables.sent.foldl reply { b with session := session })

def closeConn (b : ByteServer cap) (fd : Fd) (how : Closing) : Except Fault (ByteServer cap) := do
  let b ← (match b.fdConn fd with
    | none => .ok b
    | some cid => do
      let b ← b.call build (.drop cid)
      pure { b with
        connFd := Function.update b.connFd cid none
        fdConn := Function.update b.fdConn fd none })
  pure { b with
    conns := Function.update b.conns fd none
    closed := b.closed ++ ((b.conns fd).map fun c => (how, c)).toList }

def handleFrames (fd : Fd) (cid : ConnId) : Nat → ByteServer cap → Except Fault (ByteServer cap)
  | 0, b => .ok b
  | fuel + 1, b =>
    match b.conns fd with
    | none => .ok b
    | some c =>
      match c.decoder.next with
      | (none, d) => .ok (b.setConn fd { c with decoder := d })
      | (some payload, d) => do
        let b := b.setConn fd { c with decoder := d }
        let b ← b.call build (.line cid payload)
        handleFrames fd cid fuel b

def handleReadable (b : ByteServer cap) (fd : Fd) (rs : List Recv) :
    Except Fault (ByteServer cap) :=
  match b.conns fd with
  | none => .ok b
  | some c => do
    let (d, stop) := Server.recvLoop rs c.decoder
    let b := b.setConn fd { c with decoder := d }
    match stop with
    | some how => b.closeConn build fd how
    | none => do
      let cid := (b.fdConn fd).getD 0
      let b := { b with fdConn := Function.update b.fdConn fd (some cid) }
      let b ← handleFrames build fd cid (d.buf.length + 1) b
      if (b.conns fd).any fun c => c.decoder.error then b.closeConn build fd .framingError
      else pure b

def handleWritable (b : ByteServer cap) (fd : Fd) (rs : List Send) :
    Except Fault (ByteServer cap) :=
  match b.conns fd with
  | none => .ok b
  | some c =>
    let (taken, left, fails) := sendLoop rs c.out
    let b := b.setConn fd { c with out := left, sent := c.sent ++ taken }
    if fails then b.closeConn build fd .sendFailed else .ok b

/-- The second half of a ready descriptor. -/
def flush (b : ByteServer cap) (r : ByteReady) : Except Fault (ByteServer cap) :=
  match r.writable with
  | none => .ok b
  | some rs => b.handleWritable build r.fd rs

def serve (b : ByteServer cap) (r : ByteReady) : Except Fault (ByteServer cap) :=
  if (b.conns r.fd).isNone then .ok b
  else if r.hangUp then b.closeConn build r.fd .hangUp
  else do
    let b ← (match r.readable with
      | none => .ok b
      | some rs => b.handleReadable build r.fd rs)
    b.flush build r

def pass (b : ByteServer cap) (p : BytePass) : Except Fault (ByteServer cap) := do
  let b := if p.heartbeat then b.broadcastFeed else b
  let b := b.acceptNew p.accepts
  let b ← Fallible.run (serve build) b p.ready
  let top := b.venue.currentTop
  if top ≠ b.lastTop then
    let b := { b with lastTop := top }
    let (ts, b) := b.isoTimestampNow
    pure (b.broadcastPayload (mdPayload top ts))
  else pure b

def start (clock : Nat → UtcTime) (v : Venue cap) : ByteServer cap :=
  ⟨clock, 1, 0, ⟨false, 0, false, 0, false, 0⟩, fun _ => none, fun _ => none, fun _ => none,
    Session.start v, []⟩

def run (build : Build) (cap softCap : Nat) (clock : Nat → UtcTime) (passes : List BytePass) :
    Except Fault (ByteServer cap) := do
  let v ← Venue.new cap softCap
  Fallible.run (pass build) (start clock v) passes

/-- `accept` returns descriptors that are not open. -/
def AcceptsClosed (b : ByteServer cap) (p : BytePass) : Prop :=
  p.accepts.Nodup ∧ ∀ fd ∈ p.accepts, b.conns fd = none

instance (b : ByteServer cap) (p : BytePass) : Decidable (b.AcceptsClosed p) :=
  inferInstanceAs (Decidable (_ ∧ _))

end ByteServer

/-- Midnight of the first day, always. -/
def stoppedClock : Nat → UtcTime := fun _ =>
  ⟨⟨1970, by decide⟩, ⟨1, by decide⟩, ⟨1, by decide⟩, ⟨0, by decide⟩, ⟨0, by decide⟩,
    ⟨0, by decide⟩, ⟨0, by decide⟩⟩

/-! ## Output buffers -/

/-- The text of a payload, with some timestamp. -/
def Payload.Text (p : Payload) (text : Bytes) : Prop := ∃ t, text = p.encode (isoTimestamp t)

/-- The frames of the payloads, one after the other. -/
def Stamped (payloads : List Payload) (bytes : Bytes) : Prop :=
  ∃ texts, List.Forall₂ Payload.Text payloads texts ∧ bytes = (texts.map encodeFrame).flatten

theorem Stamped.append {payloads : List Payload} {bytes : Bytes} (h : Stamped payloads bytes)
    {p : Payload} {text : Bytes} (ht : p.Text text) :
    Stamped (payloads ++ [p]) (bytes ++ encodeFrame text) := by
  obtain ⟨texts, htexts, rfl⟩ := h
  exact ⟨texts ++ [text], List.rel_append htexts (.cons ht .nil), by simp⟩

/-- A connection of the one server for one of the other. -/
structure ByteConn.Carries (b : ByteConn) (c : Conn) : Prop where
  decoder : b.decoder = c.decoder
  bytes : Stamped c.out (b.sent ++ b.out)

section Conns

variable {b : ByteConn} {c : Conn}

theorem ByteConn.Carries.fresh : ByteConn.fresh.Carries Conn.fresh := ⟨rfl, [], .nil, rfl⟩

theorem ByteConn.Carries.append (h : b.Carries c) {p : Payload} {text : Bytes} (ht : p.Text text) :
    ByteConn.Carries { b with out := b.out ++ encodeFrame text }
    { c with out := c.out ++ [p] } := by
  refine ⟨h.decoder, ?_⟩
  have happend := h.bytes.append ht
  rwa [List.append_assoc] at happend

/-- Decoding does not touch the output. -/
theorem ByteConn.Carries.decode (h : b.Carries c) (d : FrameDecoder)
    (received handled : List Bytes) :
    ByteConn.Carries { b with decoder := d }
      { c with decoder := d, received := received, handled := handled } := ⟨rfl, h.bytes⟩

/-- What `send` takes is what the buffer loses. -/
theorem sendLoop_append (rs : List Send) (out : Bytes) :
    (sendLoop rs out).1 ++ (sendLoop rs out).2.1 = out := by
  induction rs generalizing out with
  | nil => cases out <;> rfl
  | cons r rs ih =>
    cases out with
    | nil => cases r <;> rfl
    | cons x out =>
      cases r with
      | wrote n =>
        rw [sendLoop]
        split
        · have hrest := ih ((x :: out).drop n)
          dsimp only
          rw [List.append_assoc, hrest, List.take_append_drop]
        · rfl
        · simp
      | again => rfl
      | intr =>
        rw [sendLoop]
        · exact ih (x :: out)
        · simp
      | failed => rfl

theorem ByteConn.Carries.send (h : b.Carries c) (rs : List Send) :
    ByteConn.Carries { b with
      out := (sendLoop rs b.out).2.1
      sent := b.sent ++ (sendLoop rs b.out).1 } c := by
  refine ⟨h.decoder, ?_⟩
  rw [List.append_assoc, sendLoop_append]
  exact h.bytes

end Conns

/-! ## The same server -/

/-- The two servers agree; each connection of the one carries the payloads of the other's. -/
structure ByteServer.Refines {cap : Nat} (b : ByteServer cap) (s : Server cap) : Prop where
  nextConnId : b.nextConnId = s.nextConnId
  heartbeatSeq : b.heartbeatSeq = s.heartbeatSeq
  lastTop : b.lastTop = s.lastTop
  connFd : b.connFd = s.connFd
  fdConn : b.fdConn = s.fdConn
  session : b.session = s.session
  conns : ∀ fd, Option.Rel ByteConn.Carries (b.conns fd) (s.conns fd)
  closed : List.Forall₂ (fun x y => x.1 = y.1 ∧ x.2.Carries y.2) b.closed s.closed

namespace ByteServer

variable {cap : Nat} {build : Build} {b : ByteServer cap} {s : Server cap}

section Steps

theorem Refines.none_iff (h : b.Refines s) (fd : Fd) : b.conns fd = none ↔ s.conns fd = none := by
  have hfd := h.conns fd
  cases hb : b.conns fd <;> cases hs : s.conns fd <;> rw [hb, hs] at hfd <;> cases hfd <;> simp

/-- Both servers have the connection, or neither. -/
theorem Refines.conn (h : b.Refines s) (fd : Fd) :
    b.conns fd = none ∧ s.conns fd = none ∨
      ∃ c c', b.conns fd = some c ∧ s.conns fd = some c' ∧ c.Carries c' := by
  have hfd := h.conns fd
  cases hb : b.conns fd with
  | none => exact Or.inl ⟨rfl, (h.none_iff fd).mp hb⟩
  | some c =>
    rw [hb] at hfd
    cases hs : s.conns fd with
    | none =>
      rw [hs] at hfd
      cases hfd
    | some c' =>
      rw [hs] at hfd
      cases hfd with
      | some hc => exact Or.inr ⟨c, c', rfl, rfl, hc⟩

/-- The clock is not part of it. -/
theorem Refines.tick (h : b.Refines s) : b.isoTimestampNow.2.Refines s :=
  ⟨h.nextConnId, h.heartbeatSeq, h.lastTop, h.connFd, h.fdConn, h.session, h.conns, h.closed⟩

theorem Refines.withTop (h : b.Refines s) {top top' : Venue.Top} (htop : top = top') :
    Refines { b with lastTop := top } { s with lastTop := top' } :=
  ⟨h.nextConnId, h.heartbeatSeq, htop, h.connFd, h.fdConn, h.session, h.conns, h.closed⟩

theorem Refines.withMaps (h : b.Refines s) {connFd connFd' : ConnId → Option Fd}
    {fdConn fdConn' : Fd → Option ConnId} (hcf : connFd = connFd') (hfc : fdConn = fdConn') :
    Refines { b with connFd := connFd, fdConn := fdConn }
      { s with connFd := connFd', fdConn := fdConn' } :=
  ⟨h.nextConnId, h.heartbeatSeq, h.lastTop, hcf, hfc, h.session, h.conns, h.closed⟩

theorem Refines.setConn (h : b.Refines s) (fd : Fd) {c : ByteConn} {c' : Conn}
    (hc : c.Carries c') : (b.setConn fd c).Refines (s.setConn fd c') := by
  refine ⟨h.nextConnId, h.heartbeatSeq, h.lastTop, h.connFd, h.fdConn, h.session, fun fd' => ?_,
    h.closed⟩
  by_cases hfd : fd' = fd
  · subst hfd
    simp only [ByteServer.setConn, Server.setConn, Function.update_self]
    exact .some hc
  · simp only [ByteServer.setConn, Server.setConn, Function.update_of_ne hfd]
    exact h.conns fd'

theorem Refines.enqueue (h : b.Refines s) (id : ConnId) {p : Payload} {text : Bytes}
    (ht : p.Text text) : (b.enqueue id text).Refines (s.enqueue id p) := by
  unfold ByteServer.enqueue Server.enqueue
  rw [h.connFd]
  cases s.connFd id with
  | none => exact h
  | some fd =>
    dsimp only
    rcases h.conn fd with ⟨hb, hs⟩ | ⟨c, c', hb, hs, hc⟩
    · rw [hb, hs]
      exact h
    · rw [hb, hs]
      exact h.setConn fd (hc.append ht)

theorem Refines.broadcast (h : b.Refines s) {p : Payload} {text : Bytes} (ht : p.Text text) :
    (b.broadcastPayload text).Refines (s.broadcastPayload p) := by
  refine ⟨h.nextConnId, h.heartbeatSeq, h.lastTop, h.connFd, h.fdConn, h.session, fun fd => ?_,
    h.closed⟩
  rcases h.conn fd with ⟨hb, hs⟩ | ⟨c, c', hb, hs, hc⟩
  · simp only [broadcastPayload, Server.broadcastPayload, hb, hs, Option.map_none]
    exact .none
  · simp only [broadcastPayload, Server.broadcastPayload, hb, hs, Option.map_some]
    exact .some (hc.append ht)

theorem Refines.venue (h : b.Refines s) : b.venue = s.venue := congrArg Session.venue h.session

theorem Refines.broadcastFeed (h : b.Refines s) : b.broadcastFeed.Refines s.broadcastFeed := by
  have hbeat : Refines { b with heartbeatSeq := b.heartbeatSeq + 1 }
      { s with heartbeatSeq := s.heartbeatSeq + 1 } :=
    ⟨h.nextConnId, congrArg (· + 1) h.heartbeatSeq, h.lastTop, h.connFd, h.fdConn, h.session,
      h.conns, h.closed⟩
  have h₁ := hbeat.tick.broadcast (p := .heartbeat (s.heartbeatSeq + 1))
    ⟨b.clock 0, congrArg (encodeHeartbeat · _) (congrArg (· + 1) h.heartbeatSeq)⟩
  have htop : b.venue.currentTop = s.venue.currentTop := congrArg Venue.currentTop h.venue
  exact (h₁.withTop htop).tick.broadcast (p := .marketData s.venue.currentTop)
    ⟨b.clock 1, congrArg (mdPayload · _) htop⟩

theorem Refines.acceptOne (h : b.Refines s) (cfd : Fd) :
    (b.acceptOne cfd).Refines (s.acceptOne cfd) := by
  have hnext : Refines { b with nextConnId := b.nextConnId + 1 }
      { s with nextConnId := s.nextConnId + 1 } :=
    ⟨congrArg (· + 1) h.nextConnId, h.heartbeatSeq, h.lastTop, h.connFd, h.fdConn, h.session,
      h.conns, h.closed⟩
  unfold ByteServer.acceptOne Server.acceptOne
  rw [h.nextConnId] at hnext ⊢
  have hnew : Refines
      (if (b.conns cfd).isSome then { b with nextConnId := s.nextConnId + 1 }
        else ByteServer.setConn { b with nextConnId := s.nextConnId + 1 } cfd ByteConn.fresh)
      (if (s.conns cfd).isSome then { s with nextConnId := s.nextConnId + 1 }
        else Server.setConn { s with nextConnId := s.nextConnId + 1 } cfd Conn.fresh) := by
    rcases h.conn cfd with ⟨hb, hs⟩ | ⟨c, c', hb, hs, -⟩
    · simp only [hb, hs, Option.isSome_none, Bool.false_eq_true, if_false]
      exact hnext.setConn cfd .fresh
    · simp only [hb, hs, Option.isSome_some, if_true]
      exact hnext
  have hentered := hnew.withMaps
    (congrArg (Function.update · s.nextConnId (some cfd)) hnew.connFd)
    (congrArg (Function.update · cfd (some s.nextConnId)) hnew.fdConn)
  have htop := congrArg (fun v => mdPayload (Venue.currentTop v)) hentered.tick.venue
  exact hentered.tick.enqueue s.nextConnId (p := .marketData _) ⟨_, congrFun htop _⟩

theorem Refines.acceptNew (h : b.Refines s) (accepts : List Fd) :
    (b.acceptNew accepts).Refines (s.acceptNew accepts) := by
  induction accepts generalizing b s with
  | nil => exact h
  | cons cfd accepts ih => exact ih (h.acceptOne cfd)

theorem Refines.call (h : b.Refines s) (ev : Event) :
    Sim Refines (b.call build ev) (s.call build ev) := by
  unfold ByteServer.call Server.call
  rw [h.session]
  refine Sim.bind (R := Eq) ?_ fun session session' hsession => ?_
  · cases s.session.step build ev with
    | error e => exact rfl
    | ok session => exact rfl
  · subst hsession
    have hfold : ∀ (msgs : List Sent) (b : ByteServer cap) (s : Server cap), b.Refines s →
        (msgs.foldl reply b).Refines (msgs.foldl (fun s m => s.enqueue m.1 (.reply m.2)) s) := by
      intro msgs
      induction msgs with
      | nil => exact fun b s h => h
      | cons m msgs ih =>
        exact fun b s h => ih _ _ (h.tick.enqueue m.1 (p := .reply m.2) ⟨b.clock 0, rfl⟩)
    exact hfold _ _ _ ⟨h.nextConnId, h.heartbeatSeq, h.lastTop, h.connFd, h.fdConn, rfl, h.conns,
      h.closed⟩

/-- Taking a descriptor out of `conns_`. -/
theorem Refines.remove (h : b.Refines s) (fd : Fd) (how : Closing) :
    Refines { b with
        conns := Function.update b.conns fd none
        closed := b.closed ++ ((b.conns fd).map fun c => (how, c)).toList }
      { s with
        conns := Function.update s.conns fd none
        closed := s.closed ++ ((s.conns fd).map fun c => (how, c)).toList } := by
  refine ⟨h.nextConnId, h.heartbeatSeq, h.lastTop, h.connFd, h.fdConn, h.session, fun fd' => ?_, ?_⟩
  · by_cases hfd : fd' = fd
    · subst hfd
      simp only [Function.update_self]
      exact .none
    · simp only [Function.update_of_ne hfd]
      exact h.conns fd'
  · refine List.rel_append h.closed ?_
    rcases h.conn fd with ⟨hb, hs⟩ | ⟨c, c', hb, hs, hc⟩
    · rw [hb, hs]
      exact .nil
    · rw [hb, hs]
      exact .cons ⟨rfl, hc⟩ .nil

theorem Refines.closeConn (h : b.Refines s) (fd : Fd) (how : Closing) :
    Sim Refines (b.closeConn build fd how) (s.closeConn build fd how) := by
  unfold ByteServer.closeConn Server.closeConn
  refine Sim.bind (R := Refines) ?_ fun b' s' h' => Sim.ok (h'.remove fd how)
  rw [h.fdConn]
  cases s.fdConn fd with
  | none => exact h
  | some cid =>
    exact (h.call (.drop cid)).bind fun b' s' h' =>
      Sim.ok (h'.withMaps (congrArg (Function.update · _ _) h'.connFd)
        (congrArg (Function.update · _ _) h'.fdConn))

theorem Refines.handleFrames (h : b.Refines s) (fd : Fd) (cid : ConnId) (fuel : Nat) :
    Sim Refines (handleFrames build fd cid fuel b) (Server.handleFrames build fd cid fuel s) := by
  induction fuel generalizing b s with
  | zero => exact h
  | succ fuel ih =>
    unfold ByteServer.handleFrames Server.handleFrames
    rcases h.conn fd with ⟨hb, hs⟩ | ⟨c, c', hb, hs, hc⟩
    · rw [hb, hs]
      exact h
    · rw [hb, hs]
      dsimp only
      rw [hc.decoder]
      cases c'.decoder.next with
      | mk payload? d =>
        cases payload? with
        | none => exact h.setConn fd (hc.decode d c'.received c'.handled)
        | some payload =>
          have hset := h.setConn fd (hc.decode d c'.received (c'.handled ++ [payload]))
          exact (hset.call (.line cid payload)).bind fun b' s' h' => ih h'

theorem Refines.handleReadable (h : b.Refines s) (fd : Fd) (rs : List Recv) :
    Sim Refines (b.handleReadable build fd rs) (s.handleReadable build fd rs) := by
  unfold ByteServer.handleReadable Server.handleReadable
  rcases h.conn fd with ⟨hb, hs⟩ | ⟨c, c', hb, hs, hc⟩
  · rw [hb, hs]
    exact h
  · rw [hb, hs]
    dsimp only
    rw [hc.decoder]
    cases Server.recvLoop rs c'.decoder with
    | mk d stop =>
      have hset := h.setConn fd
        (hc.decode d (c'.received ++ [Server.received rs]) c'.handled)
      cases stop with
      | some how => exact hset.closeConn fd how
      | none =>
        obtain ⟨cid, hcid, hcid'⟩ : ∃ cid,
            ((b.setConn fd { c with decoder := d }).fdConn fd).getD 0 = cid ∧
            ((s.setConn fd { c' with decoder := d, received := c'.received ++
              [Server.received rs] }).fdConn fd).getD 0 = cid :=
          ⟨_, rfl, congrArg (fun f : Fd → Option ConnId => (f fd).getD 0) hset.fdConn.symm⟩
        dsimp only
        rw [hcid, hcid']
        have hentered := hset.withMaps hset.connFd
          (congrArg (Function.update · fd (some cid)) hset.fdConn)
        refine (hentered.handleFrames fd cid (d.buf.length + 1)).bind fun b' s' h' => ?_
        rcases h'.conn fd with ⟨hb', hs'⟩ | ⟨c₁, c₁', hb', hs', hc₁⟩
        · rw [hb', hs']
          exact h'
        · rw [hb', hs', Option.any_some, Option.any_some, hc₁.decoder]
          split
          · exact h'.closeConn fd .framingError
          · exact h'

/-- Of a write all that is left is whether it fails. -/
theorem Refines.handleWritable (h : b.Refines s) (fd : Fd) (rs : List Send) : ∃ fails : Bool,
    Sim Refines (b.handleWritable build fd rs)
      (if (s.conns fd).isSome ∧ fails = true then s.closeConn build fd .sendFailed
      else pure s) := by
  unfold ByteServer.handleWritable
  rcases h.conn fd with ⟨hb, hs⟩ | ⟨c, c', hb, hs, hc⟩
  · refine ⟨false, ?_⟩
    rw [hb, hs, if_neg (by simp)]
    exact h
  · rw [hb, hs]
    refine ⟨(sendLoop rs c.out).2.2, ?_⟩
    have hsame : s.setConn fd c' = s := by
      rw [Server.setConn, ← hs, Function.update_eq_self]
    have hset := h.setConn fd (hc.send rs)
    rw [hsame] at hset
    dsimp only
    cases (sendLoop rs c.out).2.2 with
    | false => exact hset
    | true => exact hset.closeConn fd .sendFailed

end Steps

/-- The same descriptor, its writing aside. -/
structure SameReady (r : ByteReady) (r' : Ready) : Prop where
  fd : r'.fd = r.fd
  hangUp : r'.hangUp = r.hangUp
  readable : r'.readable = r.readable

theorem Refines.serve (h : b.Refines s) (r : ByteReady) : ∃ r', SameReady r r' ∧
    Sim Refines (b.serve build r) (s.serve build r') := by
  have hsame : ∀ x, SameReady r ⟨r.fd, r.hangUp, r.readable, x⟩ := fun _ => ⟨rfl, rfl, rfl⟩
  unfold ByteServer.serve Server.serve
  rcases h.conn r.fd with ⟨hb, hs⟩ | ⟨c, c', hb, hs, -⟩
  · refine ⟨_, hsame none, ?_⟩
    rw [hb, hs]
    exact h
  · simp only [hb, Option.isNone_some, Bool.false_eq_true, if_false]
    by_cases hup : r.hangUp = true
    · refine ⟨_, hsame none, ?_⟩
      simp only [hs, hup, Option.isNone_some, Bool.false_eq_true, if_false, if_true]
      exact h.closeConn r.fd .hangUp
    · -- whether the write fails depends on what is in the buffer once the requests are handled
      have hwrite : ∀ (x : Except Fault (ByteServer cap)) (y : Except Fault (Server cap)),
          Sim Refines x y → ∃ fails : Bool,
          Sim Refines (x >>= fun b => b.flush build r) (y >>= fun s =>
            if (s.conns r.fd).isSome ∧ fails = true then s.closeConn build r.fd .sendFailed
            else pure s) := by
        intro x y hxy
        refine hxy.bind_exists fun b' s' h' => ?_
        unfold ByteServer.flush
        cases r.writable with
        | none =>
          refine ⟨false, ?_⟩
          rw [if_neg (by simp)]
          exact h'
        | some rs => exact h'.handleWritable r.fd rs
      cases hr : r.readable with
      | none =>
        obtain ⟨fails, hfails⟩ := hwrite _ _ (Sim.ok h)
        refine ⟨_, hsame (some fails), ?_⟩
        simp only [hs, hup, hr, Option.isNone_some, Bool.false_eq_true, if_false, Option.some.injEq]
        exact hfails
      | some rs =>
        obtain ⟨fails, hfails⟩ := hwrite _ _ (h.handleReadable r.fd rs)
        refine ⟨_, hsame (some fails), ?_⟩
        simp only [hs, hup, hr, Option.isNone_some, Bool.false_eq_true, if_false, Option.some.injEq]
        exact hfails

/-- The same iteration, its writing aside. -/
structure SamePass (p : BytePass) (p' : Pass) : Prop where
  heartbeat : p'.heartbeat = p.heartbeat
  accepts : p'.accepts = p.accepts
  ready : List.Forall₂ SameReady p.ready p'.ready

theorem Refines.pass (h : b.Refines s) (p : BytePass) : ∃ p', SamePass p p' ∧
    Sim Refines (b.pass build p) (s.pass build p') := by
  have hbeat : (if p.heartbeat then b.broadcastFeed else b).Refines
      (if p.heartbeat then s.broadcastFeed else s) := by
    split
    · exact h.broadcastFeed
    · exact h
  have hserve : ∀ (b : ByteServer cap) (s : Server cap) (r : ByteReady), b.Refines s →
      ∃ r', SameReady r r' ∧ Sim Refines (b.serve build r) (s.serve build r') :=
    fun _ _ r h => h.serve r
  have hany : ∀ (b : ByteServer cap) (s : Server cap) (r : ByteReady) (r' : Ready), b.Refines s →
      SameReady r r' → True → True := fun _ _ _ _ _ _ => id
  obtain ⟨ready, hready, hsim, -⟩ := Sim.run_exists hserve hany (hbeat.acceptNew p.accepts) p.ready
  refine ⟨⟨p.heartbeat, p.accepts, ready⟩, ⟨rfl, rfl, hready⟩, hsim.bind fun b' s' h' => ?_⟩
  have htop : b'.venue.currentTop = s'.venue.currentTop := congrArg Venue.currentTop h'.venue
  rw [htop, h'.lastTop]
  dsimp only
  split
  · exact (h'.withTop rfl).tick.broadcast ⟨b'.clock 0, rfl⟩
  · exact h'

theorem refines_start (clock : Nat → UtcTime) (v : Venue cap) :
    (start clock v).Refines (Server.start v) :=
  ⟨rfl, rfl, rfl, rfl, rfl, rfl, fun _ => .none, .nil⟩

/-- Whatever the sockets take, this server does what the other does, or fails with it. -/
theorem run_sim (build : Build) (clock : Nat → UtcTime) (v : Venue cap) (passes : List BytePass) :
    ∃ passes', List.Forall₂ SamePass passes passes' ∧
      Sim Refines (Fallible.run (pass build) (start clock v) passes)
        (Fallible.run (Server.pass build) (Server.start v) passes') ∧
      (Allowed (pass build) AcceptsClosed (start clock v) passes →
        Allowed (Server.pass build) Server.AcceptsClosed (Server.start v) passes') := by
  refine Sim.run_exists (fun b s p h => h.pass p) (fun b s p p' h hp hok => ?_)
    (refines_start clock v) passes
  rw [Server.AcceptsClosed, hp.accepts]
  exact ⟨hok.1, fun fd hfd => (h.none_iff fd).mp (hok.2 fd hfd)⟩

/-- Values that related entries share. -/
theorem map_eq_of_forall₂ {α β γ : Type*} {T : α → β → Prop} {f : α → γ} {g : β → γ} {as : List α}
    {bs : List β} (h : List.Forall₂ T as bs) (hfg : ∀ a b, T a b → f a = g b) :
    as.map f = bs.map g := by
  induction h with
  | nil => rfl
  | cons hab _ ih => rw [List.map_cons, List.map_cons, hfg _ _ hab, ih]

/-- A run that succeeds, and never accepts a descriptor that is open, is one of the other server. -/
theorem run_refines {softCap : Nat} {clock : Nat → UtcTime} {passes : List BytePass}
    (h : run build cap softCap clock passes = .ok b)
    (hp : ∀ v, Venue.new cap softCap = .ok v →
      Allowed (pass build) AcceptsClosed (start clock v) passes) :
    ∃ passes' s, Server.run build cap softCap passes' = .ok s ∧ b.Refines s ∧
      Server.Reached build softCap (passes.map fun p => p.accepts.length).sum s := by
  obtain ⟨v, hv, hrun⟩ := bind_eq_ok.mp h
  obtain ⟨passes', hsame, hsim, hallowed⟩ := run_sim build clock v passes
  obtain ⟨s, hs, hR⟩ := hsim.of_ok_left hrun
  have hrun' : Server.run build cap softCap passes' = .ok s := by
    rw [Server.run, hv]
    exact hs
  have hreached := Server.run_reached hrun' fun v' hv' => by
    cases hv.symm.trans hv'
    exact hallowed (hp v hv)
  have hcount := map_eq_of_forall₂ (f := fun p => p.accepts.length) (g := fun p => p.accepts.length)
    hsame fun p p' hp => congrArg List.length hp.accepts.symm
  rw [← hcount] at hreached
  exact ⟨passes', s, hrun', hR, hreached⟩

end ByteServer

end MarketMakerOps.Exchange
