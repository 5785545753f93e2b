import MarketMakerOps.Exchange.Framing
import MarketMakerOps.Exchange.Runs

/-!
The poll loop (`venue/server.cpp`): connections, their decoders and output streams, one
iteration at a time.

What the system calls return is the input of an iteration: the accepted descriptors,
the descriptors that are ready, the results of `recv` on each. The maps are functions to
options. An output stream keeps all that was appended to it; what `send` has taken off its
front only decides which descriptors are ready. Timestamps are left out.
-/

namespace MarketMakerOps.Exchange

open Decimal Engine Fallible

/-- A file descriptor. -/
abbrev Fd := Nat

/-- What is framed and appended to an output stream. -/
inductive Payload
  | reply (m : Outbound)
  | heartbeat (seq : UInt64)
  | marketData (top : Venue.Top)
  deriving DecidableEq, Repr

/-- A connection. The bytes received, by the pass that received them, and the payloads handed to
the venue are history: no step reads them. -/
structure Conn where
  decoder : FrameDecoder
  out : List Payload
  received : List Bytes
  handled : List Bytes
  deriving DecidableEq, Repr

/-- A connection just accepted. -/
def Conn.fresh : Conn := ⟨FrameDecoder.empty, [], [], []⟩

/-- Why a connection was closed. -/
inductive Closing
  | eof
  | recvFailed
  | framingError
  | hangUp
  | sendFailed
  deriving DecidableEq, Repr

/-- `closed` is history too. -/
structure Server (cap : Nat) where
  nextConnId : ConnId
  heartbeatSeq : UInt64
  lastTop : Venue.Top
  conns : Fd → Option Conn
  connFd : ConnId → Option Fd
  fdConn : Fd → Option ConnId
  session : Session cap
  closed : List (Closing × Conn)

/-- A result of `recv`. -/
inductive Recv
  | data (bytes : Bytes)
  | eof
  | again
  | intr
  | failed
  deriving DecidableEq, Repr

/-- A descriptor that is ready: the results of `recv` if it is readable, whether `send` fails if it
is writable. -/
structure Ready where
  fd : Fd
  hangUp : Bool
  readable : Option (List Recv)
  sendFails : Option Bool
  deriving DecidableEq, Repr

/-- What one iteration of the loop finds: whether the heartbeat is due, what `accept` returns, which
connections are ready. -/
structure Pass where
  heartbeat : Bool
  accepts : List Fd
  ready : List Ready
  deriving DecidableEq, Repr

namespace Server

variable {cap : Nat}

def venue (s : Server cap) : Venue cap := s.session.venue

def setConn (s : Server cap) (fd : Fd) (c : Conn) : Server cap :=
  { s with conns := Function.update s.conns fd (some c) }

def enqueue (s : Server cap) (id : ConnId) (payload : Payload) : Server cap :=
  match s.connFd id with
  | none => s
  | some fd =>
    match s.conns fd with
    | none => s
    | some c => s.setConn fd { c with out := c.out ++ [payload] }

def broadcastPayload (s : Server cap) (payload : Payload) : Server cap :=
  { s with conns := fun fd => (s.conns fd).map fun c => { c with out := c.out ++ [payload] } }

/-- With the heartbeat, as the loop calls it. -/
def broadcastFeed (s : Server cap) : Server cap :=
  let s := { s with heartbeatSeq := s.heartbeatSeq + 1 }
  let s := s.broadcastPayload (.heartbeat s.heartbeatSeq)
  let s := { s with lastTop := s.venue.currentTop }
  s.broadcastPayload (.marketData s.lastTop)

/-- One round of `acceptNew`. An entry already there is not replaced. -/
def acceptOne (s : Server cap) (cfd : Fd) : Server cap :=
  let cid := s.nextConnId
  let s := { s with nextConnId := s.nextConnId + 1 }
  let s := if (s.conns cfd).isSome then s else s.setConn cfd Conn.fresh
  let s := { s with
    connFd := Function.update s.connFd cid (some cfd)
    fdConn := Function.update s.fdConn cfd (some cid) }
  s.enqueue cid (.marketData s.venue.currentTop)

def acceptNew (s : Server cap) (accepts : List Fd) : Server cap := accepts.foldl acceptOne s

variable (build : Build)

/-- A call on the venue, whose messages are enqueued. -/
def call (s : Server cap) (ev : Event) : Except Fault (Server cap) := do
  let session ← s.session.step build ev
  pure (session.venue.tables.sent.foldl (fun s m => s.enqueue m.1 (.reply m.2))
    { s with session := session })

def closeConn (s : Server cap) (fd : Fd) (how : Closing) : Except Fault (Server cap) := do
  let s ← (match s.fdConn fd with
    | none => .ok s
    | some cid => do
      let s ← s.call build (.drop cid)
      pure { s with
        connFd := Function.update s.connFd cid none
        fdConn := Function.update s.fdConn fd none })
  pure { s with
    conns := Function.update s.conns fd none
    closed := s.closed ++ ((s.conns fd).map fun c => (how, c)).toList }

/-- Receive until there is nothing more, or until the connection is to be closed. -/
def recvLoop : List Recv → FrameDecoder → FrameDecoder × Option Closing
  | [], d => (d, none)
  | .data bytes :: rs, d => recvLoop rs (d.feed bytes)
  | .eof :: _, d => (d, some .eof)
  | .again :: _, d => (d, none)
  | .intr :: rs, d => recvLoop rs d
  | .failed :: _, d => (d, some .recvFailed)

/-- The bytes the loop receives. -/
def received : List Recv → Bytes
  | .data bytes :: rs => bytes ++ received rs
  | .intr :: rs => received rs
  | _ => []

/-- The decoding loop, at most so often. -/
def handleFrames (fd : Fd) (cid : ConnId) : Nat → Server cap → Except Fault (Server cap)
  | 0, s => .ok s
  | fuel + 1, s =>
    match s.conns fd with
    | none => .ok s
    | some c =>
      match c.decoder.next with
      | (none, d) => .ok (s.setConn fd { c with decoder := d })
      | (some payload, d) => do
        let s := s.setConn fd { c with decoder := d, handled := c.handled ++ [payload] }
        let s ← s.call build (.line cid payload)
        handleFrames fd cid fuel s

/-- For a descriptor in `conns_`; one missing in `fdConn_` would be entered there with id 0. -/
def handleReadable (s : Server cap) (fd : Fd) (rs : List Recv) : Except Fault (Server cap) :=
  match s.conns fd with
  | none => .ok s
  | some c => do
    let (d, stop) := recvLoop rs c.decoder
    let s := s.setConn fd { c with decoder := d, received := c.received ++ [received rs] }
    match stop with
    | some how => s.closeConn build fd how
    | none => do
      let cid := (s.fdConn fd).getD 0
      let s := { s with fdConn := Function.update s.fdConn fd (some cid) }
      -- each payload shortens the buffer, so this is enough fuel
      let s ← handleFrames build fd cid (d.buf.length + 1) s
      if (s.conns fd).any fun c => c.decoder.error then s.closeConn build fd .framingError
      else pure s

/-- One descriptor that is ready, unless it was closed earlier in the pass. -/
def serve (s : Server cap) (r : Ready) : Except Fault (Server cap) :=
  if (s.conns r.fd).isNone then .ok s
  else if r.hangUp then s.closeConn build r.fd .hangUp
  else do
    let s ← (match r.readable with
      | none => .ok s
      | some rs => s.handleReadable build r.fd rs)
    if (s.conns r.fd).isSome ∧ r.sendFails = some true then s.closeConn build r.fd .sendFailed
    else pure s

/-- One iteration of the loop. -/
def pass (s : Server cap) (p : Pass) : Except Fault (Server cap) := do
  let s := if p.heartbeat then s.broadcastFeed else s
  let s := s.acceptNew p.accepts
  let s ← Fallible.run (serve build) s p.ready
  let top := s.venue.currentTop
  if top ≠ s.lastTop then
    let s := { s with lastTop := top }
    pure (s.broadcastPayload (.marketData top))
  else pure s

/-- The server before its first iteration. -/
def start (v : Venue cap) : Server cap :=
  ⟨1, 0, ⟨false, 0, false, 0, false, 0⟩, fun _ => none, fun _ => none, fun _ => none,
    Session.start v, []⟩

/-- The state after some iterations. -/
def run (build : Build) (cap softCap : Nat) (passes : List Pass) : Except Fault (Server cap) := do
  let v ← Venue.new cap softCap
  Fallible.run (pass build) (start v) passes

end Server

/-! ## What the steps leave alone -/

/-- The same connection, after some replies. -/
structure Conn.Replied (c c' : Conn) : Prop where
  decoder : c'.decoder = c.decoder
  received : c'.received = c.received
  handled : c'.handled = c.handled
  out : ∃ ms : List Outbound, c'.out = c.out ++ ms.map .reply

theorem Conn.Replied.refl (c : Conn) : c.Replied c := ⟨rfl, rfl, rfl, [], by simp⟩

theorem Conn.Replied.trans {c c' c'' : Conn} (h : c.Replied c') (h' : c'.Replied c'') :
    c.Replied c'' := by
  obtain ⟨ms, hms⟩ := h.out
  obtain ⟨ms', hms'⟩ := h'.out
  exact ⟨h'.decoder.trans h.decoder, h'.received.trans h.received, h'.handled.trans h.handled,
    ms ++ ms', by rw [hms', hms, List.map_append, List.append_assoc]⟩

/-- The connection after a decoding loop. -/
structure Conn.Drained (c : Conn) (fuel : Nat) (c' : Conn) : Prop where
  decoder : c'.decoder = (c.decoder.drainLoop fuel).2
  handled : c'.handled = c.handled ++ (c.decoder.drainLoop fuel).1
  received : c'.received = c.received
  out : ∃ ms : List Outbound, c'.out = c.out ++ ms.map .reply

namespace Server

variable {cap : Nat} {build : Build} {s s' : Server cap}

/-- The same connections, after some replies. -/
structure Replies (s s' : Server cap) : Prop where
  kept : ∀ fd c, s.conns fd = some c → ∃ c', s'.conns fd = some c' ∧ c.Replied c'
  gone : ∀ fd, s.conns fd = none → s'.conns fd = none

theorem Replies.refl (s : Server cap) : s.Replies s := ⟨fun _ c h => ⟨c, h, .refl c⟩, fun _ => id⟩

theorem Replies.trans {s'' : Server cap} (h : s.Replies s') (h' : s'.Replies s'') :
    s.Replies s'' := by
  refine ⟨fun fd c hc => ?_, fun fd hc => h'.gone fd (h.gone fd hc)⟩
  obtain ⟨c', hc', hr⟩ := h.kept fd c hc
  obtain ⟨c'', hc'', hr'⟩ := h'.kept fd c' hc'
  exact ⟨c'', hc'', hr.trans hr'⟩

theorem Replies.before {fd : Fd} {c' : Conn} (h : s.Replies s') (hc : s'.conns fd = some c') :
    ∃ c, s.conns fd = some c ∧ c.Replied c' := by
  cases hs : s.conns fd with
  | none =>
    rw [h.gone fd hs] at hc
    cases hc
  | some c =>
    obtain ⟨c₁, hc₁, hr⟩ := h.kept fd c hs
    rw [hc, Option.some_inj] at hc₁
    exact ⟨c, rfl, hc₁ ▸ hr⟩

theorem enqueue_replies (s : Server cap) (id : ConnId) (m : Outbound) :
    s.Replies (s.enqueue id (.reply m)) := by
  unfold enqueue
  split
  · exact .refl s
  · next fd _ =>
    split
    · exact .refl s
    · next c hc =>
      constructor
      · intro fd' c' hc'
        by_cases hfd : fd' = fd
        · subst hfd
          rw [hc, Option.some_inj] at hc'
          subst hc'
          exact ⟨_, Function.update_self _ _ _, rfl, rfl, rfl, [m], rfl⟩
        · exact ⟨c', (Function.update_of_ne hfd _ _).trans hc', .refl c'⟩
      · intro fd' hc'
        have hfd : fd' ≠ fd := by
          rintro rfl
          rw [hc] at hc'
          cases hc'
        exact (Function.update_of_ne hfd _ _).trans hc'

/-- Everything but the connections is left alone. -/
structure SameRest (s s' : Server cap) : Prop where
  lastTop : s'.lastTop = s.lastTop
  fdConn : s'.fdConn = s.fdConn
  connFd : s'.connFd = s.connFd
  closed : s'.closed = s.closed

theorem enqueue_rest (s : Server cap) (id : ConnId) (payload : Payload) :
    s.SameRest (s.enqueue id payload) ∧ (s.enqueue id payload).session = s.session := by
  unfold enqueue
  split
  · exact ⟨⟨rfl, rfl, rfl, rfl⟩, rfl⟩
  · split
    · exact ⟨⟨rfl, rfl, rfl, rfl⟩, rfl⟩
    · exact ⟨⟨rfl, rfl, rfl, rfl⟩, rfl⟩

/-- A call on the venue sends replies, and changes the venue. -/
theorem call_spec {ev : Event} (h : s.call build ev = .ok s') :
    s.Replies s' ∧ s.SameRest s' ∧ s.session.step build ev = .ok s'.session := by
  obtain ⟨session, hsession, hs'⟩ := bind_eq_ok.mp h
  cases hs'
  have hfold : ∀ (msgs : List Sent) (s₁ : Server cap),
      s₁.Replies (msgs.foldl (fun s m => s.enqueue m.1 (.reply m.2)) s₁) ∧
      s₁.SameRest (msgs.foldl (fun s m => s.enqueue m.1 (.reply m.2)) s₁) ∧
      (msgs.foldl (fun s m => s.enqueue m.1 (.reply m.2)) s₁).session = s₁.session := by
    intro msgs
    induction msgs with
    | nil => exact fun s₁ => ⟨.refl s₁, ⟨rfl, rfl, rfl, rfl⟩, rfl⟩
    | cons m msgs ih =>
      intro s₁
      obtain ⟨hrest, hsame⟩ := enqueue_rest s₁ m.1 (.reply m.2)
      obtain ⟨hr, hrest', hsame'⟩ := ih (s₁.enqueue m.1 (.reply m.2))
      exact ⟨(enqueue_replies s₁ m.1 m.2).trans hr,
        ⟨hrest'.lastTop.trans hrest.lastTop, hrest'.fdConn.trans hrest.fdConn,
          hrest'.connFd.trans hrest.connFd, hrest'.closed.trans hrest.closed⟩, hsame'.trans hsame⟩
  obtain ⟨hr, hrest, hsame⟩ := hfold session.venue.tables.sent { s with session := session }
  exact ⟨⟨hr.kept, hr.gone⟩, ⟨hrest.lastTop, hrest.fdConn, hrest.connFd, hrest.closed⟩,
    hsame.symm ▸ hsession⟩

/-- The other connections may get replies. -/
structure Elsewhere (fd : Fd) (s s' : Server cap) : Prop where
  lastTop : s'.lastTop = s.lastTop
  others : ∀ fd' c', fd' ≠ fd → s'.conns fd' = some c' → ∃ c, s.conns fd' = some c ∧ c.Replied c'

theorem Elsewhere.trans {fd : Fd} {s'' : Server cap} (h : Elsewhere fd s s')
    (h' : Elsewhere fd s' s'') : Elsewhere fd s s'' := by
  refine ⟨h'.lastTop.trans h.lastTop, fun fd' c'' hfd hc'' => ?_⟩
  obtain ⟨c', hc', hr'⟩ := h'.others fd' c'' hfd hc''
  obtain ⟨c, hc, hr⟩ := h.others fd' c' hfd hc'
  exact ⟨c, hc, hr.trans hr'⟩

theorem elsewhere_setConn (s : Server cap) (fd : Fd) (c : Conn) : Elsewhere fd s (s.setConn fd c) :=
  ⟨rfl, fun _ c' hfd hc' => ⟨c', (Function.update_of_ne hfd _ _).symm.trans hc', .refl c'⟩⟩

/-- Closing a descriptor: its connection goes to the closed ones. -/
theorem closeConn_spec {fd : Fd} {how : Closing} {c : Conn} (hc : s.conns fd = some c)
    (h : s.closeConn build fd how = .ok s') : Elsewhere fd s s' ∧ s'.conns fd = none ∧
      ∃ c', c.Replied c' ∧ s'.closed = s.closed ++ [(how, c')] := by
  obtain ⟨s₁, hs₁, hs'⟩ := bind_eq_ok.mp h
  cases hs'
  have hreplies : s.Replies s₁ ∧ s₁.lastTop = s.lastTop ∧ s₁.closed = s.closed := by
    cases hfd : s.fdConn fd with
    | none =>
      rw [hfd] at hs₁
      cases hs₁
      exact ⟨.refl s, rfl, rfl⟩
    | some cid =>
      rw [hfd] at hs₁
      obtain ⟨s₂, hs₂, hs₁⟩ := bind_eq_ok.mp hs₁
      cases hs₁
      obtain ⟨hr, hrest, -⟩ := call_spec hs₂
      exact ⟨⟨hr.kept, hr.gone⟩, hrest.lastTop, hrest.closed⟩
  obtain ⟨hr, htop, hclosed⟩ := hreplies
  obtain ⟨c', hc', hcr⟩ := hr.kept fd c hc
  refine ⟨⟨htop, fun fd' c₂ hfd hc₂ => ?_⟩, Function.update_self _ _ _, c', hcr, ?_⟩
  · exact hr.before ((Function.update_of_ne hfd none s₁.conns).symm.trans hc₂)
  · simp only [hc', hclosed, Option.map_some, Option.toList_some]

theorem recvLoop_eq (rs : List Recv) (d : FrameDecoder) :
    (recvLoop rs d).1 = d.feed (received rs) := by
  have hnil : ∀ d : FrameDecoder, d = d.feed [] := fun d => by
    rw [FrameDecoder.feed, List.append_nil]
  induction rs generalizing d with
  | nil => exact hnil d
  | cons r rs ih =>
    cases r with
    | data bytes =>
      rw [recvLoop, ih, received, FrameDecoder.feed, FrameDecoder.feed, List.append_assoc]
      rfl
    | intr => exact ih d
    | eof => exact hnil d
    | again => exact hnil d
    | failed => exact hnil d

/-- The decoding loop hands over what the decoder yields. -/
theorem handleFrames_spec {fd : Fd} {cid : ConnId} {fuel : Nat} {c : Conn}
    (hc : s.conns fd = some c) (h : handleFrames build fd cid fuel s = .ok s') :
    Elsewhere fd s s' ∧ s'.closed = s.closed ∧
      ∃ c', s'.conns fd = some c' ∧ c.Drained fuel c' := by
  induction fuel generalizing s c with
  | zero =>
    cases h
    refine ⟨⟨rfl, fun fd' c' _ hc' => ⟨c', hc', .refl c'⟩⟩, rfl, c, hc, rfl, ?_, rfl, [], ?_⟩
    · exact (List.append_nil _).symm
    · exact (List.append_nil _).symm
  | succ fuel ih =>
    simp only [handleFrames, hc] at h
    cases hnext : c.decoder.next with
    | mk payload? d =>
      rw [hnext] at h
      cases payload? with
      | none =>
        cases h
        have hdrain : c.decoder.drainLoop (fuel + 1) = ([], d) := by
          rw [FrameDecoder.drainLoop, hnext]
        refine ⟨elsewhere_setConn s fd _, rfl, _, Function.update_self _ _ _, ?_, ?_, rfl, [], ?_⟩
        · rw [hdrain]
        · rw [hdrain]
          exact (List.append_nil _).symm
        · exact (List.append_nil _).symm
      | some payload =>
        obtain ⟨s₁, hs₁, h⟩ := bind_eq_ok.mp h
        obtain ⟨hr, hrest, -⟩ := call_spec hs₁
        obtain ⟨c₁, hc₁, hcr⟩ := hr.kept fd _ (Function.update_self _ _ _)
        obtain ⟨helse, hclosed, c', hc', hdrained⟩ := ih hc₁ h
        have hdrain : c.decoder.drainLoop (fuel + 1) =
            (payload :: (d.drainLoop fuel).1, (d.drainLoop fuel).2) := by
          rw [FrameDecoder.drainLoop, hnext]
        have hcall : Elsewhere fd (s.setConn fd { c with
            decoder := d, handled := c.handled ++ [payload] }) s₁ :=
          ⟨hrest.lastTop, fun _ _ _ hc' => hr.before hc'⟩
        obtain ⟨ms, hms⟩ := hcr.out
        obtain ⟨ms', hms'⟩ := hdrained.out
        refine ⟨((elsewhere_setConn s fd _).trans hcall).trans helse, hclosed.trans hrest.closed,
          c', hc', ?_, ?_, hdrained.received.trans hcr.received, ms ++ ms', ?_⟩
        · rw [hdrained.decoder, hcr.decoder, hdrain]
        · rw [hdrained.handled, hcr.handled, hcr.decoder, hdrain, List.append_assoc]
          rfl
        · rw [hms', hms, List.map_append, List.append_assoc]

theorem recvLoop_stop {rs : List Recv} {d : FrameDecoder} {how : Closing}
    (h : (recvLoop rs d).2 = some how) : how = .eof ∨ how = .recvFailed := by
  induction rs generalizing d with
  | nil => cases h
  | cons r rs ih =>
    cases r with
    | data bytes => exact ih h
    | intr => exact ih h
    | again => cases h
    | eof =>
      cases h
      exact Or.inl rfl
    | failed =>
      cases h
      exact Or.inr rfl

end Server

/-- The connection after the receive loop. -/
def Conn.reading (c : Conn) (rs : List Recv) : Conn :=
  { c with
    decoder := c.decoder.feed (Server.received rs)
    received := c.received ++ [Server.received rs] }

/-- Enough fuel to decode all that has arrived. -/
def Conn.fuel (c : Conn) : Nat := c.decoder.buf.length + 1

theorem Conn.Drained.replied {c c' c'' : Conn} {fuel : Nat} (h : c.Drained fuel c')
    (h' : c'.Replied c'') : c.Drained fuel c'' := by
  obtain ⟨ms, hms⟩ := h.out
  obtain ⟨ms', hms'⟩ := h'.out
  exact ⟨h'.decoder.trans h.decoder, h'.handled.trans h.handled, h'.received.trans h.received,
    ms ++ ms', by rw [hms', hms, List.map_append, List.append_assoc]⟩

namespace Server

variable {cap : Nat} {build : Build} {s s' : Server cap}

/-- A readable descriptor: its connection has received and decoded, or it was closed, on the way or
for a bad header. -/
theorem handleReadable_cases {fd : Fd} {rs : List Recv} {c : Conn} (hc : s.conns fd = some c)
    (h : s.handleReadable build fd rs = .ok s') : Elsewhere fd s s' ∧
      ((∃ c', s'.conns fd = some c' ∧ s'.closed = s.closed ∧
          (c.reading rs).Drained (c.reading rs).fuel c') ∨
        s'.conns fd = none ∧ ∃ how c', s'.closed = s.closed ++ [(how, c')] ∧
          ((how = .eof ∨ how = .recvFailed) ∧ (c.reading rs).Replied c' ∨
            how = .framingError ∧ c'.decoder.error = true ∧
              (c.reading rs).Drained (c.reading rs).fuel c')) := by
  have hloop := recvLoop_eq rs c.decoder
  have hstop : ∀ how, (recvLoop rs c.decoder).2 = some how → how = .eof ∨ how = .recvFailed :=
    fun how => recvLoop_stop
  simp only [handleReadable, hc] at h
  cases hr : recvLoop rs c.decoder with
  | mk d stop =>
    rw [hr] at h hloop hstop
    dsimp only at h hloop hstop
    subst hloop
    have hset := elsewhere_setConn s fd (c.reading rs)
    cases stop with
    | some how =>
      obtain ⟨helse, hnone, c', hcr, hclosed⟩ := closeConn_spec (Function.update_self _ _ _) h
      exact ⟨hset.trans helse, Or.inr ⟨hnone, how, c', hclosed, Or.inl ⟨hstop how rfl, hcr⟩⟩⟩
    | none =>
      obtain ⟨s₁, hs₁, h⟩ := bind_eq_ok.mp h
      obtain ⟨helse, hclosed, c₁, hc₁, hdrained⟩ :=
        handleFrames_spec (c := c.reading rs) (Function.update_self _ _ _) hs₁
      have helse₁ : Elsewhere fd s s₁ := ⟨helse.lastTop, fun fd' c' hfd hc' => by
        obtain ⟨c₂, hc₂, hr₂⟩ := helse.others fd' c' hfd hc'
        obtain ⟨c₃, hc₃, hr₃⟩ := hset.others fd' c₂ hfd hc₂
        exact ⟨c₃, hc₃, hr₃.trans hr₂⟩⟩
      rw [hc₁] at h
      dsimp only [Option.any_some] at h
      split at h
      · next herror =>
        obtain ⟨helse', hnone, c', hcr, hclosed'⟩ := closeConn_spec hc₁ h
        refine ⟨helse₁.trans helse', Or.inr ⟨hnone, _, c', hclosed ▸ hclosed', Or.inr ⟨rfl, ?_,
          hdrained.replied hcr⟩⟩⟩
        rw [hcr.decoder]
        exact herror
      · cases h
        exact ⟨helse₁, Or.inl ⟨c₁, hc₁, hclosed, hdrained⟩⟩

/-- A ready descriptor is read or closed, or both. -/
theorem serve_inv {Inv : Server cap → Prop} {r : Ready}
    (hclose : ∀ s s' fd how c, Inv s → s.conns fd = some c → how = .hangUp ∨ how = .sendFailed →
      s.closeConn build fd how = .ok s' → Inv s')
    (hread : ∀ s s' fd rs c, Inv s → s.conns fd = some c →
      s.handleReadable build fd rs = .ok s' → Inv s')
    (h : Inv s) (hs' : s.serve build r = .ok s') : Inv s' := by
  unfold serve at hs'
  cases hc : s.conns r.fd with
  | none =>
    rw [hc] at hs'
    cases hs'
    exact h
  | some c =>
    rw [hc, if_neg (by simp)] at hs'
    split at hs'
    · exact hclose _ _ _ _ _ h hc (Or.inl rfl) hs'
    · obtain ⟨s₁, hs₁, hs'⟩ := bind_eq_ok.mp hs'
      have h₁ : Inv s₁ := by
        cases hr : r.readable with
        | none =>
          rw [hr] at hs₁
          cases hs₁
          exact h
        | some rs =>
          rw [hr] at hs₁
          exact hread _ _ _ _ _ h hc hs₁
      split at hs'
      · next hopen =>
        obtain ⟨c₁, hc₁⟩ := Option.isSome_iff_exists.mp hopen.1
        exact hclose _ _ _ _ _ h₁ hc₁ (Or.inr rfl) hs'
      · cases hs'
        exact h₁

/-- A descriptor accepted: a snapshot goes to its connection. -/
theorem acceptOne_spec (s : Server cap) (cfd : Fd) : (s.acceptOne cfd).lastTop = s.lastTop ∧
    (s.acceptOne cfd).session = s.session ∧ (s.acceptOne cfd).closed = s.closed ∧
    ∃ c, (s.conns cfd = some c ∨ c = Conn.fresh) ∧
      (s.acceptOne cfd).conns = Function.update s.conns cfd
        (some { c with out := c.out ++ [.marketData s.venue.currentTop] }) := by
  cases hc : s.conns cfd with
  | none =>
    refine ⟨?_, ?_, ?_, Conn.fresh, Or.inr rfl, ?_⟩ <;>
      simp [acceptOne, enqueue, setConn, venue, hc]
  | some c =>
    refine ⟨?_, ?_, ?_, c, Or.inl rfl, ?_⟩ <;>
      simp [acceptOne, enqueue, setConn, venue, hc]

/-- A reached server meets what new servers meet and iterations keep. -/
theorem inv_of_run {softCap : Nat} {passes : List Pass} (Inv : Server cap → Prop)
    (hstart : ∀ v, Venue.new cap softCap = .ok v → Inv (start v))
    (hpass : ∀ s p s', Inv s → pass build s p = .ok s' → Inv s')
    (h : run build cap softCap passes = .ok s) : Inv s := by
  obtain ⟨v, hv, hrun⟩ := bind_eq_ok.mp h
  exact run_inv hpass (hstart v hv) hrun

end Server

end MarketMakerOps.Exchange
