import MarketMakerOps.Exchange.ByteServer
import MarketMakerOps.Exchange.MarketRefinement
import Mathlib.Algebra.Order.BigOperators.Group.Finset

/-!
Nothing the clients send stops the server.

* `Event.requests`: a call accepts one order at most, and a disconnect none;
* `Server.Live k`: a session that can go on, its accepted orders and the bytes not yet decoded paid
  for by `k` received bytes;
* `server_stays_up`: with assertions compiled out, every run succeeds until `2 ^ 64` bytes have been
  received.
-/

namespace MarketMakerOps.Exchange

open Decimal Engine Fallible

variable {cap softCap : Nat} {build : Build}

/-! ## Calls -/

/-- The requests a call is about. -/
def Event.requests : Event → Nat
  | .line _ _ => 1
  | .drop _ => 0

theorem Session.accepted_step_le {s s' : Session cap} {ev : Event} (h : s.Synced)
    (hs : s.step build ev = .ok s') : s'.accepted ≤ s.accepted + ev.requests := by
  obtain ⟨a, ha⟩ := h
  obtain ⟨v', hv', rfl⟩ := Session.step_eq_ok.mp hs
  rw [Session.accepted_concat]
  refine Nat.add_le_add_left ?_ _
  cases handled_ok hv' with
  | quiet result msgs book clock _ live record sent about =>
    cases result
    rw [sent, show s.venue.cleared.tables.sent = [] from rfl, List.nil_append, acks_eq_zero about]
    exact Nat.zero_le _
  | accept accepts result => exact (ha.cleared.acks_accept rfl result.symm).le
  | cancel _ record _ result =>
    obtain ⟨book, -, hv'⟩ := bind_eq_ok.mp result.symm
    cases hv'
    rw [cancelled_sent]
    exact Nat.zero_le _
  | drop result =>
    obtain ⟨a', -, -, -, -, hsent, -⟩ := post_of_ok (ha.cleared.drop build _) result.symm
    rw [hsent]
    exact Nat.zero_le _

/-- A call on a session that has accepted few enough orders succeeds. -/
theorem session_step_total (hcap : softCap < cap) {s : Session cap} {events : List Event}
    (h : session .ndebug cap softCap events = .ok s) (hlt : s.accepted < 2 ^ 64) (ev : Event) :
    ∃ s', s.step .ndebug ev = .ok s' ∧ s'.accepted ≤ s.accepted + ev.requests := by
  obtain ⟨a, ha⟩ := session_synced h hlt
  have hsoft : s.venue.softCap < cap := (session_softCap h).symm ▸ hcap
  obtain ⟨v', hv'⟩ := ha.cleared.handle_total hsoft ev
  have hs := Session.step_eq_ok.mpr ⟨v', hv', rfl⟩
  exact ⟨_, hs, Session.accepted_step_le ⟨a, ha⟩ hs⟩

/-! ## The server -/

namespace Server

/-- The bytes of a connection not yet decoded. -/
def pending (s : Server cap) (fd : Fd) : Nat :=
  (s.conns fd).elim 0 fun c => c.decoder.buf.length

/-- The session was reached; each order accepted and each byte not yet decoded is one of `k` bytes,
whichever descriptors are looked at. -/
structure Live (softCap k : Nat) (s : Server cap) : Prop where
  reached : ∃ events, Exchange.session .ndebug cap softCap events = .ok s.session
  paid : ∀ L : Finset Fd, s.session.accepted + ∑ fd ∈ L, s.pending fd ≤ k

section Steps

variable {s s' : Server cap} {k k' : Nat} {fd : Fd} {c : Conn}

theorem Live.accepted_le (h : Live softCap k s) : s.session.accepted ≤ k := h.paid ∅

/-- The calls and what is not decoded may only become less. -/
theorem Live.quiet (h : Live softCap k s) (hsession : s'.session = s.session)
    (hpending : ∀ fd, s'.pending fd ≤ s.pending fd) : Live softCap k s' := by
  refine ⟨hsession ▸ h.reached, fun L => ?_⟩
  rw [hsession]
  exact le_trans (Nat.add_le_add_left (Finset.sum_le_sum fun fd _ => hpending fd) _) (h.paid L)

theorem pending_of_conn (hc : s.conns fd = some c) : s.pending fd = c.decoder.buf.length := by
  rw [pending, hc]
  rfl

/-- A connection whose buffer has changed. -/
theorem Live.setConn (h : Live softCap k s) (hc : s.conns fd = some c) {c' : Conn}
    (hk : k + c'.decoder.buf.length ≤ k' + c.decoder.buf.length) :
    Live softCap k' (s.setConn fd c') := by
  refine ⟨h.reached, fun L => ?_⟩
  have hself : (s.setConn fd c').pending fd = c'.decoder.buf.length :=
    pending_of_conn (Function.update_self _ _ _)
  have hothers : ∀ fd' ∈ (insert fd L).erase fd, (s.setConn fd c').pending fd' = s.pending fd' := by
    intro fd' hfd'
    rw [pending, setConn_conns, if_neg (Finset.ne_of_mem_erase hfd'), pending]
  have hmem : fd ∈ insert fd L := Finset.mem_insert_self fd L
  have hold := h.paid (insert fd L)
  rw [← Finset.add_sum_erase _ _ hmem, pending_of_conn hc] at hold
  have hnew : ∑ fd' ∈ L, (s.setConn fd c').pending fd' ≤
      c'.decoder.buf.length + ∑ fd' ∈ (insert fd L).erase fd, s.pending fd' := by
    calc ∑ fd' ∈ L, (s.setConn fd c').pending fd'
        ≤ ∑ fd' ∈ insert fd L, (s.setConn fd c').pending fd' :=
          Finset.sum_le_sum_of_subset (Finset.subset_insert fd L)
      _ = c'.decoder.buf.length + ∑ fd' ∈ (insert fd L).erase fd, s.pending fd' := by
          rw [← Finset.add_sum_erase _ _ hmem, hself, Finset.sum_congr rfl hothers]
  have hsession : (s.setConn fd c').session = s.session := rfl
  rw [hsession]
  omega

theorem Replies.pending_eq (h : s.Replies s') (fd : Fd) : s'.pending fd = s.pending fd := by
  cases hc : s.conns fd with
  | none => rw [pending, h.gone fd hc, pending, hc]
  | some c =>
    obtain ⟨c', hc', hr⟩ := h.kept fd c hc
    rw [pending_of_conn hc', pending_of_conn hc, hr.decoder]

/-- A call is paid for by its request. -/
theorem Live.call (h : Live softCap k s) (hcap : softCap < cap) (hk : k < 2 ^ 64) (ev : Event) :
    ∃ s', s.call .ndebug ev = .ok s' ∧ Live softCap (k + ev.requests) s' := by
  obtain ⟨events, hevents⟩ := h.reached
  obtain ⟨session, hsession, hle⟩ :=
    session_step_total hcap hevents (lt_of_le_of_lt h.accepted_le hk) ev
  have hcall : s.call .ndebug ev = .ok (session.venue.tables.sent.foldl
      (fun s m => s.enqueue m.1 (.reply m.2)) { s with session := session }) := by
    rw [Server.call, hsession]
    rfl
  obtain ⟨hr, -, hstep⟩ := call_spec hcall
  rw [hsession, Except.ok.injEq] at hstep
  refine ⟨_, hcall, ⟨_, hstep ▸ session_snoc hevents hsession⟩, fun L => ?_⟩
  have hsum := Finset.sum_congr (Eq.refl L) fun fd _ => hr.pending_eq fd
  have hpaid := h.paid L
  rw [hsum, ← hstep]
  show session.accepted + ∑ fd ∈ L, s.pending fd ≤ k + ev.requests
  omega

theorem Live.closeConn (h : Live softCap k s) (hcap : softCap < cap) (hk : k < 2 ^ 64) (fd : Fd)
    (how : Closing) : ∃ s', s.closeConn .ndebug fd how = .ok s' ∧ Live softCap k s' := by
  have hremove : ∀ {s₁ s₂ : Server cap}, Live softCap k s₁ → s₂.session = s₁.session →
      s₂.conns = Function.update s₁.conns fd none → Live softCap k s₂ := by
    intro s₁ s₂ h₁ hsession hconns
    refine h₁.quiet hsession fun fd' => ?_
    rw [pending, hconns]
    by_cases hfd : fd' = fd
    · subst hfd
      rw [Function.update_self]
      exact Nat.zero_le _
    · rw [Function.update_of_ne hfd]
      exact le_rfl
  unfold Server.closeConn
  cases s.fdConn fd with
  | none => exact ⟨_, rfl, hremove h rfl rfl⟩
  | some cid =>
    obtain ⟨s₁, hs₁, h₁⟩ := h.call hcap hk (.drop cid)
    dsimp only
    rw [hs₁]
    have hmaps : Live softCap k { s₁ with
        connFd := Function.update s₁.connFd cid none
        fdConn := Function.update s₁.fdConn fd none } := h₁.quiet rfl fun _ => le_rfl
    exact ⟨_, rfl, hremove hmaps rfl rfl⟩

/-- A frame takes its header at least. -/
theorem length_next {d d' : FrameDecoder} {payload? : Option Bytes} (h : d.next = (payload?, d')) :
    d'.buf.length + 8 * payload?.toList.length ≤ d.buf.length := by
  rw [next_eq] at h
  split at h
  · cases h
    exact le_rfl
  · split at h
    · cases h
      exact le_rfl
    · cases h
      exact le_rfl
    · next hfront =>
      cases h
      obtain ⟨frame, hframe, hbuf⟩ := front_eq_item.mp hfront
      rw [hbuf, List.length_append, hframe.length, Option.toList_some, List.length_singleton]
      dsimp only
      omega

/-- Each request is paid for by its own frame. -/
theorem Live.handleFrames (h : Live softCap k s) (hcap : softCap < cap) (hk : k < 2 ^ 64) (fd : Fd)
    (cid : ConnId) (fuel : Nat) :
    ∃ s', handleFrames .ndebug fd cid fuel s = .ok s' ∧ Live softCap k s' := by
  induction fuel generalizing s with
  | zero => exact ⟨s, rfl, h⟩
  | succ fuel ih =>
    unfold Server.handleFrames
    cases hc : s.conns fd with
    | none => exact ⟨s, rfl, h⟩
    | some c =>
      dsimp only
      cases hnext : c.decoder.next with
      | mk payload? d =>
        have hlen := length_next hnext
        cases payload? with
        | none => exact ⟨_, rfl, h.setConn hc (Nat.add_le_add_left hlen k)⟩
        | some payload =>
          rw [Option.toList_some, List.length_singleton] at hlen
          have hpaid := h.paid {fd}
          rw [Finset.sum_singleton, pending_of_conn hc] at hpaid
          have hset : Live softCap (k - 1) (s.setConn fd { c with
              decoder := d, handled := c.handled ++ [payload] }) :=
            h.setConn hc (by dsimp only; omega)
          obtain ⟨s₁, hs₁, h₁⟩ := hset.call hcap (by omega) (.line cid payload)
          have hk₁ : k - 1 + (Event.line cid payload).requests = k := by
            rw [Event.requests]
            omega
          obtain ⟨s₂, hs₂, h₂⟩ := ih (hk₁ ▸ h₁)
          refine ⟨s₂, ?_, h₂⟩
          dsimp only
          rw [hs₁]
          exact hs₂

theorem Live.handleReadable (h : Live softCap k s) (hcap : softCap < cap) (fd : Fd)
    (rs : List Recv) (hk : k + (received rs).length < 2 ^ 64) :
    ∃ s', s.handleReadable .ndebug fd rs = .ok s' ∧
      Live softCap (k + (received rs).length) s' := by
  have hmore : Live softCap (k + (received rs).length) s :=
    ⟨h.reached, fun L => Nat.le_add_right_of_le (h.paid L)⟩
  unfold Server.handleReadable
  cases hc : s.conns fd with
  | none => exact ⟨s, rfl, hmore⟩
  | some c =>
    have hloop := recvLoop_eq rs c.decoder
    dsimp only
    cases hr : recvLoop rs c.decoder with
    | mk d stop =>
      rw [hr] at hloop
      subst hloop
      have hset : Live softCap (k + (received rs).length) (s.setConn fd (c.reading rs)) := by
        refine h.setConn hc ?_
        rw [Conn.reading, FrameDecoder.feed, List.length_append]
        omega
      cases stop with
      | some how => exact hset.closeConn hcap hk fd how
      | none =>
        have hentered : Live softCap (k + (received rs).length) { s.setConn fd (c.reading rs) with
            fdConn := Function.update s.fdConn fd (some ((s.fdConn fd).getD 0)) } :=
          hset.quiet rfl fun _ => le_rfl
        refine bind_total (hentered.handleFrames hcap hk fd ((s.fdConn fd).getD 0)
          ((c.decoder.feed (received rs)).buf.length + 1)) fun s₁ h₁ => ?_
        split
        · exact h₁.closeConn hcap hk fd .framingError
        · exact ⟨s₁, rfl, h₁⟩

end Steps

end Server

/-- The bytes received on a descriptor. -/
def Ready.bytes (r : Ready) : Nat := r.readable.elim 0 fun rs => (Server.received rs).length

/-- The bytes received in an iteration. -/
def Pass.bytes (p : Pass) : Nat := (p.ready.map Ready.bytes).sum

namespace Server

variable {s : Server cap} {k : Nat}

theorem Live.mono (h : Live softCap k s) {k' : Nat} (hk : k ≤ k') : Live softCap k' s :=
  ⟨h.reached, fun L => le_trans (h.paid L) hk⟩

theorem Live.serve (h : Live softCap k s) (hcap : softCap < cap) (r : Ready)
    (hk : k + r.bytes < 2 ^ 64) :
    ∃ s', s.serve .ndebug r = .ok s' ∧ Live softCap (k + r.bytes) s' := by
  have hmore := h.mono (Nat.le_add_right k r.bytes)
  unfold Server.serve
  split
  · exact ⟨s, rfl, hmore⟩
  · split
    · exact hmore.closeConn hcap hk r.fd .hangUp
    · have hflush : ∀ s₁ : Server cap, Live softCap (k + r.bytes) s₁ → ∃ s',
          (if (s₁.conns r.fd).isSome ∧ r.sendFails = some true then
            s₁.closeConn .ndebug r.fd .sendFailed else pure s₁) = .ok s' ∧
            Live softCap (k + r.bytes) s' := by
        intro s₁ h₁
        split
        · exact h₁.closeConn hcap hk r.fd .sendFailed
        · exact ⟨s₁, rfl, h₁⟩
      cases hr : r.readable with
      | none => exact bind_total ⟨s, rfl, hmore⟩ hflush
      | some rs =>
        have hbytes : r.bytes = (received rs).length := by rw [Ready.bytes, hr]; rfl
        refine bind_total ?_ hflush
        rw [hbytes] at hk ⊢
        exact h.handleReadable hcap r.fd rs hk

theorem Live.broadcast (h : Live softCap k s) (payload : Payload) :
    Live softCap k (s.broadcastPayload payload) := by
  refine h.quiet rfl fun fd => ?_
  simp only [pending, broadcastPayload]
  cases s.conns fd <;> exact le_rfl

theorem Live.acceptNew (h : Live softCap k s) (accepts : List Fd) :
    Live softCap k (s.acceptNew accepts) := by
  induction accepts generalizing s with
  | nil => exact h
  | cons cfd accepts ih =>
    obtain ⟨-, hsession, -, c, hc, hconns⟩ := acceptOne_spec s cfd
    refine ih (h.quiet hsession fun fd => ?_)
    rw [pending, hconns]
    by_cases hfd : fd = cfd
    · subst hfd
      rw [Function.update_self]
      rcases hc with hc | rfl
      · rw [pending_of_conn hc]
        exact le_rfl
      · exact Nat.zero_le _
    · rw [Function.update_of_ne hfd]
      exact le_rfl

theorem Live.pass (h : Live softCap k s) (hcap : softCap < cap) (p : Pass)
    (hk : k + p.bytes < 2 ^ 64) :
    ∃ s', s.pass .ndebug p = .ok s' ∧ Live softCap (k + p.bytes) s' := by
  have hbeat : Live softCap k (if p.heartbeat then s.broadcastFeed else s) := by
    split
    · have hheartbeat := Live.broadcast (s := { s with heartbeatSeq := s.heartbeatSeq + 1 })
        (h.quiet rfl fun _ => le_rfl) (.heartbeat (s.heartbeatSeq + 1))
      exact Live.broadcast (s := { Server.broadcastPayload { s with
          heartbeatSeq := s.heartbeatSeq + 1 } (.heartbeat (s.heartbeatSeq + 1)) with
        lastTop := s.venue.currentTop }) (hheartbeat.quiet rfl fun _ => le_rfl)
        (.marketData s.venue.currentTop)
    · exact h
  have hready : ∀ (ready : List Ready) {k : Nat} {s : Server cap}, Live softCap k s →
      k + (ready.map Ready.bytes).sum < 2 ^ 64 →
      ∃ s', Fallible.run (Server.serve .ndebug) s ready = .ok s' ∧
        Live softCap (k + (ready.map Ready.bytes).sum) s' := by
    intro ready
    induction ready with
    | nil => exact fun h _ => ⟨_, rfl, h⟩
    | cons r ready ih =>
      intro k s h hk
      rw [List.map_cons, List.sum_cons, ← Nat.add_assoc] at hk ⊢
      exact bind_total (h.serve hcap r (by omega)) fun s₁ h₁ => ih h₁ hk
  refine bind_total (hready p.ready (hbeat.acceptNew p.accepts) hk) fun s₁ h₁ => ?_
  dsimp only
  split
  · exact ⟨_, rfl, Live.broadcast (s := { s₁ with lastTop := s₁.venue.currentTop })
      (h₁.quiet rfl fun _ => le_rfl) (.marketData s₁.venue.currentTop)⟩
  · exact ⟨s₁, rfl, h₁⟩

end Server

/-- A new server has received nothing. -/
theorem Server.live_start {v : Venue cap} (hv : Venue.new cap softCap = .ok v) :
    (Server.start v).Live softCap 0 := by
  have hempty : ∀ fd, (Server.start v).pending fd = 0 := fun _ => rfl
  refine ⟨⟨[], by rw [Exchange.session, hv]; rfl⟩, fun L => ?_⟩
  rw [Finset.sum_eq_zero fun fd _ => hempty fd]
  rfl

/-- The bytes received in an iteration. -/
def BytePass.bytes (p : BytePass) : Nat :=
  (p.ready.map fun r => r.readable.elim 0 fun rs => (Server.received rs).length).sum

theorem ByteServer.SamePass.bytes {p : BytePass} {p' : Pass} (h : ByteServer.SamePass p p') :
    p'.bytes = p.bytes := by
  refine congrArg List.sum (ByteServer.map_eq_of_forall₂ h.ready fun r r' hr => ?_).symm
  rw [Ready.bytes, hr.readable]

/-- With assertions compiled out and room beyond the soft cap, nothing the clients send and nothing
the sockets do stops the server, until `2 ^ 64` bytes have been received. -/
theorem server_stays_up (hcap : softCap < cap) (clock : Nat → UtcTime) (passes : List BytePass)
    (hbytes : (passes.map BytePass.bytes).sum < 2 ^ 64) :
    ∃ b : ByteServer cap, ByteServer.run .ndebug cap softCap clock passes = .ok b := by
  obtain ⟨v, hv⟩ := new_succeeds hcap
  obtain ⟨passes', hsame, hsim, -⟩ := ByteServer.run_sim .ndebug clock v passes
  have hsum : (passes'.map Pass.bytes).sum = (passes.map BytePass.bytes).sum :=
    congrArg List.sum (ByteServer.map_eq_of_forall₂ hsame fun p p' hp => hp.bytes.symm).symm
  have hrun : ∀ (passes : List Pass) {k : Nat} {s : Server cap}, s.Live softCap k →
      k + (passes.map Pass.bytes).sum < 2 ^ 64 →
      ∃ s', Fallible.run (Server.pass .ndebug) s passes = .ok s' := by
    intro passes
    induction passes with
    | nil => exact fun {k s} _ _ => ⟨s, rfl⟩
    | cons p passes ih =>
      intro k s h hk
      rw [List.map_cons, List.sum_cons, ← Nat.add_assoc] at hk
      obtain ⟨s₁, hs₁, h₁⟩ := h.pass hcap p (by omega)
      rw [run_cons, hs₁]
      exact ih h₁ hk
  obtain ⟨s, hs⟩ := hrun passes' (Server.live_start hv) (by rw [hsum]; omega)
  obtain ⟨b, hb, -⟩ := hsim.of_ok_right hs
  exact ⟨b, by rw [ByteServer.run, hv]; exact hb⟩

/-- Two connections are accepted; one sends what is no frame, the other half a header, and goes. -/
def badBytes : List BytePass :=
  [⟨true, [5, 6], []⟩,
    ⟨false, [], [⟨5, false, some [.data [1, 2, 3, 4, 5, 6, 7, 8, 9], .again], some [.failed]⟩]⟩,
    ⟨false, [], [⟨6, false, some [.data [86, 69, 78, 49], .eof], some [.wrote 3, .again]⟩]⟩]

theorem server_stays_up_bad_bytes :
    ∃ b : ByteServer 3, ByteServer.run .ndebug 3 2 stoppedClock badBytes = .ok b :=
  server_stays_up (by decide) stoppedClock badBytes (by decide)

end MarketMakerOps.Exchange
