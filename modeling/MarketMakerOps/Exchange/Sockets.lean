import MarketMakerOps.Exchange.Delivery
import MarketMakerOps.Exchange.Descriptors

/-!
No message is misrouted when descriptors are reused.

* `Server.Reached`: the servers some accepts, reads, closes and broadcasts lead to;
* `run_reached`: those of the poll loop are among them;
* `no_misrouting`: in all of them the maps agree and every socket has its own
  messages and requests, until the connection ids come round;
* `misrouted_after_wrap`: then two sockets share an id.
-/

namespace MarketMakerOps.Exchange

open Decimal Engine Fallible

variable {cap softCap n : Nat} {build : Build}

namespace Server

/-- What some accepts, reads, closes and broadcasts on a new server lead to, after `n` accepted
connections. A write that succeeds appends nothing; one that fails is a close. -/
inductive Reached (build : Build) (softCap : Nat) : Nat → Server cap → Prop
  | start {v : Venue cap} (result : Venue.new cap softCap = .ok v) :
      Reached build softCap 0 (start v)
  | accept {n : Nat} {s : Server cap} {cfd : Fd} (reached : Reached build softCap n s)
      (closed : s.conns cfd = none) : Reached build softCap (n + 1) (s.acceptOne cfd)
  | read {n : Nat} {s s' : Server cap} {fd : Fd} {rs : List Recv} {c : Conn}
      (reached : Reached build softCap n s) (isOpen : s.conns fd = some c)
      (result : s.handleReadable build fd rs = .ok s') : Reached build softCap n s'
  | close {n : Nat} {s s' : Server cap} {fd : Fd} {how : Closing} {c : Conn}
      (reached : Reached build softCap n s) (isOpen : s.conns fd = some c)
      (result : s.closeConn build fd how = .ok s') : Reached build softCap n s'
  | beat {n : Nat} {s : Server cap} (reached : Reached build softCap n s) :
      Reached build softCap n s.broadcastFeed
  | publish {n : Nat} {s : Server cap} (reached : Reached build softCap n s) :
      Reached build softCap n ({ s with lastTop := s.venue.currentTop }.broadcastPayload
        (.marketData s.venue.currentTop))

/-- `accept` returns descriptors that are not open. -/
def AcceptsClosed (s : Server cap) (p : Pass) : Prop :=
  p.accepts.Nodup ∧ ∀ fd ∈ p.accepts, s.conns fd = none

instance (s : Server cap) (p : Pass) : Decidable (s.AcceptsClosed p) :=
  inferInstanceAs (Decidable (_ ∧ _))

section Runs

variable {s s' : Server cap}

theorem acceptNew_reached {accepts : List Fd} (h : Reached build softCap n s)
    (hnd : accepts.Nodup) (hclosed : ∀ fd ∈ accepts, s.conns fd = none) :
    Reached build softCap (n + accepts.length) (s.acceptNew accepts) := by
  induction accepts generalizing s n with
  | nil => exact h
  | cons cfd accepts ih =>
    obtain ⟨hnot, hnd⟩ := List.nodup_cons.mp hnd
    have hcfd := hclosed cfd List.mem_cons_self
    have hnext := ih (h.accept hcfd) hnd fun fd hfd => by
      have hne : fd ≠ cfd := fun heq => hnot (heq ▸ hfd)
      rw [acceptOne_eq hcfd]
      exact (Function.update_of_ne hne _ _).trans (hclosed fd (List.mem_cons_of_mem _ hfd))
    rwa [Nat.add_assoc, Nat.add_comm 1] at hnext

theorem pass_reached {p : Pass} (h : Reached build softCap n s) (hp : s.AcceptsClosed p)
    (hs' : s.pass build p = .ok s') : Reached build softCap (n + p.accepts.length) s' := by
  obtain ⟨s₁, hs₁, hs'⟩ := bind_eq_ok.mp hs'
  have hbeat : Reached build softCap n (if p.heartbeat then s.broadcastFeed else s) ∧
      ∀ fd, s.conns fd = none → (if p.heartbeat then s.broadcastFeed else s).conns fd = none := by
    split
    · refine ⟨h.beat, fun fd hfd => ?_⟩
      simp only [broadcastFeed, broadcastPayload, hfd, Option.map_none]
    · exact ⟨h, fun fd hfd => hfd⟩
  have hopen := acceptNew_reached hbeat.1 hp.1 fun fd hfd => hbeat.2 fd (hp.2 fd hfd)
  have h₁ : Reached build softCap (n + p.accepts.length) s₁ :=
    run_inv (fun _ _ _ h hs => serve_inv (fun _ _ _ _ _ h hc _ hs' => h.close hc hs')
      (fun _ _ _ _ _ h hc hs' => h.read hc hs') h hs) hopen hs₁
  dsimp only at hs'
  split at hs'
  · cases hs'
    exact h₁.publish
  · cases hs'
    exact h₁

/-- The poll loop makes such steps. -/
theorem run_reached {passes : List Pass} (h : run build cap softCap passes = .ok s)
    (hp : ∀ v, Venue.new cap softCap = .ok v →
      Allowed (pass build) AcceptsClosed (start v) passes) :
    Reached build softCap (passes.map fun p => p.accepts.length).sum s := by
  obtain ⟨v, hv, hrun⟩ := bind_eq_ok.mp h
  have hpasses : ∀ (passes : List Pass) {n : Nat} {s₀ : Server cap}, Reached build softCap n s₀ →
      Allowed (pass build) AcceptsClosed s₀ passes →
      Fallible.run (pass build) s₀ passes = .ok s →
      Reached build softCap (n + (passes.map fun p => p.accepts.length).sum) s := by
    intro passes
    induction passes with
    | nil =>
      intro n s₀ h₀ _ hrun
      cases hrun
      exact h₀
    | cons p passes ih =>
      rintro n s₀ h₀ ⟨hp, hrest⟩ hrun
      obtain ⟨s₁, hs₁, hrun⟩ := bind_eq_ok.mp hrun
      have hnext := ih (pass_reached h₀ hp hs₁) (hrest s₁ hs₁) hrun
      rwa [Nat.add_assoc, ← List.sum_cons] at hnext
  have hall := hpasses passes (.start hv) (hp v hv) hrun
  rwa [Nat.zero_add] at hall

theorem Reached.routed (h : Reached build softCap n s) (hn : n < 2 ^ 64) :
    ∃ gone, Routed build softCap n gone s := by
  induction h with
  | start result => exact ⟨[], routed_start result⟩
  | accept _ closed ih =>
    obtain ⟨gone, hs⟩ := ih (Nat.lt_of_succ_lt hn)
    exact ⟨gone, hs.accept hn closed⟩
  | read _ _ result ih =>
    obtain ⟨gone, hs⟩ := ih hn
    exact hs.read result
  | close _ isOpen result ih =>
    obtain ⟨gone, hs⟩ := ih hn
    obtain ⟨id, hid⟩ := hs.id_of_conn isOpen
    exact ⟨_, hs.close isOpen hid result⟩
  | beat _ ih =>
    obtain ⟨gone, hs⟩ := ih hn
    exact ⟨gone, hs.beat⟩
  | @publish n s _ ih =>
    obtain ⟨gone, hs⟩ := ih hn
    exact ⟨gone, hs.broadcast rfl s.heartbeatSeq s.venue.currentTop⟩

/-- The book holds no order of a connection the tables have forgotten. -/
theorem Routed.book {gone : List ConnId} (h : Routed build softCap n gone s)
    (hlt : s.session.accepted < 2 ^ 64) {id : ConnId} (hid : s.connFd id = none) (side : Side) :
    ∀ o ∈ s.venue.book.resting side, o.participantId ≠ id := by
  obtain ⟨events, hevents⟩ := h.reached
  obtain ⟨a, hs⟩ := session_synced hevents hlt
  intro o ho heq
  have hmem := List.mem_map_of_mem (f := Order.participantId) ho
  have hids := hs.rep.map_resting Order.participantId (fun _ => rfl) hs.wf side
  have hmem : o.participantId ∈ (s.session.venue.book.resting side).map Order.participantId := hmem
  rw [hids] at hmem
  obtain ⟨e, he, hpid⟩ := List.mem_map.mp hmem
  obtain ⟨lo, hlo, hm⟩ := hs.holds.queued side e he
  refine (h.routing.forgotten id hid).2 e.orderId lo hlo ?_
  rw [hm.owner, ← heq, ← hpid]
  rfl

end Runs
end Server

/-- While fewer than `2 ^ 64` connections have been accepted: the two maps are inverse to each
other, each open socket has one id, and each socket, open or closed, has got exactly the messages to
its id and is the source of exactly the requests under it. What is sent to another id is discarded.
A connection that is closed, or was never there, has no order and no record; nor, while fewer than
`2 ^ 64` orders have been accepted, does the book hold an order of it. -/
theorem no_misrouting {s : Server cap} (h : Server.Reached build softCap n s) (hn : n < 2 ^ 64) :
    (∃ gone, s.Routing gone) ∧
    (∀ fd id how s', s.fdConn fd = some id → s.closeConn build fd how = .ok s' →
      s'.connFd id = none ∧ s'.fdConn fd = none) ∧
    ∀ id, s.connFd id = none → (∀ payload, s.enqueue id payload = s) ∧
      (s.session.accepted < 2 ^ 64 → ∀ side, ∀ o ∈ s.venue.book.resting side,
        o.participantId ≠ id) := by
  obtain ⟨gone, hs⟩ := h.routed hn
  refine ⟨⟨gone, hs.routing⟩, fun fd id how s' hid hs' => ?_, fun id hid => ⟨fun payload => ?_,
    fun hlt side => hs.book hlt hid side⟩⟩
  · obtain ⟨c, hc⟩ : ∃ c, s.conns fd = some c := by
      rw [← Option.isSome_iff_exists, ← hs.keys, hid]
      rfl
    have hnext := hs.close hc hid hs'
    have hnone := hnext.apart id (List.mem_append_right _ List.mem_cons_self)
    refine ⟨hnone, ?_⟩
    cases hfd : s'.fdConn fd with
    | none => rfl
    | some id' =>
      have hkeys := hnext.keys fd
      rw [hfd, (Server.closeConn_spec hc hs').2.1] at hkeys
      cases hkeys
  · rw [Server.enqueue, hid]

/-- Connection 5 bids and hangs up; its descriptor is accepted again. -/
def reusedDescriptor : List Pass :=
  [⟨false, [5], []⟩, ⟨false, [], [⟨5, false, some [.data bidFrame, .again], none⟩]⟩,
    ⟨false, [], [⟨5, true, none, none⟩]⟩, ⟨false, [5], []⟩]

theorem no_misrouting_reused_descriptor : ∃ s : Server 3,
    Server.Reached .debug 2 2 s ∧ s.fdConn 5 = some 2 ∧ s.connFd 1 = none ∧
    (∃ gone, s.Routing gone) ∧ ∀ payload, s.enqueue 1 payload = s := by
  obtain ⟨s, hs, hp⟩ := exists_ok (x := Server.run .debug 3 2 reusedDescriptor)
    (p := fun s => decide (s.fdConn 5 = some 2 ∧ s.connFd 1 = none)) (by decide +kernel)
  obtain ⟨hnew, hold⟩ := of_decide_eq_true hp
  have hfresh : ∀ v ∈ (Venue.new 3 2).toOption,
      Allowed (Server.pass .debug) Server.AcceptsClosed (Server.start v) reusedDescriptor := by
    decide +kernel
  have hreached := Server.run_reached hs fun v hv => hfresh v (by rw [hv]; rfl)
  have h := no_misrouting hreached (by decide)
  exact ⟨s, hreached, hnew, hold, h.1, (h.2.2 1 hold).1⟩

/-! ## After the connection ids have come round -/

namespace Server

/-- Descriptor 5 is open under id 1, and `id` is the next one. -/
structure Held (s : Server cap) (id : ConnId) : Prop where
  sound : s.venue.book.Sound
  clock : s.nextConnId = id
  isOpen : (s.conns 5).isSome
  there : s.fdConn 5 = some 1
  back : s.connFd 1 = some 5
  six : s.conns 6 = none
  seven : s.conns 7 = none

variable {s : Server cap} {id : ConnId}

theorem call_silent {ev : Event} {session : Session cap}
    (hstep : s.session.step build ev = .ok session) (hnil : session.venue.tables.sent = []) :
    s.call build ev = .ok { s with session := session } := by
  rw [Server.call, hstep, ok_bind, hnil]
  rfl

/-- A descriptor closed whose connection is dropped in silence. -/
theorem closeConn_silent {fd : Fd} (how : Closing) {session : Session cap}
    (hid : s.fdConn fd = some id) (hstep : s.session.step build (.drop id) = .ok session)
    (hnil : session.venue.tables.sent = []) : s.closeConn build fd how = .ok { s with
      session := session
      conns := Function.update s.conns fd none
      connFd := Function.update s.connFd id none
      fdConn := Function.update s.fdConn fd none
      closed := s.closed ++ ((s.conns fd).map fun c => (how, c)).toList } := by
  rw [closeConn, hid]
  simp only [call_silent hstep hnil, ok_bind]
  rfl

/-- A sound book can drop any connection. -/
theorem drop_silent (hsound : s.venue.book.Sound) (build : Build) (id : ConnId) :
    ∃ session, s.session.step build (.drop id) = .ok session ∧ session.venue.tables.sent = [] ∧
      session.venue.book.Sound := by
  obtain ⟨a, hrep, hwf⟩ := hsound
  obtain ⟨v', hv', hrep', -, -, hsent, -⟩ := dropIn_spec (v := s.venue.cleared) build id
    (s.venue.cleared.owned id) hrep hwf
  exact ⟨_, Session.step_eq_ok.mpr ⟨v', hv', rfl⟩, hsent, _, hrep', hwf.cancels _⟩

theorem acceptOne_maps {cfd : Fd} (hclosed : s.conns cfd = none) :
    (s.acceptOne cfd).nextConnId = s.nextConnId + 1 ∧ (s.acceptOne cfd).session = s.session ∧
    (∀ fd, (s.acceptOne cfd).conns fd = if fd = cfd then
      some { Conn.fresh with out := [.marketData s.venue.currentTop] } else s.conns fd) ∧
    (∀ id, (s.acceptOne cfd).connFd id = if id = s.nextConnId then some cfd else s.connFd id) ∧
    ∀ fd, (s.acceptOne cfd).fdConn fd = if fd = cfd then some s.nextConnId else s.fdConn fd := by
  rw [acceptOne_eq hclosed]
  exact ⟨rfl, rfl, fun fd => Function.update_apply .., fun id => Function.update_apply ..,
    fun fd => Function.update_apply ..⟩

/-- Descriptor 6 is accepted, and hangs up. -/
theorem Held.round (h : Reached build softCap n s) (hs : s.Held id) (hid : id ≠ 1) :
    ∃ s' : Server cap, Reached build softCap (n + 1) s' ∧ s'.Held (id + 1) := by
  have hacc := h.accept hs.six
  obtain ⟨hclock, hsession, hconns, hconnFd, hfdConn⟩ := acceptOne_maps hs.six
  obtain ⟨session, hstep, hnil, hsound⟩ := drop_silent hs.sound build id
  rw [← hsession] at hstep
  have hsix : (s.acceptOne 6).fdConn 6 = some id := by
    rw [hfdConn, if_pos rfl, hs.clock]
  have hconn : (s.acceptOne 6).conns 6 = some _ := (hconns 6).trans (if_pos rfl)
  refine ⟨_, hacc.close hconn (closeConn_silent .hangUp hsix hstep hnil), hsound,
    hclock.trans (by rw [hs.clock]), ?_, ?_, ?_, ?_, ?_⟩
  · show (Function.update (s.acceptOne 6).conns 6 none 5).isSome
    rw [Function.update_of_ne (by decide), hconns]
    exact hs.isOpen
  · show Function.update (s.acceptOne 6).fdConn 6 none 5 = some 1
    rw [Function.update_of_ne (by decide), hfdConn]
    exact hs.there
  · show Function.update (s.acceptOne 6).connFd id none 1 = some 5
    rw [Function.update_of_ne hid.symm, hconnFd, hs.clock, if_neg hid.symm]
    exact hs.back
  · show Function.update (s.acceptOne 6).conns 6 none 6 = none
    rw [Function.update_self]
  · show Function.update (s.acceptOne 6).conns 6 none 7 = none
    rw [Function.update_of_ne (by decide), hconns]
    exact hs.seven

theorem Held.rounds (h : Reached build softCap n s) (hs : s.Held id) (k : Nat)
    (hid : ∀ j < k, id + UInt64.ofNat j ≠ 1) : ∃ s' : Server cap,
      Reached build softCap (n + k) s' ∧ s'.Held (id + UInt64.ofNat k) := by
  induction k generalizing s id n with
  | zero => exact ⟨s, h, by simpa using hs⟩
  | succ k ih =>
    have hnext : ∀ j, id + 1 + UInt64.ofNat j = id + UInt64.ofNat (j + 1) := by
      intro j
      rw [UInt64.ofNat_add, UInt64.add_assoc, UInt64.add_comm 1]
      rfl
    obtain ⟨s₁, h₁, hs₁⟩ := hs.round h (by simpa using hid 0 (Nat.succ_pos k))
    obtain ⟨s₂, h₂, hs₂⟩ := ih h₁ hs₁ fun j hj => hnext j ▸ hid (j + 1) (Nat.succ_lt_succ hj)
    refine ⟨s₂, ?_, hnext k ▸ hs₂⟩
    rwa [Nat.add_assoc, Nat.add_comm 1] at h₂

/-- Descriptor 5 is accepted first, and stays. -/
theorem exists_held (build : Build) : ∃ s : Server 3, Reached build 2 1 s ∧ s.Held 2 := by
  obtain ⟨v, hv⟩ : ∃ v : Venue 3, Venue.new 3 2 = .ok v := ⟨_, rfl⟩
  have hstart : Reached build 2 0 (start v) := .start hv
  have hacc : Reached build 2 1 ((start v).acceptOne 5) := hstart.accept rfl
  rw [acceptOne_eq rfl] at hacc
  obtain ⟨-, hs⟩ := Venue.new_eq_ok hv
  exact ⟨_, hacc, ⟨_, hs.rep, hs.wf⟩, rfl, rfl, rfl, rfl, rfl, rfl⟩

end Server

/-- Once the connection ids have come round, descriptors 5 and 7 are both open under id 1: what the
venue sends to 5 reaches 7. -/
theorem misrouted_after_wrap : ∃ n, ∃ s : Server 3, Server.Reached .ndebug 2 n s ∧
    (s.conns 5).isSome ∧ (s.conns 7).isSome ∧ s.fdConn 5 = some 1 ∧ s.fdConn 7 = some 1 ∧
    s.connFd 1 = some 7 := by
  obtain ⟨s, h, hs⟩ := Server.exists_held .ndebug
  obtain ⟨k, hk⟩ : ∃ k, 2 + k = 2 ^ 64 + 1 := ⟨2 ^ 64 - 1, by omega⟩
  have hval : ∀ j ≤ k, ((2 : UInt64) + UInt64.ofNat j).toNat = (2 + j) % 2 ^ 64 := by
    intro j hj
    have hj64 : j < 2 ^ 64 := by omega
    rw [UInt64.toNat_add, UInt64.toNat_ofNat_of_lt' hj64]
    rfl
  obtain ⟨s', h', hs'⟩ := hs.rounds h k fun j hj heq => by
    have hj' := hval j hj.le
    rw [heq, show (1 : UInt64).toNat = 1 from rfl] at hj'
    omega
  have hone : (2 : UInt64) + UInt64.ofNat k = 1 := by
    rw [← UInt64.toNat_inj, hval k le_rfl, show (1 : UInt64).toNat = 1 from rfl]
    omega
  rw [hone] at hs'
  obtain ⟨-, -, hconns, hconnFd, hfdConn⟩ := Server.acceptOne_maps hs'.seven
  refine ⟨_, _, h'.accept hs'.seven, ?_, ?_, ?_, ?_, ?_⟩
  · rw [hconns]
    exact hs'.isOpen
  · rw [hconns]
    rfl
  · rw [hfdConn]
    exact hs'.there
  · rw [hfdConn, if_pos rfl, hs'.clock]
  · rw [hconnFd, hs'.clock, if_pos rfl]

end MarketMakerOps.Exchange
