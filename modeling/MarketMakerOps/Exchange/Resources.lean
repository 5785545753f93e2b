import MarketMakerOps.Exchange.ByteServer

/-!
What the server holds for its clients between two iterations.

* `Decoded.short`: a decoder in no error that has yielded all it can keeps less than a frame;
* `Server.Healthy`: the decoders of the open connections are in no error;
* `Synced.free_add_live`: a slot of the pool is free, or that of a live order;
* `resources_accounted`: all of it belongs to open connections, and closing them frees it.
-/

namespace MarketMakerOps.Exchange

open Decimal Engine Fallible Splitting

variable {cap softCap n : Nat} {build : Build}

/-! ## Input buffers -/

theorem length_of_short {s : Bytes} (h : front s = .short) : s.length < 8 + 2 ^ 20 := by
  unfold front at h
  split at h
  · omega
  · next h8 =>
    split at h
    · cases h
    · next hgood =>
      dsimp only at h
      split at h
      · next hlen =>
        have hmax : bigEndian ((s.drop 4).take 4) ≤ 2 ^ 20 := by
          by_contra hmax
          exact hgood ⟨by omega, Or.inr (by omega)⟩
        omega
      · cases h

/-- What is left in the buffer is the beginning of one frame. -/
theorem Decoded.short {stream : Bytes} {payloads : List Bytes} {d : FrameDecoder}
    (h : Decoded stream payloads d) (herror : d.error = false) : d.buf.length < 8 + 2 ^ 20 := by
  refine length_of_short ?_
  cases hfront : front d.buf with
  | short => rfl
  | bad =>
    have hbad := h.error.mpr (front_eq_bad.mp hfront)
    rw [herror] at hbad
    cases hbad
  | item payload rest => exact absurd hfront (h.cut.2 payload rest)

namespace Server

variable {s s' : Server cap}

/-- A descriptor that is still open after it was read. -/
theorem handleReadable_open {fd : Fd} {rs : List Recv} {c' : Conn}
    (h : s.handleReadable build fd rs = .ok s') (hc' : s'.conns fd = some c') :
    c'.decoder.error = false := by
  unfold handleReadable at h
  cases hc : s.conns fd with
  | none =>
    rw [hc] at h
    cases h
    rw [hc] at hc'
    cases hc'
  | some c =>
    rw [hc] at h
    dsimp only at h
    cases hr : recvLoop rs c.decoder with
    | mk d stop =>
      rw [hr] at h
      cases stop with
      | some how =>
        obtain ⟨-, hnone, -⟩ := closeConn_spec (Function.update_self _ _ _) h
        rw [hnone] at hc'
        cases hc'
      | none =>
        obtain ⟨s₁, -, h⟩ := bind_eq_ok.mp h
        split at h
        · next herror =>
          obtain ⟨c₁, hc₁⟩ : ∃ c₁, s₁.conns fd = some c₁ := by
            cases hc₁ : s₁.conns fd with
            | none =>
              rw [hc₁] at herror
              cases herror
            | some c₁ => exact ⟨c₁, rfl⟩
          obtain ⟨-, hnone, -⟩ := closeConn_spec hc₁ h
          rw [hnone] at hc'
          cases hc'
        · next herror =>
          cases h
          rw [hc', Option.any_some, Bool.not_eq_true] at herror
          exact herror

/-- No open connection has sent a bad header. -/
def Healthy (s : Server cap) : Prop := ∀ fd c, s.conns fd = some c → c.decoder.error = false

theorem Healthy.elsewhere {fd : Fd} (h : s.Healthy) (helse : Elsewhere fd s s')
    (hfd : ∀ c', s'.conns fd = some c' → c'.decoder.error = false) : s'.Healthy := by
  intro fd' c' hc'
  by_cases heq : fd' = fd
  · subst heq
    exact hfd c' hc'
  · obtain ⟨c, hc, hr⟩ := helse.others fd' c' heq hc'
    rw [hr.decoder]
    exact h fd' c hc

theorem Healthy.broadcast (h : s.Healthy) (payload : Payload) :
    (s.broadcastPayload payload).Healthy := by
  intro fd c' hc'
  obtain ⟨c, hc, rfl⟩ := Option.map_eq_some_iff.mp hc'
  exact h fd c hc

theorem Reached.healthy (h : Reached build softCap n s) : s.Healthy := by
  induction h with
  | start result => exact fun fd c hc => (by cases hc)
  | @accept n s cfd _ closed ih =>
    intro fd c hc
    rw [acceptOne_eq closed] at hc
    by_cases hfd : fd = cfd
    · subst hfd
      simp only [Function.update_self, Option.some.injEq] at hc
      subst hc
      rfl
    · simp only [Function.update_of_ne hfd] at hc
      exact ih fd c hc
  | read _ isOpen result ih =>
    exact ih.elsewhere (handleReadable_cases isOpen result).1 fun c' => handleReadable_open result
  | close _ isOpen result ih =>
    obtain ⟨helse, hnone, -⟩ := closeConn_spec isOpen result
    refine ih.elsewhere helse fun c' hc' => ?_
    rw [hnone] at hc'
    cases hc'
  | @beat n s _ ih =>
    have hbeat : Healthy (broadcastPayload { s with heartbeatSeq := s.heartbeatSeq + 1 }
        (.heartbeat (s.heartbeatSeq + 1))) := Healthy.broadcast ih _
    exact Healthy.broadcast hbeat _
  | @publish n s _ ih => exact Healthy.broadcast ih _

end Server

/-! ## Slots -/

/-- A slot of the pool is free, or that of a live order. -/
theorem Synced.free_add_live {v : Venue cap} {a : PriorityBook cap} (h : Synced n v a) :
    v.book.pool.freeCount + v.tables.byEngineId.keys.length = cap := by
  have hlive := h.keys_perm.length_eq
  rw [List.length_map, List.length_append] at hlive
  have hqueued := h.rep.restingCount_eq h.wf
  rw [OrderBook.restingCount] at hqueued
  have hslots := h.wf.slots.length_eq
  simp only [PriorityBook.slots, List.length_append, List.length_map, List.length_finRange]
    at hslots
  rw [h.rep.pool.count]
  omega

theorem keys_of_live_none {T : Tables} (h : ∀ id, T.live id = none) : T.byEngineId.keys = [] := by
  refine List.eq_nil_iff_forall_not_mem.mpr fun id hid => ?_
  have hsome := AList.lookup_isSome.mpr (AList.mem_keys.mpr hid)
  rw [show T.byEngineId.lookup id = none from h id] at hsome
  cases hsome

/-- Without live orders there are no levels. -/
theorem Synced.levels_nil {v : Venue cap} {a : PriorityBook cap} (h : Synced n v a)
    (hnone : ∀ id, v.tables.live id = none) (side : Side) : v.book.levels side = [] := by
  refine (h.rep.levels side).eq_nil_iff.mpr (List.eq_nil_iff_forall_not_mem.mpr fun e he => ?_)
  obtain ⟨lo, hlo, -⟩ := h.holds.queued side e he
  rw [hnone] at hlo
  cases hlo

/-- Between two iterations: what is left of a client's bytes is less than a frame, every slot of the
pool is free or that of a live order, of which there are no more than the soft cap, and every live
order, every record and every order of the book belongs to an open connection. With no connection
open, the book is empty and the whole pool is free. -/
theorem resources_accounted {clock : Nat → UtcTime} {passes : List BytePass} {b : ByteServer cap}
    (h : ByteServer.run build cap softCap clock passes = .ok b)
    (hp : ∀ v, Venue.new cap softCap = .ok v →
      Allowed (ByteServer.pass build) ByteServer.AcceptsClosed (ByteServer.start clock v) passes)
    (hn : (passes.map fun p => p.accepts.length).sum < 2 ^ 64)
    (hlt : b.session.accepted < 2 ^ 64) :
    (∀ fd c, b.conns fd = some c →
      c.decoder.error = false ∧ c.decoder.buf.length < 8 + 2 ^ 20) ∧
    b.venue.book.pool.freeCount + b.venue.tables.byEngineId.keys.length = cap ∧
    b.venue.tables.byEngineId.keys.length ≤ softCap ∧
    (∀ id lo, b.venue.tables.live id = some lo → ∃ fd, b.fdConn fd = some lo.owner ∧
      (b.conns fd).isSome) ∧
    (∀ conn cid r, b.venue.tables.record conn cid = some r → ∃ fd, b.fdConn fd = some conn ∧
      (b.conns fd).isSome) ∧
    (∀ side, ∀ o ∈ b.venue.book.resting side, ∃ fd, b.fdConn fd = some o.participantId ∧
      (b.conns fd).isSome) ∧
    ((∀ fd, b.conns fd = none) → b.venue.book.pool.freeCount = cap ∧
      ∀ side, b.venue.book.levels side = []) := by
  obtain ⟨passes', s, hrun, hR, hreached⟩ := ByteServer.run_refines h hp
  obtain ⟨gone, hrouted⟩ := hreached.routed hn
  obtain ⟨events, hevents⟩ := hrouted.reached
  have hvenue : b.venue = s.venue := congrArg Session.venue hR.session
  rw [hR.session] at hlt
  obtain ⟨a, hsynced⟩ := session_synced hevents hlt
  have hsynced : Synced s.session.accepted s.venue a := hsynced
  obtain ⟨-, hsize⟩ := session_size hevents
  have hrouting := hrouted.routing
  have hopen : ∀ conn, ¬ s.connFd conn = none → ∃ fd, b.fdConn fd = some conn ∧
      (b.conns fd).isSome := by
    intro conn hconn
    obtain ⟨fd, hfd⟩ := Option.ne_none_iff_exists'.mp hconn
    have hid := (hrouting.inverse fd conn).mpr hfd
    have hsome := hrouting.keys fd
    rw [hid] at hsome
    refine ⟨fd, hR.fdConn ▸ hid, ?_⟩
    rcases hR.conn fd with ⟨-, hnone⟩ | ⟨c, -, hc, -⟩
    · rw [hnone] at hsome
      cases hsome
    · rw [hc]
      rfl
  have hlive : ∀ id lo, s.venue.tables.live id = some lo → ∃ fd, b.fdConn fd = some lo.owner ∧
      (b.conns fd).isSome := fun id lo hlo =>
    hopen lo.owner fun hnone => (hrouting.forgotten lo.owner hnone).2 id lo hlo rfl
  rw [hvenue]
  refine ⟨fun fd c hc => ?_, hsynced.free_add_live, hsize, hlive, fun conn cid r hr => ?_,
    fun side o ho => hopen o.participantId fun hnone => hrouted.book hlt hnone side o ho rfl,
    fun hnone => ?_⟩
  · rcases hR.conn fd with ⟨hnone, -⟩ | ⟨c₁, c', hc₁, hc', hcarries⟩
    · rw [hnone] at hc
      cases hc
    · rw [hc, Option.some_inj] at hc₁
      subst hc₁
      have herror := hreached.healthy fd c' hc'
      rw [hcarries.decoder]
      exact ⟨herror, ((Server.delivered_of_run hrun).served fd c' hc').short herror⟩
  · refine hopen conn fun hnone => ?_
    rw [(hrouting.forgotten conn hnone).1 cid] at hr
    cases hr
  · have hempty : ∀ id, s.venue.tables.live id = none := by
      intro id
      cases hlo : s.venue.tables.live id with
      | none => rfl
      | some lo =>
        obtain ⟨fd, -, hsome⟩ := hlive id lo hlo
        rw [hnone fd] at hsome
        cases hsome
    have hsum := hsynced.free_add_live
    rw [keys_of_live_none hempty, List.length_nil, Nat.add_zero] at hsum
    exact ⟨hsum, hsynced.levels_nil hempty⟩

/-- Connection 5 sends a bid and the magic of another frame; connection 6 comes and goes. -/
def bidAndMagic : List BytePass :=
  [⟨false, [5, 6], []⟩,
    ⟨false, [], [⟨5, false, some [.data bidFrame, .data [86, 69, 78, 49], .again], none⟩,
      ⟨6, true, none, none⟩]⟩]

theorem resources_accounted_bid : ∃ (b : ByteServer 3) (c : ByteConn),
    ByteServer.run .debug 3 2 stoppedClock bidAndMagic = .ok b ∧ b.conns 5 = some c ∧
      c.decoder.error = false ∧ c.decoder.buf = [86, 69, 78, 49] ∧
      b.venue.book.pool.freeCount + b.venue.tables.byEngineId.keys.length = 3 := by
  obtain ⟨b, hb, hp⟩ := exists_ok (x := ByteServer.run .debug 3 2 stoppedClock bidAndMagic)
    (p := fun b => decide (b.session.accepted < 2 ^ 64 ∧
      (b.conns 5).map (fun c => c.decoder.buf) = some [86, 69, 78, 49])) (by decide +kernel)
  obtain ⟨hlt, hbuf⟩ := of_decide_eq_true hp
  obtain ⟨c, hc, hbuf⟩ := Option.map_eq_some_iff.mp hbuf
  have hallowed : ∀ v ∈ (Venue.new 3 2).toOption, Allowed (ByteServer.pass .debug)
      ByteServer.AcceptsClosed (ByteServer.start stoppedClock v) bidAndMagic := by
    decide +kernel
  obtain ⟨hbuffers, hpool, -⟩ := resources_accounted hb
    (fun v hv => hallowed v (by rw [hv]; rfl)) (by decide) hlt
  exact ⟨b, c, hb, hc, (hbuffers 5 c hc).1, hbuf, hpool⟩

end MarketMakerOps.Exchange
