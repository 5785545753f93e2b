import MarketMakerOps.Exchange.Server

/-!
Which of the requests a client completed reach the venue.

* `Executed`: exactly the complete frames at the front of a stream were handed over;
* `Conn.Served`: so it is for an open connection, after every step;
* `requests_executed_iff`: for one closed at the end of its stream it depends on what the last
  pass received.
-/

namespace MarketMakerOps.Exchange

open Decimal Engine Fallible Splitting

variable {cap softCap : Nat} {build : Build}

/-- The payloads handed over are those of the longest sequence of frames at the front. -/
def Executed (stream : Bytes) (handled : List Bytes) : Prop :=
  ∃ rest, Framed stream handled rest ∧
    ∀ payloads rest', Framed stream payloads rest' → payloads <+: handled

/-- No sequence of frames at the front of the stream reaches into its last bytes. -/
def CompletesNothing (earlier last : Bytes) : Prop :=
  ∀ payloads rest, Framed (earlier ++ last) payloads rest → last.length ≤ rest.length

theorem Decoded.executed {stream : Bytes} {payloads : List Bytes} {d : FrameDecoder}
    (h : Decoded stream payloads d) : Executed stream payloads :=
  ⟨d.buf, items_iff.mp h.cut.1, fun _ _ hf => h.cut.prefix_of_items (items_iff.mpr hf)⟩

/-- Behind a bad header nothing more is to be executed. -/
theorem Decoded.executed_append {stream : Bytes} {payloads : List Bytes} {d : FrameDecoder}
    (h : Decoded stream payloads d) (herror : d.error = true) (more : Bytes) :
    Executed (stream ++ more) payloads := by
  have hbad := frames.bad_append (front_eq_bad.mpr (h.error.mp herror)) more
  have hcut : Cut frames (d.buf ++ more) [] (d.buf ++ more) := by
    refine ⟨.nil, fun _ _ hitem => ?_⟩
    rw [hbad] at hitem
    cases hitem
  have hcut' := h.cut.arrive hcut
  rw [List.append_nil] at hcut'
  exact ⟨_, items_iff.mp hcut'.1, fun _ _ hf => hcut'.prefix_of_items (items_iff.mpr hf)⟩

/-- What was decoded before the last bytes is all there is, when these complete nothing. -/
theorem Decoded.executed_iff {earlier last : Bytes} {payloads : List Bytes} {d : FrameDecoder}
    (h : Decoded earlier payloads d) :
    Executed (earlier ++ last) payloads ↔ CompletesNothing earlier last := by
  constructor
  · rintro ⟨-, -, hlongest⟩ bs rest hf
    have hle := (h.cut.1.arrive last).length_le_of_front (items_iff.mpr hf) (hlongest bs rest hf)
    rw [List.length_append] at hle
    omega
  · intro hnothing
    have hfed := h.feed last
    set bs := (d.feed last).drain.1
    have hrest := hnothing _ _ (items_iff.mp hfed.cut.1)
    have hbs : bs = [] := by
      cases hcase : bs with
      | nil => rfl
      | cons b bs' =>
        -- the first new frame would lie within what had arrived before
        have hnew := (h.drained last).cut.1
        rw [show (d.feed last).drain.1 = b :: bs' from hcase] at hnew
        cases hnew with
        | @cons _ m _ _ _ head tail =>
          have hle := tail.length_le
          obtain ⟨frame, hframe, happend⟩ := front_eq_item.mp head
          obtain ⟨x, hx⟩ : ∃ x, d.buf = frame ++ x := by
            rcases List.append_eq_append_iff.mp happend with ⟨x, hx, hlast⟩ | ⟨x, hx, -⟩
            · have hlength := congrArg List.length hlast
              rw [List.length_append] at hlength
              have hnil : x = [] := List.eq_nil_of_length_eq_zero (by omega)
              exact ⟨[], by rw [hx, hnil, List.append_nil, List.append_nil]⟩
            · exact ⟨x, hx⟩
          exact absurd (front_eq_item.mpr ⟨frame, hframe, hx⟩) (h.cut.2 b x)
    have hexec := hfed.executed
    rw [hbs, List.append_nil] at hexec
    exact hexec

/-! ## Runs of the server -/

/-- All that arrived has been decoded, and every payload handed to the venue. -/
def Conn.Served (c : Conn) : Prop := Decoded c.received.flatten c.handled c.decoder

/-- A closed connection: at the end of the stream the last pass was not decoded. -/
def Ended : Closing × Conn → Prop
  | (.eof, c) => ∃ earlier last d, c.received = earlier ++ [last] ∧
      Decoded earlier.flatten c.handled d
  | (.framingError, c) => c.Served ∧ c.decoder.error = true
  | _ => True

theorem Conn.Replied.served {c c' : Conn} (h : c.Replied c') (hc : c.Served) : c'.Served := by
  rw [Conn.Served, h.decoder, h.received, h.handled]
  exact hc

theorem Conn.Served.drained {c c' : Conn} {rs : List Recv} (h : c.Served)
    (h' : (c.reading rs).Drained (c.reading rs).fuel c') : c'.Served := by
  rw [Conn.Served, h'.decoder, h'.received, h'.handled]
  have hstream : (c.reading rs).received.flatten = c.received.flatten ++ Server.received rs := by
    simp [Conn.reading]
  rw [hstream]
  exact Decoded.feed h (Server.received rs)

namespace Server

variable {s s' : Server cap}

/-- Every open connection is served, and every closed one was. -/
structure Delivered (s : Server cap) : Prop where
  served : ∀ fd c, s.conns fd = some c → c.Served
  ended : ∀ x ∈ s.closed, Ended x

theorem Delivered.elsewhere {fd : Fd} (h : s.Delivered) (helse : Elsewhere fd s s')
    (hfd : ∀ c', s'.conns fd = some c' → c'.Served) (hclosed : ∀ x ∈ s'.closed, Ended x) :
    s'.Delivered := by
  refine ⟨fun fd' c' hc' => ?_, hclosed⟩
  by_cases heq : fd' = fd
  · subst heq
    exact hfd c' hc'
  · obtain ⟨c, hc, hr⟩ := helse.others fd' c' heq hc'
    exact hr.served (h.served fd' c hc)

/-- Closing for another reason than the end of the stream or a bad header. -/
theorem Delivered.closeConn (h : s.Delivered) {fd : Fd} {how : Closing} {c : Conn}
    (hc : s.conns fd = some c) (hhow : how = .hangUp ∨ how = .sendFailed)
    (hs' : s.closeConn build fd how = .ok s') : s'.Delivered := by
  obtain ⟨helse, hnone, c', -, hclosed⟩ := closeConn_spec hc hs'
  refine h.elsewhere helse (fun c' hc' => ?_) fun x hx => ?_
  · rw [hnone] at hc'
    cases hc'
  · rw [hclosed, List.mem_append, List.mem_singleton] at hx
    rcases hx with hx | rfl
    · exact h.ended x hx
    · rcases hhow with rfl | rfl <;> exact trivial

theorem Delivered.handleReadable (h : s.Delivered) {fd : Fd} {rs : List Recv} {c : Conn}
    (hc : s.conns fd = some c) (hs' : s.handleReadable build fd rs = .ok s') : s'.Delivered := by
  have hserved := h.served fd c hc
  obtain ⟨helse, hread⟩ := handleReadable_cases hc hs'
  rcases hread with ⟨c₁, hc₁, hclosed, hdrained⟩ | ⟨hnone, how, c₁, hclosed, hhow⟩
  · refine h.elsewhere helse (fun c' hc' => ?_) fun x hx => h.ended x (hclosed ▸ hx)
    rw [hc₁, Option.some_inj] at hc'
    exact hc' ▸ hserved.drained hdrained
  · refine h.elsewhere helse (fun c' hc' => ?_) fun x hx => ?_
    · rw [hnone] at hc'
      cases hc'
    · rw [hclosed, List.mem_append, List.mem_singleton] at hx
      rcases hx with hx | rfl
      · exact h.ended x hx
      · rcases hhow with ⟨rfl | rfl, hr⟩ | ⟨rfl, herror, hdrained⟩
        · exact ⟨c.received, received rs, c.decoder, hr.received, hr.handled ▸ hserved⟩
        · exact trivial
        · exact ⟨hserved.drained hdrained, herror⟩

theorem Delivered.serve (h : s.Delivered) {r : Ready} (hs' : s.serve build r = .ok s') :
    s'.Delivered :=
  serve_inv (fun _ _ _ _ _ h hc hhow hs' => Delivered.closeConn h hc hhow hs')
    (fun _ _ _ _ _ h hc hs' => Delivered.handleReadable h hc hs') h hs'

/-- A step that only appends to output streams. -/
theorem Delivered.outputs (h : s.Delivered) (hclosed : s'.closed = s.closed)
    (hconns : ∀ fd c', s'.conns fd = some c' → ∃ c, (s.conns fd = some c ∨ c = Conn.fresh) ∧
      ∃ out, c' = { c with out := out }) : s'.Delivered := by
  refine ⟨fun fd c' hc' => ?_, fun x hx => h.ended x (hclosed ▸ hx)⟩
  obtain ⟨c, hc, out, rfl⟩ := hconns fd c' hc'
  rcases hc with hc | rfl
  · exact h.served fd c hc
  · exact decoded_empty

theorem Delivered.broadcastPayload (h : s.Delivered) (payload : Payload) :
    (s.broadcastPayload payload).Delivered := by
  refine h.outputs rfl fun fd c' hc' => ?_
  obtain ⟨c, hc, rfl⟩ := Option.map_eq_some_iff.mp hc'
  exact ⟨c, Or.inl hc, _, rfl⟩

theorem Delivered.broadcastFeed (h : s.Delivered) : s.broadcastFeed.Delivered := by
  have h₁ : Delivered { s with heartbeatSeq := s.heartbeatSeq + 1 } := ⟨h.served, h.ended⟩
  have h₂ := h₁.broadcastPayload (.heartbeat (s.heartbeatSeq + 1))
  exact Delivered.broadcastPayload (s := { Server.broadcastPayload
    { s with heartbeatSeq := s.heartbeatSeq + 1 } (.heartbeat (s.heartbeatSeq + 1)) with
      lastTop := s.venue.currentTop }) ⟨h₂.served, h₂.ended⟩ _

theorem Delivered.acceptNew (h : s.Delivered) (accepts : List Fd) :
    (s.acceptNew accepts).Delivered := by
  induction accepts generalizing s with
  | nil => exact h
  | cons cfd accepts ih =>
    refine ih ?_
    obtain ⟨-, -, hclosed, c, hc, hconns⟩ := acceptOne_spec s cfd
    refine h.outputs hclosed fun fd c' hc' => ?_
    rw [hconns] at hc'
    by_cases hfd : fd = cfd
    · subst hfd
      rw [Function.update_self, Option.some_inj] at hc'
      exact ⟨c, hc, _, hc'.symm⟩
    · rw [Function.update_of_ne hfd] at hc'
      exact ⟨c', Or.inl hc', c'.out, rfl⟩

theorem Delivered.pass (h : s.Delivered) {p : Pass} (hs' : s.pass build p = .ok s') :
    s'.Delivered := by
  obtain ⟨s₁, hs₁, hs'⟩ := bind_eq_ok.mp hs'
  have hbeat : (if p.heartbeat then s.broadcastFeed else s).Delivered := by
    split
    · exact h.broadcastFeed
    · exact h
  have h₁ : s₁.Delivered := run_inv (fun _ _ _ h hs => Delivered.serve h hs)
    (hbeat.acceptNew p.accepts) hs₁
  dsimp only at hs'
  split at hs'
  · cases hs'
    exact Delivered.broadcastPayload (s := { s₁ with lastTop := s₁.venue.currentTop })
      ⟨h₁.served, h₁.ended⟩ _
  · cases hs'
    exact h₁

theorem delivered_of_run {passes : List Pass} (h : run build cap softCap passes = .ok s) :
    s.Delivered :=
  inv_of_run Delivered
    (fun _ _ => ⟨fun _ _ hc => (by cases hc), fun _ hx => absurd hx List.not_mem_nil⟩)
    (fun _ _ _ hs hpass => hs.pass hpass) h

end Server

/-- In every reached state: an open connection had exactly its complete frames executed; so had one
closed for a bad header, whatever follows it; and one closed at the end of its stream exactly when
the pass that saw the end completed no frame. -/
theorem requests_executed_iff {passes : List Pass} {s : Server cap}
    (h : Server.run build cap softCap passes = .ok s) :
    (∀ fd c, s.conns fd = some c → Executed c.received.flatten c.handled) ∧
    (∀ c, (Closing.framingError, c) ∈ s.closed →
      ∀ more, Executed (c.received.flatten ++ more) c.handled) ∧
    ∀ c, (Closing.eof, c) ∈ s.closed → ∃ earlier last, c.received = earlier ++ [last] ∧
      (Executed c.received.flatten c.handled ↔ CompletesNothing earlier.flatten last) := by
  have hinv := Server.inv_of_run Server.Delivered
    (fun v _ => ⟨fun _ _ hc => (by cases hc), fun _ hx => absurd hx List.not_mem_nil⟩)
    (fun s p s' hs hpass => hs.pass hpass) h
  refine ⟨fun fd c hc => (hinv.served fd c hc).executed, fun c hc more => ?_, fun c hc => ?_⟩
  · obtain ⟨hserved, herror⟩ := hinv.ended _ hc
    exact Decoded.executed_append hserved herror more
  · obtain ⟨earlier, last, d, hreceived, hdecoded⟩ := hinv.ended _ hc
    refine ⟨earlier, last, hreceived, ?_⟩
    rw [hreceived, List.flatten_append, List.flatten_cons, List.flatten_nil, List.append_nil]
    exact hdecoded.executed_iff

/-- A bid in one frame. -/
def bidFrame : Bytes := encodeFrame (newOrderLine idA .buy 100 5 idA)

/-- Connection 5 is accepted, and sends a bid; its end comes later. -/
def bidThenEnd : List Pass :=
  [⟨false, [5], []⟩, ⟨false, [], [⟨5, false, some [.data bidFrame, .again], none⟩]⟩,
    ⟨false, [], [⟨5, false, some [.eof], none⟩]⟩]

/-- The end comes with the bid. -/
def bidAndEnd : List Pass :=
  [⟨false, [5], []⟩, ⟨false, [], [⟨5, false, some [.data bidFrame, .eof], none⟩]⟩]

theorem requests_executed_later_end : ∃ s : Server 3, Server.run .debug 3 2 bidThenEnd = .ok s ∧
    ∃ c, (Closing.eof, c) ∈ s.closed ∧ c.received.flatten = bidFrame ∧
      Executed c.received.flatten c.handled := by
  obtain ⟨s, hs, hp⟩ := exists_ok (x := Server.run .debug 3 2 bidThenEnd)
    (p := fun s => s.closed.any fun x => x.1 = .eof ∧ x.2.received = [bidFrame, []])
    (by decide +kernel)
  obtain ⟨⟨how, c⟩, hmem, hx⟩ := List.any_eq_true.mp hp
  obtain ⟨rfl, hreceived⟩ := of_decide_eq_true hx
  obtain ⟨earlier, last, heq, hiff⟩ := (requests_executed_iff hs).2.2 c hmem
  have hlast : last = [] := by
    have hgetLast := congrArg List.getLast? (heq.symm.trans hreceived)
    rw [List.getLast?_concat] at hgetLast
    exact Option.some_inj.mp hgetLast
  refine ⟨s, hs, c, hmem, by rw [hreceived]; exact List.append_nil _, hiff.mpr fun _ _ _ => ?_⟩
  rw [hlast]
  exact Nat.zero_le _

/-- The same bytes, and the bid is lost. -/
theorem requests_lost_at_end : ∃ s : Server 3, Server.run .debug 3 2 bidAndEnd = .ok s ∧
    ∃ c, (Closing.eof, c) ∈ s.closed ∧ c.received.flatten = bidFrame ∧ c.handled = [] ∧
      ¬Executed c.received.flatten c.handled := by
  obtain ⟨s, hs, hp⟩ := exists_ok (x := Server.run .debug 3 2 bidAndEnd)
    (p := fun s => s.closed.any fun x => x.1 = .eof ∧ x.2.received = [bidFrame] ∧ x.2.handled = [])
    (by decide +kernel)
  obtain ⟨⟨how, c⟩, hmem, hx⟩ := List.any_eq_true.mp hp
  obtain ⟨rfl, hreceived, hhandled⟩ := of_decide_eq_true hx
  have hstream : c.received.flatten = bidFrame := by
    rw [hreceived]
    exact List.append_nil _
  refine ⟨s, hs, c, hmem, hstream, hhandled, ?_⟩
  rintro ⟨-, -, hlongest⟩
  have hframe : IsFrame (newOrderLine idA .buy 100 5 idA) bidFrame :=
    isFrame_iff.mpr ⟨by decide +kernel, rfl⟩
  have hprefix := hlongest [newOrderLine idA .buy 100 5 idA] []
    ⟨[bidFrame], .cons hframe .nil, by rw [hstream]; rfl⟩
  rw [hhandled] at hprefix
  cases List.prefix_nil.mp hprefix

end MarketMakerOps.Exchange
