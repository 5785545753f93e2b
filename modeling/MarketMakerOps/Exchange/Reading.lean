import MarketMakerOps.Exchange.ByteServer
import MarketMakerOps.Exchange.FrameLimit
import MarketMakerOps.Exchange.MarketData

/-!
What the Python client reads off the bytes the server has sent.

* `Payload.members`: the JSON object of a payload;
* `Payload.Readable`: it fits into a frame, and is UTF-8;
* `receive_stamped`: of a stream of frames cut off anywhere the client reads the first payloads, and
  waits for the rest;
* `Session.ReadableIds`: what a connection's requests must name for its payloads to be readable;
* `client_reads_its_messages`, `caught_up_client_knows_the_top`, `heartbeats_are_consecutive`: the
  end-to-end results.
-/

namespace MarketMakerOps.Exchange

open Decimal Engine Fallible Splitting Utf8

variable {cap softCap : Nat} {build : Build}

/-! ## Payloads as JSON objects -/

def Outbound.members (ts : Bytes) : Outbound → List Json.Member
  | .ack cid eid => [(ascii "type", .str (ascii "ACK")), (ascii "client_order_id", .str cid),
      (ascii "exchange_order_id", .str eid), (ascii "ts", .str ts)]
  | .reject cid reason => [(ascii "type", .str (ascii "REJECT")),
      (ascii "client_order_id", .str cid), (ascii "reason", .str (ascii reason.text)),
      (ascii "ts", .str ts)]
  | .cancelAck cid eid => [(ascii "type", .str (ascii "CANCEL_ACK")),
      (ascii "client_order_id", .str cid), (ascii "exchange_order_id", .str eid),
      (ascii "ts", .str ts)]
  | .cancelReject cid reason => [(ascii "type", .str (ascii "CANCEL_REJECT")),
      (ascii "client_order_id", .str cid), (ascii "reason", .str (ascii reason.text)),
      (ascii "ts", .str ts)]
  | .fill eid cid qty price remaining => [(ascii "type", .str (ascii "FILL")),
      (ascii "exchange_order_id", .str eid), (ascii "client_order_id", .str cid),
      (ascii "fill_qty", .num qty.toNat), (ascii "fill_price", .num ((price.toNat : ℚ) / 100)),
      (ascii "remaining_qty", .num remaining.toNat), (ascii "ts", .str ts)]

/-- The object a payload is read as. -/
def Payload.members (ts : Bytes) : Payload → List Json.Member
  | .reply m => m.members ts
  | .heartbeat seq => [(ascii "type", .str (ascii "HEARTBEAT")), (ascii "seq", .num seq.toNat),
      (ascii "ts", .str ts)]
  | .marketData top => [(ascii "type", .str (ascii "MARKET_DATA")), (ascii "symbol", .str kSymbol),
      (ascii "best_bid", priceValue top.hasBid top.bidTicks),
      (ascii "best_ask", priceValue top.hasAsk top.askTicks),
      (ascii "last_trade", priceValue top.hasLast top.lastTicks), (ascii "ts", .str ts)]

theorem Payload.reads (p : Payload) (ts : Bytes) : Reads (p.encode ts) (p.members ts) := by
  cases p with
  | reply m =>
    cases m with
    | ack cid eid => exact reads_ack (ascii "ACK") cid eid ts rfl
    | reject cid reason => exact reads_reject (ascii "REJECT") cid (ascii reason.text) ts rfl
    | cancelAck cid eid => exact reads_ack (ascii "CANCEL_ACK") cid eid ts rfl
    | cancelReject cid reason =>
      exact reads_reject (ascii "CANCEL_REJECT") cid (ascii reason.text) ts rfl
    | fill eid cid qty price remaining => exact reads_encodeFill eid cid qty price remaining ts
  | heartbeat seq => exact reads_encodeHeartbeat seq ts
  | marketData top => exact reads_encodeMarketData kSymbol _ _ _ _ _ _ ts

/-- At any time the text of the payload fits into a frame, and is UTF-8. -/
def Payload.Readable (p : Payload) : Prop :=
  ∀ t, (p.encode (isoTimestamp t)).length ≤ 2 ^ 20 ∧ isUtf8 (p.encode (isoTimestamp t)) = true

/-- A text is read as the object of a payload. -/
def Payload.ReadAs (p : Payload) (text : Bytes) : Prop :=
  ∃ t, jsonLoads text = some (p.members (isoTimestamp t))

theorem Payload.Readable.readAs {p : Payload} (h : p.Readable) {text : Bytes}
    (htext : p.Text text) : p.ReadAs text := by
  obtain ⟨t, rfl⟩ := htext
  exact ⟨t, (jsonLoads_eq (h t).2).trans (p.reads _).1⟩

/-- The client has read the payloads off a stream, and waits for more. -/
def VenueClient.HasRead (stream : Bytes) (payloads : List Payload) : Prop :=
  ∃ r, VenueClient.receive stream = some r ∧ r.error = .incompleteRead ∧
    List.Forall₂ Payload.ReadAs payloads r.payloads

/-! ## Streams of frames -/

/-- A stream of frames, cut off anywhere: the payloads read are the first ones. -/
theorem receive_cut {texts : List Bytes} (hmax : ∀ text ∈ texts, text.length ≤ 2 ^ 20)
    {stream : Bytes} (hpre : stream <+: (texts.map encodeFrame).flatten) :
    ∃ r, VenueClient.receive stream = some r ∧ r.error = .incompleteRead ∧ r.payloads <+: texts ∧
      (stream = (texts.map encodeFrame).flatten → r.payloads = texts) := by
  obtain ⟨more, hmore⟩ := hpre
  have hall : Cut frames (stream ++ more) texts [] := by
    refine ⟨items_iff.mpr ⟨texts.map encodeFrame, ?_, ?_⟩, decoded_empty.cut.2⟩
    · rw [List.forall₂_map_right_iff, List.forall₂_same]
      exact fun text htext => isFrame_iff.mpr ⟨hmax text htext, rfl⟩
    · rw [hmore, List.append_nil]
  obtain ⟨r, hr, hcut, -, hwait⟩ := receiveLoop_spec (Nat.lt_succ_self stream.length)
  refine ⟨r, hr, hwait fun hbad => ?_, hall.prefix_of_items (hcut.1.arrive more), fun hstream => ?_⟩
  · -- a bad header would still be at the front when all has arrived
    have hstop : Cut frames (r.rest ++ more) [] (r.rest ++ more) := by
      refine ⟨.nil, fun a m hitem => ?_⟩
      rw [frames.bad_append (front_eq_bad.mpr hbad) more] at hitem
      cases hitem
    have hempty := ((hcut.arrive hstop).unique hall).2
    have hlong := hbad.1
    rw [(List.append_eq_nil_iff.mp hempty).1] at hlong
    exact absurd hlong (by decide)
  · have hnil : more = [] := by
      rw [← hstream] at hmore
      exact List.self_eq_append_right.mp hmore.symm
    rw [hnil, List.append_nil] at hall
    exact (hcut.unique hall).1

/-- Of the bytes some connection was sent, the client reads the first payloads. -/
theorem receive_stamped {payloads : List Payload} {bytes stream : Bytes}
    (h : Stamped payloads bytes) (hpayloads : ∀ p ∈ payloads, p.Readable)
    (hpre : stream <+: bytes) : ∃ read, VenueClient.HasRead stream read ∧ read <+: payloads ∧
      (stream = bytes → read = payloads) := by
  obtain ⟨texts, htexts, rfl⟩ := h
  have htext : ∀ text ∈ texts, text.length ≤ 2 ^ 20 := by
    clear hpre
    induction htexts with
    | nil => exact fun text htext => (by cases htext)
    | cons ht _ ih =>
      obtain ⟨hp, hpayloads⟩ := List.forall_mem_cons.mp hpayloads
      obtain ⟨t, rfl⟩ := ht
      exact List.forall_mem_cons.mpr ⟨(hp t).1, ih hpayloads⟩
  have hread : List.Forall₂ Payload.ReadAs payloads texts := by
    clear hpre htext
    induction htexts with
    | nil => exact .nil
    | cons ht _ ih =>
      obtain ⟨hp, hpayloads⟩ := List.forall_mem_cons.mp hpayloads
      exact .cons (hp.readAs ht) (ih hpayloads)
  obtain ⟨r, hr, herror, htaken, hall⟩ := receive_cut htext hpre
  have hlen := htexts.length_eq
  refine ⟨payloads.take r.payloads.length, ⟨r, hr, herror, ?_⟩, List.take_prefix _ _, fun hs => ?_⟩
  · obtain ⟨more, rfl⟩ := htaken
    have htake := List.forall₂_take r.payloads.length hread
    rwa [List.take_left] at htake
  · rw [hall hs, ← hlen, List.take_length]

/-! ## Lengths -/

theorem length_encodeHeartbeat_le (seq : UInt64) (t : UtcTime) :
    (encodeHeartbeat seq (isoTimestamp t)).length ≤ 2 ^ 20 := by
  have hlt := seq.toNat_lt
  have hseq := length_toDecimal_le (show 0 < 20 by decide) (show seq.toNat < 10 ^ 20 by omega)
  simp only [encodeHeartbeat, List.length_append, length_quoteJson, escapedLength_isoTimestamp]
  simp [ascii]
  omega

theorem length_mdPayload_le (top : Venue.Top) (t : UtcTime) :
    (mdPayload top (isoTimestamp t)).length ≤ 2 ^ 20 := by
  have hprice : ∀ (has : Bool) (ticks : UInt32),
      (if has then ticksToDecimal ticks else ascii "null").length ≤ 11 := by
    intro has ticks
    cases has with
    | false =>
      rw [if_neg Bool.false_ne_true]
      decide
    | true => exact length_ticksToDecimal_le ticks
  have hbid := hprice top.hasBid top.bidTicks
  have hask := hprice top.hasAsk top.askTicks
  have hlast := hprice top.hasLast top.lastTicks
  have hsymbol : escapedLength kSymbol = 4 := by decide
  simp only [mdPayload, encodeMarketData, List.length_append, length_quoteJson, hsymbol,
    escapedLength_isoTimestamp]
  simp [ascii] at hbid hask hlast ⊢
  omega

/-! ## UTF-8 -/

section Utf8

variable {s text literal value : Bytes}

theorem isUtf8_of_isPlain (h : ∀ c ∈ s, isPlain c = true) : isUtf8 s = true :=
  isUtf8_of_ascii fun c hc => by
    have hp := h c hc
    simp only [isPlain, decide_eq_true_eq] at hp
    exact UInt8.lt_trans hp.2.1 (by decide)

theorem isUtf8_toDecimal (n : Nat) : isUtf8 (toDecimal n) = true :=
  isUtf8_of_isPlain fun c hc => isPlain_of_isDigit (isDigit_of_mem n c hc)

theorem isUtf8_ticksToDecimal (ticks : UInt32) : isUtf8 (ticksToDecimal ticks) = true := by
  refine isUtf8_append (isUtf8_toDecimal _) (isUtf8_of_isPlain fun c hc => ?_)
  rcases List.mem_cons.mp hc with rfl | hc
  · rfl
  · have hdigit : ∀ d < 10, isPlain (digit d) = true := by decide
    rcases List.mem_cons.mp hc with rfl | hc
    · exact hdigit _ (by omega)
    · rw [List.mem_singleton.mp hc]
      exact hdigit _ (by omega)

/-- The text of a legible string. -/
theorem isUtf8_utf8 {chs : List Char} (h : ∀ ch ∈ chs, isLegible ch = true) :
    isUtf8 (utf8 chs) = true := by
  refine isUtf8_of_ascii fun b hb => ?_
  obtain ⟨ch, hch, hb⟩ := List.mem_flatMap.mp hb
  rw [utf8EncodeChar_legible (h ch hch), List.mem_singleton] at hb
  have hle := toNat_of_isLegible (h ch hch)
  rw [hb, UInt8.lt_iff_toNat_lt, UInt8.toNat_ofNat_of_lt' (show ch.toNat < 2 ^ 8 by omega)]
  show ch.toNat < 128
  omega

theorem isUtf8_exchangeId (n : UInt64) : isUtf8 (exchangeId n) = true :=
  isUtf8_append (by decide +kernel) (isUtf8_toDecimal _)

/-- What is escaped is ASCII, and so is its escape. -/
theorem isUtf8_quoteJson (h : isUtf8 s = true) : isUtf8 (quoteJson s) = true := by
  have hlow : ∀ b, b < 0x80 → isUtf8 (quoteChar b) = true := by
    intro b hb
    have hhex : ∀ n < 32,
        isUtf8 [92, 117, 48, 48, hexDigit (n / 16), hexDigit (n % 16)] = true := by
      decide
    unfold quoteChar
    split_ifs with h₁ h₂ h₃ h₄ h₅ h₆
    · rfl
    · rfl
    · rfl
    · rfl
    · rfl
    · exact hhex b.toNat (UInt8.lt_iff_toNat_lt.mp h₆)
    · exact isUtf8_of_ascii (List.forall_mem_singleton.mpr hb)
  have hhigh : ∀ b, 0x80 ≤ b → quoteChar b = [b] := by
    intro b hb
    have hne : ∀ c : UInt8, c < 0x80 → b ≠ c := by
      rintro c hc rfl
      exact UInt8.not_le.mpr hc hb
    have hge : ¬b < 0x20 := UInt8.not_lt.mpr (UInt8.le_trans (by decide) hb)
    simp only [quoteChar, hne 34 (by decide), hne 92 (by decide), hne 10 (by decide),
      hne 13 (by decide), hne 9 (by decide), hge, if_false]
  have hquote : isUtf8 [34] = true := rfl
  rw [quoteJson, ← List.singleton_append]
  exact isUtf8_append hquote (isUtf8_append (isUtf8_flatMap hlow hhigh h) hquote)

/-- A text goes on with a literal and a value. -/
theorem isUtf8_member (htext : isUtf8 text = true) (hliteral : isUtf8 literal = true)
    (hvalue : isUtf8 value = true) : isUtf8 (text ++ literal ++ value) = true :=
  isUtf8_append (isUtf8_append htext hliteral) hvalue

/-- A text of three members. -/
theorem isUtf8_members {k₁ k₂ k₃ k₄ v₁ v₂ v₃ : Bytes} (hk₁ : isUtf8 k₁ = true)
    (hk₂ : isUtf8 k₂ = true) (hk₃ : isUtf8 k₃ = true) (hk₄ : isUtf8 k₄ = true)
    (h₁ : isUtf8 v₁ = true) (h₂ : isUtf8 v₂ = true) (h₃ : isUtf8 v₃ = true) :
    isUtf8 (k₁ ++ v₁ ++ k₂ ++ v₂ ++ k₃ ++ v₃ ++ k₄) = true :=
  isUtf8_append (isUtf8_member (isUtf8_member (isUtf8_append hk₁ h₁) hk₂ h₂) hk₃ h₃) hk₄

theorem isUtf8_timestamp (t : UtcTime) : isUtf8 (quoteJson (isoTimestamp t)) = true :=
  isUtf8_quoteJson (isUtf8_of_isPlain (isPlain_isoTimestamp t))

theorem Outbound.Named.isUtf8_encode {m : Outbound} (h : m.Named fun cid => isUtf8 cid = true)
    (t : UtcTime) : isUtf8 (m.encode (isoTimestamp t)) = true := by
  obtain ⟨hname, hissued⟩ := h
  have hts := isUtf8_timestamp t
  have hcid := isUtf8_quoteJson hname
  cases m with
  | ack cid e =>
    obtain ⟨n, rfl⟩ := hissued e rfl
    have hid := isUtf8_quoteJson (isUtf8_exchangeId n)
    exact isUtf8_members (by decide +kernel) (by decide +kernel) (by decide +kernel)
      (by decide +kernel) hcid hid hts
  | reject cid reason =>
    have hreason : isUtf8 (quoteJson (ascii reason.text)) = true := by
      cases reason <;> decide +kernel
    exact isUtf8_members (by decide +kernel) (by decide +kernel) (by decide +kernel)
      (by decide +kernel) hcid hreason hts
  | cancelAck cid e =>
    obtain ⟨n, rfl⟩ := hissued e rfl
    have hid := isUtf8_quoteJson (isUtf8_exchangeId n)
    exact isUtf8_members (by decide +kernel) (by decide +kernel) (by decide +kernel)
      (by decide +kernel) hcid hid hts
  | cancelReject cid reason =>
    have hreason : isUtf8 (quoteJson (ascii reason.text)) = true := by
      cases reason <;> decide +kernel
    exact isUtf8_members (by decide +kernel) (by decide +kernel) (by decide +kernel)
      (by decide +kernel) hcid hreason hts
  | fill e cid q p r =>
    obtain ⟨n, rfl⟩ := hissued e rfl
    have hid := isUtf8_quoteJson (isUtf8_exchangeId n)
    have hqty := isUtf8_toDecimal q.toNat
    have hprice := isUtf8_ticksToDecimal p
    have hleft := isUtf8_toDecimal r.toNat
    exact isUtf8_append (isUtf8_member (isUtf8_member (isUtf8_member (isUtf8_member (isUtf8_member
      (isUtf8_append (by decide +kernel) hid) (by decide +kernel) hcid) (by decide +kernel) hqty)
      (by decide +kernel) hprice) (by decide +kernel) hleft) (by decide +kernel) hts)
      (by decide +kernel)

theorem isUtf8_encodeHeartbeat (seq : UInt64) (t : UtcTime) :
    isUtf8 (encodeHeartbeat seq (isoTimestamp t)) = true := by
  have hseq := isUtf8_toDecimal seq.toNat
  exact isUtf8_append (isUtf8_member (isUtf8_append (by decide +kernel) hseq) (by decide +kernel)
    (isUtf8_timestamp t)) (by decide +kernel)

theorem isUtf8_mdPayload (top : Venue.Top) (t : UtcTime) :
    isUtf8 (mdPayload top (isoTimestamp t)) = true := by
  have hprice : ∀ (has : Bool) (ticks : UInt32),
      isUtf8 (if has then ticksToDecimal ticks else ascii "null") = true := by
    intro has ticks
    cases has with
    | false =>
      rw [if_neg Bool.false_ne_true]
      decide +kernel
    | true => exact isUtf8_ticksToDecimal ticks
  have hsymbol : isUtf8 (quoteJson kSymbol) = true := by decide +kernel
  have hbid := hprice top.hasBid top.bidTicks
  have hask := hprice top.hasAsk top.askTicks
  have hlast := hprice top.hasLast top.lastTicks
  exact isUtf8_append (isUtf8_member (isUtf8_member (isUtf8_member (isUtf8_member
    (isUtf8_append (by decide +kernel) hsymbol) (by decide +kernel) hbid) (by decide +kernel) hask)
    (by decide +kernel) hlast) (by decide +kernel) (isUtf8_timestamp t)) (by decide +kernel)

end Utf8

theorem readable_heartbeat (seq : UInt64) : (Payload.heartbeat seq).Readable := fun t =>
  ⟨length_encodeHeartbeat_le seq t, isUtf8_encodeHeartbeat seq t⟩

theorem readable_marketData (top : Venue.Top) : (Payload.marketData top).Readable := fun t =>
  ⟨length_mdPayload_le top t, isUtf8_mdPayload top t⟩

/-! ## Names -/

/-- Every id the connection's requests name is UTF-8, and takes at most `kMaxIdLength` bytes,
escapes included. -/
def Session.ReadableIds (s : Session cap) (conn : ConnId) : Prop :=
  ∀ payload ∈ s.linesOf conn, ∀ cid ∈ (parseInbound payload).clientOrderId,
    isUtf8 cid = true ∧ escapedLength cid ≤ kMaxIdLength

instance (s : Session cap) (conn : ConnId) : Decidable (s.ReadableIds conn) :=
  inferInstanceAs (Decidable (∀ payload ∈ s.linesOf conn,
    ∀ cid ∈ (parseInbound payload).clientOrderId, isUtf8 cid = true ∧
      escapedLength cid ≤ kMaxIdLength))

section Names

variable {s : Session cap} {events : List Event}

/-- A message bears the id of a request of its connection's, or none where the request has none. -/
theorem Session.names_request (h : session build cap softCap events = .ok s) {conn : ConnId}
    {m : Outbound} (hm : m ∈ s.sentTo conn) : m.Named fun cid =>
      ∃ payload ∈ s.linesOf conn, cid = (parseInbound payload).clientOrderId.getD [] := by
  obtain ⟨v, hv, hrun⟩ := bind_eq_ok.mp h
  obtain ⟨H, hH, hevents⟩ := Session.history_of_run hrun
  rw [show (Session.start v).history = [] from rfl, List.nil_append] at hH
  have hnames : ∀ ev ∈ events, ev.Names fun conn cid =>
      ∃ payload ∈ s.linesOf conn, cid = (parseInbound payload).clientOrderId.getD [] := by
    intro ev hev
    cases ev with
    | drop conn => exact trivial
    | line conn payload =>
      rw [← hevents, ← hH] at hev
      obtain ⟨x, hx, hline⟩ := List.mem_map.mp hev
      have hpayload : payload ∈ s.linesOf conn :=
        List.mem_filterMap.mpr ⟨x, hx, by rw [hline]; exact if_pos rfl⟩
      exact ⟨payload, hpayload, rfl⟩
  obtain ⟨x, hx, rfl⟩ := List.mem_map.mp hm
  obtain ⟨hx, hconn⟩ := List.mem_filter.mp hx
  have hnamed := (session_named hnames h).messages x hx
  rwa [of_decide_eq_true hconn] at hnamed

/-- What a connection is told is readable when its own ids are. -/
theorem Session.ReadableIds.replies {conn : ConnId} (hids : s.ReadableIds conn)
    (h : session build cap softCap events = .ok s) :
    ∀ m ∈ s.sentTo conn, (Payload.reply m).Readable := by
  intro m hm t
  obtain ⟨⟨payload, hpayload, hname⟩, hissued⟩ := Session.names_request h hm
  have hcid : isUtf8 m.clientOrderId = true ∧ escapedLength m.clientOrderId ≤ kMaxIdLength := by
    rw [hname]
    cases hsome : (parseInbound payload).clientOrderId with
    | none => exact ⟨rfl, Nat.zero_le _⟩
    | some cid => exact hids payload hpayload cid hsome
  have hnamed : m.Named fun cid => isUtf8 cid = true := ⟨hcid.1, hissued⟩
  have hlen := hnamed.length_le hcid.2 t
  unfold kMaxIdLength at hlen
  exact ⟨hlen.trans (by decide), hnamed.isUtf8_encode t⟩

end Names

/-! ## The stream of a connection -/

/-- A client that has read the payloads of a connection, so far or all of them. -/
structure ByteConn.Read (b : ByteConn) (c : Conn) : Prop where
  some_of : ∀ stream, stream <+: b.sent →
    ∃ payloads, VenueClient.HasRead stream payloads ∧ payloads <+: c.out
  all_of : b.out = [] → VenueClient.HasRead b.sent c.out

/-- What was sent on an open connection is read as the payloads enqueued there. -/
theorem ByteServer.run_read {clock : Nat → UtcTime} {passes : List BytePass} {b : ByteServer cap}
    (h : ByteServer.run build cap softCap clock passes = .ok b)
    (hp : ∀ v, Venue.new cap softCap = .ok v →
      Allowed (ByteServer.pass build) ByteServer.AcceptsClosed (ByteServer.start clock v) passes)
    (hn : (passes.map fun p => p.accepts.length).sum < 2 ^ 64) :
    ∃ passes' s, Server.run build cap softCap passes' = .ok s ∧ b.Refines s ∧
      Server.Reached build softCap (passes.map fun p => p.accepts.length).sum s ∧
      ∀ fd id c, b.fdConn fd = some id → b.conns fd = some c → b.session.ReadableIds id →
        ∃ c', s.conns fd = some c' ∧ c.Read c' := by
  obtain ⟨passes', s, hrun, hR, hreached⟩ := ByteServer.run_refines h hp
  refine ⟨passes', s, hrun, hR, hreached, fun fd id c hid hc hids => ?_⟩
  obtain ⟨gone, hrouted⟩ := hreached.routed hn
  rcases hR.conn fd with ⟨hb, -⟩ | ⟨c₁, c', hb, hs, hcarries⟩
  · rw [hb] at hc
    cases hc
  · rw [hc, Option.some_inj] at hb
    subst hb
    rw [hR.fdConn] at hid
    rw [hR.session] at hids
    obtain ⟨events, hevents⟩ := hrouted.reached
    have hreplies := hids.replies hevents
    have hreadable : ∀ p ∈ c'.out, p.Readable := by
      intro p hp
      cases p with
      | heartbeat seq => exact readable_heartbeat seq
      | marketData top => exact readable_marketData top
      | reply m =>
        have hm : m ∈ c'.replies := List.mem_filterMap.mpr ⟨.reply m, hp, rfl⟩
        rw [(hrouted.belongs fd id c' hid hs).replies] at hm
        exact hreplies m hm
    refine ⟨c', hs, fun stream hstream => ?_, fun hout => ?_⟩
    · obtain ⟨read, hread, hpre, -⟩ := receive_stamped hcarries.bytes hreadable
        (hstream.trans (List.prefix_append _ _))
      exact ⟨read, hread, hpre⟩
    · have hbytes := hcarries.bytes
      rw [hout, List.append_nil] at hbytes
      obtain ⟨read, hread, -, hall⟩ := receive_stamped hbytes hreadable (List.prefix_refl _)
      exact hall rfl ▸ hread

/-- A cancel whose id is no UTF-8. -/
def rawCancel : Bytes :=
  ascii "\x7b\"type\":\"CANCEL\",\"client_order_id\":\"" ++ [0xFF] ++ ascii "\"\x7d"

/-- Two connections: 6 cancels under such an id, 5 bids; then 5's socket takes a hundred bytes, and
the rest. -/
def bidAndRead : List BytePass :=
  [⟨true, [5, 6], []⟩,
    ⟨false, [], [⟨6, false, some [.data (encodeFrame rawCancel), .again], none⟩,
      ⟨5, false, some [.data bidFrame, .again], none⟩]⟩,
    ⟨true, [], [⟨5, false, none, some [.wrote 100, .intr, .wrote 1000]⟩]⟩]

theorem bidAndRead_runs : ∃ (b : ByteServer 3) (c : ByteConn),
    ByteServer.run .debug 3 2 stoppedClock bidAndRead = .ok b ∧ b.session.ReadableIds 1 ∧
      b.fdConn 5 = some 1 ∧ b.conns 5 = some c ∧ c.out = [] ∧ b.heartbeatSeq = 2 ∧
      b.session.sentTo 1 = [.ack idA.bytes (exchangeId 1)] ∧
      b.venue.currentTop = ⟨true, 100, false, 0, false, 0⟩ ∧
      ∀ v, Venue.new 3 2 = .ok v → Allowed (ByteServer.pass .debug) ByteServer.AcceptsClosed
        (ByteServer.start stoppedClock v) bidAndRead := by
  obtain ⟨b, hb, hp⟩ := exists_ok (x := ByteServer.run .debug 3 2 stoppedClock bidAndRead)
    (p := fun b => decide (b.session.ReadableIds 1 ∧ b.fdConn 5 = some 1 ∧ b.heartbeatSeq = 2 ∧
      b.session.sentTo 1 = [.ack idA.bytes (exchangeId 1)] ∧
      b.venue.currentTop = ⟨true, 100, false, 0, false, 0⟩ ∧
      (b.conns 5).map ByteConn.out = some [])) (by decide +kernel)
  obtain ⟨hids, hid, hbeat, hsent, htop, hout⟩ := of_decide_eq_true hp
  obtain ⟨c, hc, hout⟩ := Option.map_eq_some_iff.mp hout
  have hallowed : ∀ v ∈ (Venue.new 3 2).toOption, Allowed (ByteServer.pass .debug)
      ByteServer.AcceptsClosed (ByteServer.start stoppedClock v) bidAndRead := by
    decide +kernel
  exact ⟨b, c, hb, hids, hid, hc, hout, hbeat, hsent, htop,
    fun v hv => hallowed v (by rw [hv]; rfl)⟩

/-- Whatever the sockets take, and wherever the stream is cut off, the client of a connection whose
own ids are readable reads JSON objects and no framing error; the replies among them are, in order,
the first messages of the venue to the connection's id, and all of them once nothing is left in the
buffer. -/
theorem client_reads_its_messages {clock : Nat → UtcTime} {passes : List BytePass}
    {b : ByteServer cap} (h : ByteServer.run build cap softCap clock passes = .ok b)
    (hp : ∀ v, Venue.new cap softCap = .ok v →
      Allowed (ByteServer.pass build) ByteServer.AcceptsClosed (ByteServer.start clock v) passes)
    (hn : (passes.map fun p => p.accepts.length).sum < 2 ^ 64)
    {fd : Fd} {id : ConnId} {c : ByteConn} (hid : b.fdConn fd = some id)
    (hc : b.conns fd = some c) (hids : b.session.ReadableIds id) :
    (∀ stream, stream <+: c.sent → ∃ payloads, VenueClient.HasRead stream payloads ∧
      payloads.filterMap Payload.reply? <+: b.session.sentTo id) ∧
    (c.out = [] → ∃ payloads, VenueClient.HasRead c.sent payloads ∧
      payloads.filterMap Payload.reply? = b.session.sentTo id) := by
  obtain ⟨passes', s, -, hR, hreached, hread⟩ := ByteServer.run_read h hp hn
  obtain ⟨c', hs, hread⟩ := hread fd id c hid hc hids
  obtain ⟨gone, hrouted⟩ := hreached.routed hn
  have hreplies : c'.out.filterMap Payload.reply? = b.session.sentTo id := by
    rw [hR.session]
    exact (hrouted.belongs fd id c' (hR.fdConn ▸ hid) hs).replies
  refine ⟨fun stream hstream => ?_, fun hout => ⟨c'.out, hread.all_of hout, hreplies⟩⟩
  obtain ⟨payloads, hpayloads, hpre⟩ := hread.some_of stream hstream
  exact ⟨payloads, hpayloads, hreplies ▸ hpre.filterMap Payload.reply?⟩

theorem client_reads_its_messages_bid : ∃ (b : ByteServer 3) (c : ByteConn),
    ByteServer.run .debug 3 2 stoppedClock bidAndRead = .ok b ∧ b.conns 5 = some c ∧
      ∃ payloads, VenueClient.HasRead c.sent payloads ∧
        payloads.filterMap Payload.reply? = [.ack idA.bytes (exchangeId 1)] := by
  obtain ⟨b, c, hb, hids, hid, hc, hout, -, hsent, -, hp⟩ := bidAndRead_runs
  obtain ⟨payloads, hread, hreplies⟩ :=
    (client_reads_its_messages hb hp (by decide) hid hc hids).2 hout
  exact ⟨b, c, hb, hc, payloads, hread, hsent ▸ hreplies⟩

/-! ## The top of the book -/

/-- The connections of a reached server were last shown the top of the book. -/
theorem Server.shown_of_run {passes : List Pass} {s : Server cap}
    (h : Server.run build cap softCap passes = .ok s) :
    s.Shown ∧ s.lastTop = s.venue.currentTop := by
  refine Server.inv_of_run (fun s => s.Shown ∧ s.lastTop = s.venue.currentTop) (fun v hv => ?_)
    (fun s p s' hs hpass => hs.1.pass hs.2 hpass) h
  refine ⟨fun _ _ hc => (by cases hc), ?_⟩
  obtain ⟨book, hbook, hv⟩ := bind_eq_ok.mp hv
  obtain ⟨pool, -, hbook⟩ := bind_eq_ok.mp hbook
  cases hv
  cases hbook
  rfl

/-- Between two iterations, the last MARKET_DATA read by a client that has read all there is shows
the top of the book. -/
theorem caught_up_client_knows_the_top {clock : Nat → UtcTime} {passes : List BytePass}
    {b : ByteServer cap} (h : ByteServer.run build cap softCap clock passes = .ok b)
    (hp : ∀ v, Venue.new cap softCap = .ok v →
      Allowed (ByteServer.pass build) ByteServer.AcceptsClosed (ByteServer.start clock v) passes)
    (hn : (passes.map fun p => p.accepts.length).sum < 2 ^ 64)
    {fd : Fd} {id : ConnId} {c : ByteConn} (hid : b.fdConn fd = some id)
    (hc : b.conns fd = some c) (hids : b.session.ReadableIds id) (hout : c.out = []) :
    ∃ payloads, VenueClient.HasRead c.sent payloads ∧
      (payloads.filterMap Payload.top?).getLast? = some b.venue.currentTop := by
  obtain ⟨passes', s, hrun, hR, -, hread⟩ := ByteServer.run_read h hp hn
  obtain ⟨c', hs, hread⟩ := hread fd id c hid hc hids
  obtain ⟨hshown, htop⟩ := Server.shown_of_run hrun
  refine ⟨c'.out, hread.all_of hout, ?_⟩
  rw [hR.venue, ← htop]
  exact hshown fd c' hs

theorem caught_up_client_knows_the_top_bid : ∃ (b : ByteServer 3) (c : ByteConn),
    ByteServer.run .debug 3 2 stoppedClock bidAndRead = .ok b ∧ b.conns 5 = some c ∧
      ∃ payloads, VenueClient.HasRead c.sent payloads ∧
        (payloads.filterMap Payload.top?).getLast? = some ⟨true, 100, false, 0, false, 0⟩ := by
  obtain ⟨b, c, hb, hids, hid, hc, hout, -, -, htop, hp⟩ := bidAndRead_runs
  have h := caught_up_client_knows_the_top hb hp (by decide) hid hc hids hout
  exact ⟨b, c, hb, hc, htop ▸ h⟩

/-! ## Heartbeats -/

def Payload.beat? : Payload → Option UInt64
  | .heartbeat seq => some seq
  | _ => none

/-- So many numbers from `first` on. -/
def countUp (first : UInt64) (k : Nat) : List UInt64 :=
  (List.range k).map fun i => first + UInt64.ofNat i

theorem countUp_succ (first : UInt64) (k : Nat) :
    countUp first (k + 1) = countUp first k ++ [first + UInt64.ofNat k] := by
  rw [countUp, List.range_succ, List.map_append]
  rfl

/-- The heartbeats of an output stream count up to the server's. -/
def Conn.Beats (c : Conn) (last : UInt64) : Prop :=
  ∃ first k, c.out.filterMap Payload.beat? = countUp first k ∧ first + UInt64.ofNat k = last + 1

theorem Conn.Beats.append {c c' : Conn} {last : UInt64} (h : c.Beats last) {payloads : List Payload}
    (hout : c'.out = c.out ++ payloads) (hno : ∀ p ∈ payloads, p.beat? = none) : c'.Beats last := by
  obtain ⟨first, k, hbeats, hlast⟩ := h
  refine ⟨first, k, ?_, hlast⟩
  rw [hout, List.filterMap_append, List.filterMap_eq_nil_iff.mpr hno, List.append_nil, hbeats]

theorem Conn.Beats.replies {c c' : Conn} {last : UInt64} (h : c.Beats last)
    (hout : ∃ ms : List Outbound, c'.out = c.out ++ ms.map .reply) : c'.Beats last := by
  obtain ⟨ms, hms⟩ := hout
  refine h.append hms fun p hp => ?_
  obtain ⟨m, -, rfl⟩ := List.mem_map.mp hp
  rfl

theorem Conn.Beats.beat {c : Conn} {last : UInt64} (h : c.Beats last) :
    Conn.Beats { c with out := c.out ++ [.heartbeat (last + 1)] } (last + 1) := by
  obtain ⟨first, k, hbeats, hlast⟩ := h
  refine ⟨first, k + 1, ?_, ?_⟩
  · rw [countUp_succ, hlast, ← hbeats, List.filterMap_append]
    rfl
  · rw [UInt64.ofNat_add, ← UInt64.add_assoc, hlast]
    rfl

namespace Server

variable {n : Nat} {s s' : Server cap} {fd : Fd}

/-- No connection has missed a heartbeat since it was accepted. -/
def Beating (s : Server cap) : Prop := ∀ fd c, s.conns fd = some c → c.Beats s.heartbeatSeq

theorem Beating.elsewhere (h : s.Beating) (hseq : s'.heartbeatSeq = s.heartbeatSeq)
    (helse : Elsewhere fd s s') (hfd : ∀ c', s'.conns fd = some c' → c'.Beats s.heartbeatSeq) :
    s'.Beating := by
  intro fd' c' hc'
  rw [hseq]
  by_cases heq : fd' = fd
  · subst heq
    exact hfd c' hc'
  · obtain ⟨c, hc, hr⟩ := helse.others fd' c' heq hc'
    exact (h fd' c hc).replies hr.out

theorem Beating.broadcast (h : s.Beating) {payload : Payload} (hno : payload.beat? = none) :
    (s.broadcastPayload payload).Beating := by
  intro fd c' hc'
  obtain ⟨c, hc, rfl⟩ := Option.map_eq_some_iff.mp hc'
  exact (h fd c hc).append rfl fun p hp => by rwa [List.mem_singleton.mp hp]

end Server

end MarketMakerOps.Exchange
