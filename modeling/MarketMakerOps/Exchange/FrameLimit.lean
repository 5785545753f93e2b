import MarketMakerOps.Exchange.Capacity
import MarketMakerOps.Exchange.Client
import MarketMakerOps.Exchange.ClientRequests

/-!
Frames the venue emits, against the limit its peers put on a payload.

* `Deliverable`: a payload the frame decoder and the Python client both accept;
* `Outbound.Named`, `Tables.Named`: client order ids are of a kind, exchange ids are ones;
* `session_named`: a connection's messages name what its own requests do;
* `frames_deliverable_iff`: all frames are deliverable for ids of up to
  `kMaxIdLength` bytes, and for no larger bound.
-/

namespace MarketMakerOps.Exchange

open Decimal Engine Fallible

variable {cap softCap : Nat} {build : Build}

/-! ## Frames at both ends -/

/-- Within the limit, and read back from its frame on both sides of the wire. -/
structure Deliverable (payload : Bytes) : Prop where
  within : payload.length ≤ kMaxPayloadBytes.toNat
  decoded : ∀ rest, FrameDecoder.next ⟨encodeFrame payload ++ rest, false⟩ =
    (some payload, ⟨rest, false⟩)
  read : ∀ rest, VenueClient.readFrame (encodeFrame payload ++ rest) = .ok (payload, rest)

/-- The length is all that matters. -/
theorem deliverable_iff {payload : Bytes} :
    Deliverable payload ↔ payload.length ≤ kMaxPayloadBytes.toNat := by
  constructor
  · exact fun h => h.within
  · intro h
    have hmax : payload.length ≤ 2 ^ 20 := h
    have hfront : ∀ rest, front (encodeFrame payload ++ rest) = .item payload rest := fun rest =>
      front_eq_item.mpr ⟨encodeFrame payload, isFrame_iff.mpr ⟨hmax, rfl⟩, rfl⟩
    refine ⟨h, fun rest => ?_, fun rest => ?_⟩
    · rw [next_eq]
      simp only [Bool.false_eq_true, if_false, hfront rest]
    · have hread := readFrame_front (encodeFrame payload ++ rest)
      rw [hfront rest] at hread
      exact hread

/-! ## Lengths -/

/-- The bytes of a string between its quotes, escapes included. -/
def escapedLength (s : Bytes) : Nat := (s.flatMap quoteChar).length

theorem length_quoteJson (s : Bytes) : (quoteJson s).length = escapedLength s + 2 := by
  simp [quoteJson, escapedLength]

/-- Nothing to escape. -/
theorem escapedLength_of_plain {s : Bytes} (h : ∀ c ∈ s, isPlain c = true) :
    escapedLength s = s.length := by
  have hone : ∀ c ∈ s, quoteChar c = [c] := by
    intro c hc
    have hp := h c hc
    simp only [isPlain, decide_eq_true_eq] at hp
    have hge := UInt8.le_iff_toNat_le.mp hp.1
    have h32 : (32 : UInt8).toNat = 32 := rfl
    have hne : ∀ d : UInt8, d.toNat < 32 → c ≠ d := by
      rintro d hd rfl
      omega
    have hlt : ¬c < 0x20 := by
      rw [UInt8.lt_iff_toNat_lt]
      exact Nat.not_lt.mpr hge
    simp only [quoteChar, hp.2.2.1, hp.2.2.2, hne 10 (by decide), hne 13 (by decide),
      hne 9 (by decide), hlt, if_false]
  rw [escapedLength, List.length_flatMap]
  have hsum : s.map (fun c => (quoteChar c).length) = s.map fun _ => 1 :=
    List.map_congr_left fun c hc => by rw [hone c hc]; rfl
  rw [hsum]
  simp

theorem length_toDecimal_le {n k : Nat} (hk : 0 < k) (h : n < 10 ^ k) :
    (toDecimal n).length ≤ k := by
  induction k generalizing n with
  | zero => omega
  | succ k ih =>
    by_cases hn : n < 10
    · rw [toDecimal_of_lt hn, List.length_singleton]
      omega
    · rw [toDecimal_of_le (by omega), List.length_append, List.length_singleton]
      have hk' : 0 < k := by
        rcases Nat.eq_zero_or_pos k with rfl | hk'
        · omega
        · exact hk'
      have hdiv : n / 10 < 10 ^ k := by
        rw [Nat.pow_succ] at h
        omega
      have := ih hk' hdiv
      omega

theorem escapedLength_exchangeId (n : UInt64) :
    escapedLength (exchangeId n) = 2 + (toDecimal n.toNat).length := by
  have hplain : ∀ c ∈ exchangeId n, isPlain c = true := by
    intro c hc
    rcases List.mem_append.mp hc with hc | hc
    · have hall : ∀ c ∈ ascii "e-", isPlain c = true := by decide +kernel
      exact hall c hc
    · exact isPlain_of_isDigit (isDigit_of_mem _ c hc)
  rw [escapedLength_of_plain hplain, exchangeId, List.length_append]
  rfl

theorem length_padded (k n : Nat) : (padded k n).length = k := by
  induction k generalizing n with
  | zero => rfl
  | succ k ih => rw [padded, List.length_append, ih, List.length_singleton]

/-- A timestamp takes 24 bytes. -/
theorem escapedLength_isoTimestamp (t : UtcTime) : escapedLength (isoTimestamp t) = 24 := by
  rw [escapedLength_of_plain (isPlain_isoTimestamp t)]
  simp only [isoTimestamp, List.length_append, length_padded, List.length_singleton]

theorem length_ticksToDecimal_le (p : UInt32) : (ticksToDecimal p).length ≤ 11 := by
  have hp := p.toNat_lt
  have hwhole : (toDecimal (p.toNat / 100)).length ≤ 8 :=
    length_toDecimal_le (by decide) (by omega)
  simp only [ticksToDecimal, List.length_append, List.length_cons, List.length_nil]
  omega

theorem length_toDecimal_uint32_le (q : UInt32) : (toDecimal q.toNat).length ≤ 10 := by
  have hq := q.toNat_lt
  exact length_toDecimal_le (by decide) (by omega)

theorem escapedLength_exchangeId_le (n : UInt64) : escapedLength (exchangeId n) ≤ 22 := by
  have hn := n.toNat_lt
  have := length_toDecimal_le (show 0 < 20 by decide) (show n.toNat < 10 ^ 20 by omega)
  rw [escapedLength_exchangeId]
  omega

theorem length_encodeFill (eid cid : Bytes) (q p r : UInt32) (t : UtcTime) :
    (encodeFill eid cid q p r (isoTimestamp t)).length =
      134 + escapedLength eid + escapedLength cid + (toDecimal q.toNat).length +
        (ticksToDecimal p).length + (toDecimal r.toNat).length := by
  simp only [encodeFill, List.length_append, length_quoteJson, escapedLength_isoTimestamp]
  simp [ascii]
  omega

theorem length_encodeCancelReject (cid : Bytes) (reason : CancelRejectReason) (t : UtcTime) :
    (Outbound.encode (isoTimestamp t) (.cancelReject cid reason)).length =
      89 + escapedLength cid + escapedLength (ascii reason.text) := by
  simp only [Outbound.encode, encodeCancelReject, List.length_append, length_quoteJson,
    escapedLength_isoTimestamp]
  simp [ascii]
  omega

/-! ## Messages -/

def Outbound.clientOrderId : Outbound → Bytes
  | .ack cid _ => cid
  | .reject cid _ => cid
  | .cancelAck cid _ => cid
  | .cancelReject cid _ => cid
  | .fill _ cid _ _ _ => cid

/-- The client order id is one of `P`; the exchange id is one. -/
structure Outbound.Named (P : Bytes → Prop) (m : Outbound) : Prop where
  names : P m.clientOrderId
  issued : ∀ e ∈ m.exchangeId?, ∃ n, e = exchangeId n

/-- What a message takes besides its client order id: at most the text of a FILL whose numbers have
all their digits. -/
theorem Outbound.Named.length_le {P : Bytes → Prop} {m : Outbound} (h : m.Named P) {L : Nat}
    (hshort : escapedLength m.clientOrderId ≤ L) (t : UtcTime) :
    (m.encode (isoTimestamp t)).length ≤ 187 + L := by
  have hissued := h.issued
  cases m with
  | ack cid e =>
    obtain ⟨n, rfl⟩ := hissued e rfl
    have hn := escapedLength_exchangeId_le n
    have hcid : escapedLength cid ≤ L := hshort
    simp only [encode, encodeAck, List.length_append, length_quoteJson, escapedLength_isoTimestamp]
    simp [ascii]
    omega
  | reject cid reason =>
    have hreason : escapedLength (ascii reason.text) ≤ 25 := by cases reason <;> decide +kernel
    have hcid : escapedLength cid ≤ L := hshort
    simp only [encode, encodeReject, List.length_append, length_quoteJson,
      escapedLength_isoTimestamp]
    generalize escapedLength (ascii reason.text) = k at hreason
    simp [ascii]
    omega
  | cancelAck cid e =>
    obtain ⟨n, rfl⟩ := hissued e rfl
    have hn := escapedLength_exchangeId_le n
    have hcid : escapedLength cid ≤ L := hshort
    simp only [encode, encodeCancelAck, List.length_append, length_quoteJson,
      escapedLength_isoTimestamp]
    simp [ascii]
    omega
  | cancelReject cid reason =>
    have hreason : escapedLength (ascii reason.text) ≤ 17 := by cases reason <;> decide +kernel
    have hcid : escapedLength cid ≤ L := hshort
    rw [length_encodeCancelReject]
    omega
  | fill e cid q p r =>
    obtain ⟨n, rfl⟩ := hissued e rfl
    have hn := escapedLength_exchangeId_le n
    have hcid : escapedLength cid ≤ L := hshort
    have hq := length_toDecimal_uint32_le q
    have hp := length_ticksToDecimal_le p
    have hr := length_toDecimal_uint32_le r
    rw [encode, length_encodeFill]
    omega

/-! ## Runs -/

/-- Live orders and the messages being sent bear ids of their connection's. -/
structure Tables.Named (P : ConnId → Bytes → Prop) (T : Tables) : Prop where
  live : ∀ id lo, T.live id = some lo →
    P lo.owner lo.clientOrderId ∧ ∃ n, lo.exchangeId = exchangeId n
  record : ∀ c cid r, T.record c cid = some r → ∃ n, r.exchangeId = exchangeId n
  sent : ∀ m ∈ T.sent, m.2.Named (P m.1)

variable {P : ConnId → Bytes → Prop}

section Tables

variable {T : Tables}

theorem Tables.Named.routeFill (h : T.Named P) (id : UInt64) (p q : UInt32) :
    (T.routeFill id p q).Named P := by
  cases hl : T.live id with
  | none => rwa [Tables.routeFill_of_none hl]
  | some lo =>
    obtain ⟨hlive, hsent, hrecord⟩ := Tables.routeFill_spec (p := p) (q := q) hl
    obtain ⟨hnames, hissued⟩ := h.live id lo hl
    refine ⟨fun id' lo' hlo' => ?_, fun c cid r hr => ?_, ?_⟩
    · rw [hlive] at hlo'
      split at hlo'
      · split at hlo'
        · cases hlo'
        · cases hlo'
          exact ⟨hnames, hissued⟩
      · exact h.live id' lo' hlo'
    · rw [hrecord] at hr
      split at hr
      · obtain ⟨r', hr', rfl⟩ := Option.map_eq_some_iff.mp hr
        exact h.record c cid r' hr'
      · exact h.record c cid r hr
    · rw [hsent]
      refine List.forall_mem_append.mpr ⟨h.sent, ?_⟩
      intro m hm
      rw [List.mem_singleton.mp hm]
      refine ⟨hnames, fun e he => ?_⟩
      cases he
      exact hissued

theorem Tables.Named.afterTrades (h : T.Named P) (ts : List Trade) :
    (T.afterTrades ts).Named P := by
  induction ts generalizing T with
  | nil => exact h
  | cons t ts ih =>
    have hlast : Tables.Named P { T with lastTradeTicks := t.price, hasLastTrade := true } :=
      ⟨h.live, h.record, h.sent⟩
    exact ih ((hlast.routeFill _ _ _).routeFill _ _ _)

theorem Tables.Named.entered {v : Venue cap} (h : v.tables.Named P) {conn : ConnId} {cid : Bytes}
    (hcid : P conn cid) (side : OrderSide) (p q : UInt32) :
    (v.entered conn cid side p q).Named P := by
  refine ⟨fun id lo hlo => ?_, fun c cid' r hr => ?_, ?_⟩
  · rw [entered_live] at hlo
    split at hlo
    · cases hlo
      exact ⟨hcid, _, rfl⟩
    · exact h.live id lo hlo
  · rw [entered_record] at hr
    split at hr
    · cases hr
      exact ⟨_, rfl⟩
    · exact h.record c cid' r hr
  · rw [entered_sent]
    refine List.forall_mem_append.mpr ⟨h.sent, ?_⟩
    intro m hm
    rw [List.mem_singleton.mp hm]
    refine ⟨hcid, fun e he => ?_⟩
    cases he
    exact ⟨_, rfl⟩

end Tables

/-- The id a reply to the request bears, empty where the request has none, is one of its
connection's. -/
def Event.Names (P : ConnId → Bytes → Prop) : Event → Prop
  | .line conn payload => P conn ((parseInbound payload).clientOrderId.getD [])
  | .drop _ => True

theorem dropOwned_tables {v v' : Venue cap} {ids : List UInt64}
    (h : v.dropOwned build ids = .ok v') :
    (∀ id lo, v'.tables.live id = some lo → v.tables.live id = some lo) ∧
      v'.tables.byConn = v.tables.byConn ∧ v'.tables.sent = v.tables.sent := by
  induction ids generalizing v with
  | nil =>
    cases h
    exact ⟨fun _ _ hlo => hlo, rfl, rfl⟩
  | cons id ids ih =>
    obtain ⟨b, -, h⟩ := bind_eq_ok.mp h
    obtain ⟨hlive, hconn, hsent⟩ := ih h
    refine ⟨fun id' lo hlo => ?_, hconn, hsent⟩
    have hlo := hlive id' lo hlo
    simp only [Tables.live, lookup_erase_ite] at hlo
    split at hlo
    · cases hlo
    · exact hlo

theorem Tables.Named.cancelled {v : Venue cap} (h : v.tables.Named P) {conn : ConnId} {cid : Bytes}
    {r : ClientRecord} (hr : v.tables.record conn cid = some r) (hcid : P conn cid)
    (book : OrderBook cap) : (v.cancelled conn cid r book).tables.Named P := by
  have hissued := h.record conn cid r hr
  refine ⟨fun id lo hlo => ?_, fun c cid' r' hr' => ?_, ?_⟩
  · rw [cancelled_live] at hlo
    split at hlo
    · cases hlo
    · exact h.live id lo hlo
  · rw [cancelled_record] at hr'
    split at hr'
    · cases hr'
      exact hissued
    · exact h.record c cid' r' hr'
  · rw [cancelled_sent]
    refine List.forall_mem_append.mpr ⟨h.sent, ?_⟩
    intro m hm
    rw [List.mem_singleton.mp hm]
    refine ⟨hcid, fun e he => ?_⟩
    cases he
    exact hissued

theorem Refusal.named {conn : ConnId} {m : InboundMessage} {msgs : List Sent}
    (h : Refusal conn m msgs) (hname : P conn (m.clientOrderId.getD [])) :
    ∀ x ∈ msgs, x.2.Named (P x.1) := by
  intro x hx
  refine ⟨?_, fun e he => by rw [h.about x hx] at he; cases he⟩
  cases h with
  | heartbeat => cases hx
  | malformed cid reason names | newOrder cid reason names | cancel cid reason names =>
    rw [List.mem_singleton.mp hx]
    exact names ▸ hname

/-- A call sends ids of the connections'. -/
theorem handle_named {v v' : Venue cap} {ev : Event} (hsound : v.book.Sound)
    (h : v.tables.Named P) (hev : ev.Names P) (hv : v.handle build ev = .ok v') :
    v'.tables.Named P := by
  have hnames : ∀ {conn payload cid}, ev = .line conn payload →
      (parseInbound payload).clientOrderId = some cid → P conn cid := by
    rintro conn payload cid rfl hcid
    have hev : P conn ((parseInbound payload).clientOrderId.getD []) := hev
    rwa [hcid] at hev
  cases handled_ok hv with
  | quiet result msgs _ _ _ live record sent _ reply =>
    cases result
    refine ⟨fun id lo hlo => ?_, fun c cid r hr => ?_, ?_⟩
    · rw [Tables.live, live] at hlo
      exact h.live id lo hlo
    · rw [record] at hr
      exact h.record c cid r hr
    · rw [sent]
      exact List.forall_mem_append.mpr ⟨h.sent, reply.named hev⟩
  | @accept conn payload cid side p q _ accepts result =>
    obtain ⟨a, hrep, hwf⟩ := hsound
    obtain ⟨ts, a', -, -, hT, -⟩ := submit_spec hrep hwf result.symm
    rw [hT]
    exact (h.entered (hnames rfl accepts.names) side p q).afterTrades ts
  | cancel isCancel hrecord _ result =>
    obtain ⟨book, -, hv'⟩ := bind_eq_ok.mp result.symm
    cases hv'
    exact h.cancelled hrecord (hnames rfl isCancel.names) book
  | drop result =>
    obtain ⟨v₁, hv₁, hv'⟩ := bind_eq_ok.mp result.symm
    cases hv'
    obtain ⟨hlive, hconn, hsent⟩ := dropOwned_tables hv₁
    refine ⟨fun id lo hlo => h.live id lo (hlive id lo hlo), fun c cid r hr => ?_, ?_⟩
    · simp only [Tables.record, hconn, lookup_erase_ite] at hr
      split at hr
      · cases hr
      · exact h.record c cid r hr
    · exact fun m hm => h.sent m (hsent ▸ hm)

/-- The tables bear ids of the connections', and so did every message. -/
structure Session.Named (P : ConnId → Bytes → Prop) (s : Session cap) : Prop where
  sound : s.venue.book.Sound
  size : s.venue.tables.byEngineId.keys.length ≤ s.venue.softCap
  tables : s.venue.tables.Named P
  messages : ∀ m ∈ s.messages, m.2.Named (P m.1)

section Sessions

variable {s s' : Session cap} {ev : Event} {events : List Event}

theorem Session.Named.step (h : s.Named P) (hev : ev.Names P) (hs : s.step build ev = .ok s') :
    s'.Named P := by
  obtain ⟨v', hv', rfl⟩ := Session.step_eq_ok.mp hs
  have hcleared : s.venue.cleared.tables.Named P :=
    ⟨h.tables.live, h.tables.record, fun m hm => by cases hm⟩
  have hv := handle_named (v := s.venue.cleared) h.sound hcleared hev hv'
  obtain ⟨hsound, hsize⟩ := handle_size (v := s.venue.cleared) h.sound h.size hv'
  refine ⟨hsound, hsize, hv, ?_⟩
  rw [Session.messages_concat]
  exact List.forall_mem_append.mpr ⟨h.messages, hv.sent⟩

theorem session_named (hev : ∀ ev ∈ events, ev.Names P)
    (h : session build cap softCap events = .ok s) : s.Named P := by
  obtain ⟨v₀, hv₀, hrun⟩ := bind_eq_ok.mp h
  have hstart : (Session.start v₀).Named P := by
    obtain ⟨hsoft, hsync⟩ := Venue.new_eq_ok hv₀
    obtain ⟨b, -, hv⟩ := bind_eq_ok.mp hv₀
    cases hv
    refine ⟨⟨_, hsync.rep, hsync.wf⟩, Nat.zero_le _, ⟨?_, ?_, fun m hm => by cases hm⟩,
      fun m hm => by cases hm⟩
    · intro id lo hlo
      cases hlo
    · intro c cid r hr
      cases hr
  exact run_inv_of_mem (fun _ _ hs ev hmem hstep => hs.step (hev ev hmem) hstep) hstart hrun

end Sessions

/-! ## The widest fill -/

/-- An id of `k` plain bytes. -/
def longId (k : Nat) : Text := ⟨List.replicate k 97, fun c hc => by
  rw [List.eq_of_mem_replicate hc]
  decide⟩

theorem escapedLength_longId (k : Nat) : escapedLength (longId k).bytes = k := by
  rw [escapedLength_of_plain (longId k).plain]
  exact List.length_replicate

theorem length_newOrderLine (cid ts : Text) (side : OrderSide) (cents : Int) (qty : Nat) :
    (newOrderLine cid side cents qty ts).length = 104 + cid.bytes.length +
      (sideText side).bytes.length + (priceNumeral cents).bytes.length +
      (intNumeral qty).bytes.length + ts.bytes.length := by
  simp [newOrderLine, dumps, dumpMembers, dumpMember, dumpText, Value.dump, typeKey,
    clientOrderIdKey, symbolKey, sideKey, priceKey, qtyKey, tsKey, SYMBOL, text, ascii]
  omega

theorem length_cancelLine (cid ts : Text) :
    (cancelLine cid ts).length = 51 + cid.bytes.length + ts.bytes.length := by
  simp [cancelLine, dumps, dumpMembers, dumpMember, dumpText, Value.dump, typeKey,
    clientOrderIdKey, tsKey, text, ascii]
  omega

/-- Connection 1 offers four billion at the highest price, under an id of `k` bytes. -/
def wideOffer (k : Nat) : Event :=
  .line 1 (newOrderLine (longId k) .sell 4294967295 4000000000 idA)

/-- Connection 2 takes half of them. -/
def wideBid : Event := .line 2 (newOrderLine idA .buy 4294967295 2000000000 idA)

/-- Enough orders come and go for the next engine id to have twenty digits. -/
def wideRun (k : Nat) : List Event := bidsAndLeaves (10 ^ 19 - 1) ++ [wideOffer k, wideBid]

/-- The message connection 1 then gets. -/
def widestFill (k : Nat) : Outbound :=
  .fill (exchangeId 10000000000000000000) (longId k).bytes 2000000000 4294967295 2000000000

/-- The offer in its tables. -/
def wideTables (k : Nat) (id : UInt64) : Tables :=
  ⟨false, 0, AList.insert id ⟨1, (longId k).bytes, exchangeId id, .sell, 4294967295, 4000000000⟩ ∅,
    AList.insert 1 (AList.insert (longId k).bytes ⟨.resting, exchangeId id, id⟩ ∅) ∅, []⟩

/-- The offer in its book. -/
def wideBook (id sequence : UInt64) : PriorityBook 4 where
  free := [slot 1, slot 2, slot 3]
  queue
    | .buy => []
    | .sell => [⟨slot 0, id, 4294967295, 4000000000, sequence, 1⟩]
  index := AList.insert id (slot 0) ∅
  sequence := sequence + 1

theorem wideRun_sends (build : Build) (k : Nat) : ∃ s : Session 4,
    session build 4 3 (wideRun k) = .ok s ∧ (1, widestFill k) ∈ s.messages := by
  obtain ⟨v₀, hv₀⟩ : ∃ v₀ : Venue 4, Venue.new 4 3 = .ok v₀ := ⟨_, rfl⟩
  have hidle : Idle 3 ⟨false, 0, ∅, ∅, []⟩ (PriorityBook.empty 4) :=
    ⟨rfl, by decide, rfl, by decide, rfl, by decide, by decide⟩
  have hparked : Parked (Session.start v₀) 3 ⟨false, 0, ∅, ∅, []⟩ (PriorityBook.empty 4) 1 :=
    ⟨⟨0, new_stands hv₀⟩, fun m hm => by cases hm⟩
  obtain ⟨s, hs, ⟨seq, h⟩, -⟩ := hparked.rounds build hidle (10 ^ 19 - 1) fun j _ =>
    ⟨AList.notMem_empty _, AList.notMem_empty _⟩
  have hid : (1 : UInt64) + UInt64.ofNat (10 ^ 19 - 1) = 10000000000000000000 := by decide
  rw [hid] at h
  set id : UInt64 := 10000000000000000000
  have hacc := h.accepts 1
    (isNewOrder_line (longId k) idA .sell 4294967295 4000000000 4294967295 4000000000 rfl rfl)
    (by decide) rfl (by decide) rfl
  have hadd : PriorityBook.add build .sell 4294967295 4000000000 id 1
      { PriorityBook.empty 4 with sequence := seq } = .ok ([], wideBook id seq) := by
    refine add_rests 0 [1, 2, 3] rfl rfl (by decide) (by cases build <;> rfl) ?_
    exact book_ext rfl (fun s => by cases s <;> rfl) rfl rfl
  obtain ⟨s₁, hs₁, -, h₁⟩ := h.accept ({ wideTables k id with
    sent := [(1, .ack (longId k).bytes (exchangeId id))] }) hacc hadd fun _ => rfl
  have hacc₁ := h₁.accepts 2
    (isNewOrder_line idA idA .buy 4294967295 2000000000 4294967295 2000000000 rfl rfl)
    (by decide) rfl (show 1 < 3 by decide) rfl
  set t : Trade := ⟨id + 1, id, 4294967295, 2000000000⟩
  obtain ⟨a₂, hadd₁⟩ : ∃ a₂, (wideBook id seq).add build .buy 4294967295 2000000000 (id + 1) 2 =
      .ok ([t], a₂) := ⟨_, rfl⟩
  -- both legs of the trade are live
  have hbuy : (Venue.entered ⟨3, id + 1, wideTables k id, s₁.venue.book⟩ 2 idA.bytes .buy 4294967295
      2000000000).live (id + 1) =
      some ⟨2, idA.bytes, exchangeId (id + 1), .buy, 4294967295, 2000000000⟩ := by
    rw [entered_live, if_pos rfl]
    rfl
  have hsell :
      (Venue.entered ⟨3, id + 1, wideTables k id, s₁.venue.book⟩ 2 idA.bytes .buy 4294967295
      2000000000).live id =
      some ⟨1, (longId k).bytes, exchangeId id, .sell, 4294967295, 4000000000⟩ := by
    rw [entered_live, if_neg (show ¬id = id + 1 by decide)]
    exact AList.lookup_insert _
  obtain ⟨s₂, hs₂, hmsgs⟩ := h₁.accept_trade hacc₁ hadd₁
    ⟨hbuy, hsell, rfl, rfl, show (2 : UInt64) ≠ 1 by decide,
      show (0 : UInt32) < 2000000000 by decide, UInt32.le_refl _,
      show (2000000000 : UInt32) ≤ 4000000000 by decide, UInt32.le_refl _, UInt32.le_refl _⟩
  refine ⟨s₂, ?_, ?_⟩
  · rw [session, hv₀, ok_bind, wideRun, run_append, hs, ok_bind, run_cons, wideOffer, hs₁, ok_bind,
      run_cons, wideBid, hs₂]
    rfl
  · have hleft : (4000000000 : UInt32) - 2000000000 = 2000000000 := by decide
    have hleg : (1, widestFill k) = LiveOrder.fill
        ⟨1, (longId k).bytes, exchangeId id, .sell, 4294967295, 4000000000⟩ t := by
      rw [LiveOrder.fill, hleft]
      rfl
    rw [hmsgs, hleg]
    exact List.mem_append_right _ (List.mem_cons_of_mem _ (List.mem_cons_of_mem _
      (List.mem_singleton_self _)))

/-! ## The limit on ids -/

/-- An id of this length, escapes included, leaves room for the rest of a FILL. -/
def kMaxIdLength : Nat := 2 ^ 20 - 187

/-- A payload the decoder can yield, its id, if it has one, of at most `L` bytes with escapes. -/
def Event.Short (L : Nat) : Event → Prop
  | .line _ payload => payload.length ≤ kMaxPayloadBytes.toNat ∧
    ∀ cid ∈ (parseInbound payload).clientOrderId, escapedLength cid ≤ L
  | .drop _ => True

theorem Event.Short.names {L : Nat} {ev : Event} (h : ev.Short L) :
    ev.Names fun _ cid => escapedLength cid ≤ L := by
  cases ev with
  | drop conn => exact trivial
  | line conn payload =>
    show escapedLength ((parseInbound payload).clientOrderId.getD []) ≤ L
    cases hcid : (parseInbound payload).clientOrderId with
    | none => exact Nat.zero_le L
    | some cid => exact h.2 cid hcid

theorem short_newOrder {L : Nat} {cid : Text} (conn : ConnId) (side : OrderSide) (cents : Int)
    (qty : Nat) (hlen : (newOrderLine cid side cents qty idA).length ≤ kMaxPayloadBytes.toNat)
    (hcid : escapedLength cid.bytes ≤ L) :
    Event.Short L (.line conn (newOrderLine cid side cents qty idA)) := by
  refine ⟨hlen, fun c hc => ?_⟩
  rw [parseInbound_newOrder] at hc
  cases hc
  exact hcid

theorem wideRun_short {k : Nat} (hk : 0 < k) (hmax : k ≤ kMaxIdLength + 1) :
    ∀ ev ∈ wideRun k, ev.Short k := by
  have hone : escapedLength idA.bytes ≤ k := hk
  have hround : ∀ ev ∈ bidAndLeave, ev.Short k := by
    refine List.forall_mem_cons.mpr ⟨?_, List.forall_mem_cons.mpr ⟨trivial, fun ev hev => ?_⟩⟩
    · exact short_newOrder 2 .buy 50 1 (by decide +kernel) hone
    · cases hev
  have hoffer : (wideOffer k).Short k := by
    refine short_newOrder 1 .sell 4294967295 4000000000 ?_ (escapedLength_longId k).le
    have hlen : (longId k).bytes.length = k := List.length_replicate
    have hside : (sideText .sell).bytes.length = 4 := rfl
    have hprice : (priceNumeral 4294967295).bytes.length = 11 := by decide +kernel
    have hqty : (intNumeral 4000000000).bytes.length = 10 := by decide +kernel
    have hts : idA.bytes.length = 1 := rfl
    have hpay : kMaxPayloadBytes.toNat = 2 ^ 20 := rfl
    rw [length_newOrderLine, hlen, hside, hprice, hqty, hts, hpay]
    unfold kMaxIdLength at hmax
    omega
  have hbid : wideBid.Short k :=
    short_newOrder 2 .buy 4294967295 2000000000 (by decide +kernel) hone
  intro ev hev
  rcases List.mem_append.mp hev with hev | hev
  · obtain ⟨round, hmem, hev⟩ := List.mem_flatten.mp hev
    rw [List.eq_of_mem_replicate hmem] at hev
    exact hround ev hev
  · rcases List.mem_cons.mp hev with rfl | hev
    · exact hoffer
    · rw [List.mem_singleton.mp hev]
      exact hbid

theorem length_widestFill (k : Nat) (t : UtcTime) :
    ((widestFill k).encode (isoTimestamp t)).length = 187 + k := by
  have hid : escapedLength (exchangeId 10000000000000000000) = 22 := by
    rw [escapedLength_exchangeId]
    decide +kernel
  have hqty : (toDecimal (2000000000 : UInt32).toNat).length = 10 := by decide +kernel
  have hprice : (ticksToDecimal 4294967295).length = 11 := by decide +kernel
  rw [widestFill, Outbound.encode, length_encodeFill, hid, escapedLength_longId, hqty, hprice]
  omega

/-- Every frame is deliverable in all runs whose ids take at most `L` bytes, escapes included, just
when `L` is within the limit. -/
theorem frames_deliverable_iff (L : Nat) :
    (∀ (build : Build) (cap softCap : Nat) (events : List Event) (s : Session cap),
      (∀ ev ∈ events, ev.Short L) → session build cap softCap events = .ok s →
      ∀ m ∈ s.messages, ∀ t : UtcTime, Deliverable (m.2.encode (isoTimestamp t))) ↔
    L ≤ kMaxIdLength := by
  constructor
  · intro h
    by_contra hL
    have hL : kMaxIdLength + 1 ≤ L := by omega
    obtain ⟨s, hs, hm⟩ := wideRun_sends .debug (kMaxIdLength + 1)
    have hshort : ∀ ev ∈ wideRun (kMaxIdLength + 1), ev.Short L := by
      intro ev hev
      have hk := wideRun_short (Nat.succ_pos _) le_rfl ev hev
      cases ev with
      | line conn payload => exact ⟨hk.1, fun cid hcid => (hk.2 cid hcid).trans hL⟩
      | drop conn => trivial
    have hd := h .debug 4 3 _ s hshort hs _ hm ⟨0, 0, 0, 0, 0, 0, 0⟩
    have hle := deliverable_iff.mp hd
    have hpay : kMaxPayloadBytes.toNat = 2 ^ 20 := rfl
    rw [length_widestFill, hpay] at hle
    unfold kMaxIdLength at hle
    omega
  · intro hL build cap softCap events s hev hs m hm t
    have hnamed := (session_named (fun ev hmem => (hev ev hmem).names) hs).messages m hm
    have hlen := hnamed.length_le hnamed.names t
    have hpay : kMaxPayloadBytes.toNat = 2 ^ 20 := rfl
    refine deliverable_iff.mpr ?_
    rw [hpay]
    unfold kMaxIdLength at hL
    omega

/-- A cancel of an unknown order within the limit, whose reply is not. -/
theorem long_cancel_reject : ∃ (payload : Bytes) (s : Session 4),
    payload.length ≤ kMaxPayloadBytes.toNat ∧ session .debug 4 3 [.line 1 payload] = .ok s ∧
      ∃ m ∈ s.messages, ∀ t : UtcTime, ¬Deliverable (m.2.encode (isoTimestamp t)) := by
  obtain ⟨v₀, hv₀, hconn⟩ : ∃ v₀ : Venue 4, Venue.new 4 3 = .ok v₀ ∧
      v₀.tables.byConn.lookup 1 = none := ⟨_, rfl, rfl⟩
  let cid := longId (2 ^ 20 - 60)
  have hlen : cid.bytes.length = 2 ^ 20 - 60 := List.length_replicate
  have hpay : kMaxPayloadBytes.toNat = 2 ^ 20 := rfl
  have hcall : v₀.cleared.handle .debug (.line 1 (cancelLine cid idA)) =
      .ok (v₀.cleared.send 1 (.cancelReject cid.bytes .notFound)) := by
    have hlook : v₀.cleared.tables.byConn.lookup 1 = none := hconn
    rw [Venue.handle, Venue.handleLine, parseInbound_cancel]
    unfold Venue.handleMessage
    rw [if_neg (by decide)]
    unfold Venue.handleCancel
    simp only [hlook]
  refine ⟨cancelLine cid idA, ⟨[(.line 1 (cancelLine cid idA),
    [(1, .cancelReject cid.bytes .notFound)])],
    v₀.cleared.send 1 (.cancelReject cid.bytes .notFound)⟩,
    ?_, ?_, (1, .cancelReject cid.bytes .notFound), List.mem_singleton_self _, fun t hd => ?_⟩
  · rw [length_cancelLine, hlen, hpay]
    decide +kernel
  · rw [session, hv₀, ok_bind, run_cons, Session.step, Session.start, hcall]
    rfl
  · have hle := deliverable_iff.mp hd
    have hreason : escapedLength (ascii CancelRejectReason.notFound.text) = 9 := by decide +kernel
    rw [length_encodeCancelReject, escapedLength_longId, hreason, hpay] at hle
    omega

end MarketMakerOps.Exchange
