import MarketMakerOps.Lib.Json
import MarketMakerOps.Exchange.Protocol

/-!
The encoders of the venue (`venue/protocol.cpp`), and what a JSON reader makes of their
output.

* `quoteJson`, `ticksToDecimal`, `encodeAck` .. `encodeMarketData`: the code;
* `membersText`: the members each of them writes;
* `encoders_round_trip`: they are read back, whatever the strings.
-/

namespace MarketMakerOps.Exchange

open Decimal

/-- The lower case digit of a number below 16. -/
def hexDigit (d : Nat) : UInt8 := if d < 10 then UInt8.ofNat (48 + d) else UInt8.ofNat (87 + d)

/-- One byte of a string: quote, backslash, line feed, carriage return, tab, another control
character as `\u` with four digits, or as it is. -/
def quoteChar (c : UInt8) : Bytes :=
  if c = 34 then [92, 34]
  else if c = 92 then [92, 92]
  else if c = 10 then [92, 110]
  else if c = 13 then [92, 114]
  else if c = 9 then [92, 116]
  else if c < 0x20 then [92, 117, 48, 48, hexDigit (c.toNat / 16), hexDigit (c.toNat % 16)]
  else [c]

def quoteJson (s : Bytes) : Bytes := 34 :: (s.flatMap quoteChar ++ [34])

/-- Two digits after the point. -/
def ticksToDecimal (ticks : UInt32) : Bytes :=
  let whole := ticks.toNat / 100
  let frac := ticks.toNat % 100
  toDecimal whole ++ [46, digit (frac / 10), digit (frac % 10)]

def encodeAck (clientOrderId exchangeOrderId ts : Bytes) : Bytes :=
  ascii "\x7b\"type\":\"ACK\",\"client_order_id\":" ++ quoteJson clientOrderId ++
    ascii ",\"exchange_order_id\":" ++ quoteJson exchangeOrderId ++
    ascii ",\"ts\":" ++ quoteJson ts ++ ascii "\x7d"

def encodeReject (clientOrderId reason ts : Bytes) : Bytes :=
  ascii "\x7b\"type\":\"REJECT\",\"client_order_id\":" ++ quoteJson clientOrderId ++
    ascii ",\"reason\":" ++ quoteJson reason ++ ascii ",\"ts\":" ++ quoteJson ts ++ ascii "\x7d"

def encodeCancelAck (clientOrderId exchangeOrderId ts : Bytes) : Bytes :=
  ascii "\x7b\"type\":\"CANCEL_ACK\",\"client_order_id\":" ++ quoteJson clientOrderId ++
    ascii ",\"exchange_order_id\":" ++ quoteJson exchangeOrderId ++
    ascii ",\"ts\":" ++ quoteJson ts ++ ascii "\x7d"

def encodeCancelReject (clientOrderId reason ts : Bytes) : Bytes :=
  ascii "\x7b\"type\":\"CANCEL_REJECT\",\"client_order_id\":" ++ quoteJson clientOrderId ++
    ascii ",\"reason\":" ++ quoteJson reason ++ ascii ",\"ts\":" ++ quoteJson ts ++ ascii "\x7d"

def encodeFill (exchangeOrderId clientOrderId : Bytes)
    (fillQty fillPriceTicks remainingQty : UInt32)
    (ts : Bytes) : Bytes :=
  ascii "\x7b\"type\":\"FILL\",\"exchange_order_id\":" ++ quoteJson exchangeOrderId ++
    ascii ",\"client_order_id\":" ++ quoteJson clientOrderId ++
    ascii ",\"fill_qty\":" ++ toDecimal fillQty.toNat ++
    ascii ",\"fill_price\":" ++ ticksToDecimal fillPriceTicks ++
    ascii ",\"remaining_qty\":" ++ toDecimal remainingQty.toNat ++
    ascii ",\"ts\":" ++ quoteJson ts ++ ascii "\x7d"

def encodeHeartbeat (seq : UInt64) (ts : Bytes) : Bytes :=
  ascii "\x7b\"type\":\"HEARTBEAT\",\"seq\":" ++ toDecimal seq.toNat ++
    ascii ",\"ts\":" ++ quoteJson ts ++ ascii "\x7d"

def encodeMarketData (symbol : Bytes) (hasBid : Bool) (bidTicks : UInt32) (hasAsk : Bool)
    (askTicks : UInt32) (hasLast : Bool) (lastTicks : UInt32) (ts : Bytes) : Bytes :=
  ascii "\x7b\"type\":\"MARKET_DATA\",\"symbol\":" ++ quoteJson symbol ++
    ascii ",\"best_bid\":" ++ (if hasBid then ticksToDecimal bidTicks else ascii "null") ++
    ascii ",\"best_ask\":" ++ (if hasAsk then ticksToDecimal askTicks else ascii "null") ++
    ascii ",\"last_trade\":" ++ (if hasLast then ticksToDecimal lastTicks else ascii "null") ++
    ascii ",\"ts\":" ++ quoteJson ts ++ ascii "\x7d"

/-- The fields of a UTC timestamp within the four-digit years. -/
structure UtcTime where
  year : Fin 10000
  month : Fin 13
  day : Fin 32
  hour : Fin 24
  minute : Fin 60
  second : Fin 61
  millis : Fin 1000

/-- The last `k` digits of a number (`%0kd`). -/
def padded : Nat → Nat → Bytes
  | 0, _ => []
  | k + 1, n => padded k (n / 10) ++ [digit (n % 10)]

/-- The text of `isoTimestampNow` at a time. -/
def isoTimestamp (t : UtcTime) : Bytes :=
  padded 4 t.year ++ [45] ++ padded 2 t.month ++ [45] ++ padded 2 t.day ++ [84] ++
    padded 2 t.hour ++ [58] ++ padded 2 t.minute ++ [58] ++ padded 2 t.second ++ [46] ++
    padded 3 t.millis ++ [90]

/-- The payload of a message sent at a time. -/
def Outbound.encode (ts : Bytes) : Outbound → Bytes
  | .ack cid eid => encodeAck cid eid ts
  | .reject cid reason => encodeReject cid (ascii reason.text) ts
  | .cancelAck cid eid => encodeCancelAck cid eid ts
  | .cancelReject cid reason => encodeCancelReject cid (ascii reason.text) ts
  | .fill eid cid qty price remaining => encodeFill eid cid qty price remaining ts

/-! ## Strings and numbers -/

theorem hex4_control : ∀ n < 32,
    Json.hex4 48 48 (hexDigit (n / 16)) (hexDigit (n % 16)) = some n := by decide

/-- An escaped control character. -/
theorem escape_control {c : UInt8} (hc : c < 0x20) (s : Bytes) :
    Json.escape (117 :: 48 :: 48 :: hexDigit (c.toNat / 16) :: hexDigit (c.toNat % 16) :: s) =
      some ([c], s) := by
  have hlt : c.toNat < 32 := UInt8.lt_iff_toNat_lt.mp hc
  have hpoint :
      Json.codePoint (48 :: 48 :: hexDigit (c.toNat / 16) :: hexDigit (c.toNat % 16) :: s) =
      some (c.toNat, s) := by
    rw [Json.codePoint, hex4_control c.toNat hlt]
    simp only [Option.bind_eq_bind, Option.bind_some]
    rw [if_neg (by omega), if_neg (by omega)]
  have hutf8 : Json.utf8 c.toNat = [c] := by
    rw [Json.utf8, if_pos (by omega), UInt8.ofNat_toNat]
  rw [Json.escape]
  simp only [hpoint, hutf8, Option.bind_eq_bind, Option.bind_some]
  rfl

/-- A character is read back, and then the rest. -/
theorem chars_quoteChar (c : UInt8) (s : Bytes) (fuel : Nat) :
    Json.chars (fuel + 1) (quoteChar c ++ s) =
      (Json.chars fuel s).map fun x => (c :: x.1, x.2) := by
  have hescaped : ∀ u, Json.escape (u ++ s) = some ([c], s) →
      Json.chars (fuel + 1) (92 :: u ++ s) = (Json.chars fuel s).map fun x => (c :: x.1, x.2) := by
    intro u hu
    rw [List.cons_append, Json.chars, if_neg (by decide), if_pos rfl, hu]
    simp only [Option.bind_eq_bind, Option.bind_some]
    cases Json.chars fuel s <;> rfl
  unfold quoteChar
  split
  · next h =>
    subst h
    exact hescaped [34] rfl
  · next h34 =>
    split
    · next h =>
      subst h
      exact hescaped [92] rfl
    · next h92 =>
      split
      · next h =>
        subst h
        exact hescaped [110] rfl
      · split
        · next h =>
          subst h
          exact hescaped [114] rfl
        · split
          · next h =>
            subst h
            exact hescaped [116] rfl
          · split
            · next h => exact hescaped _ (escape_control h s)
            · next h32 =>
              rw [List.singleton_append, Json.chars, if_neg h34, if_neg h92, if_neg h32]
              cases Json.chars fuel s <;> rfl

theorem chars_quoted (s t : Bytes) {fuel : Nat} (hfuel : s.length < fuel) :
    Json.chars fuel (s.flatMap quoteChar ++ 34 :: t) = some (s, t) := by
  induction s generalizing fuel with
  | nil =>
    cases fuel with
    | zero => omega
    | succ fuel => rfl
  | cons c s ih =>
    cases fuel with
    | zero => omega
    | succ fuel =>
      rw [List.length_cons] at hfuel
      rw [List.flatMap_cons, List.append_assoc, chars_quoteChar, ih (by omega)]
      rfl

theorem length_le_quoted (s : Bytes) : s.length ≤ (s.flatMap quoteChar).length := by
  induction s with
  | nil => exact le_rfl
  | cons c s ih =>
    have hpos : 1 ≤ (quoteChar c).length := by
      unfold quoteChar
      repeat' split
      all_goals exact Nat.succ_le_succ (Nat.zero_le _)
    rw [List.flatMap_cons, List.length_append, List.length_cons]
    omega

theorem isString_quoteJson (s : Bytes) : Json.IsString (quoteJson s) s := by
  intro t
  have happ : quoteJson s ++ t = 34 :: (s.flatMap quoteChar ++ 34 :: t) := by simp [quoteJson]
  rw [happ, Json.string]
  refine chars_quoted s t ?_
  have hle := length_le_quoted s
  rw [List.length_append, List.length_cons]
  omega

theorem isValue_quoteJson (s : Bytes) : Json.IsValue (quoteJson s) (.str s) :=
  (isString_quoteJson s).isValue

theorem isValue_ticksToDecimal (ticks : UInt32) :
    Json.IsValue (ticksToDecimal ticks) (.num ((ticks.toNat : ℚ) / 100)) := by
  set n := ticks.toNat with hn
  have h1 : n % 100 / 10 < 10 := by omega
  have h2 : n % 100 % 10 < 10 := by omega
  have hdigits : ∀ d ∈ [digit (n % 100 / 10), digit (n % 100 % 10)], isDigit d = true := by
    simp only [List.mem_cons, List.not_mem_nil, or_false, forall_eq_or_imp, forall_eq]
    exact ⟨isDigit_digit h1, isDigit_digit h2⟩
  have hvalue : ofDecimal (n / 100) [digit (n % 100 / 10), digit (n % 100 % 10)] = n := by
    simp only [ofDecimal, List.foldl_cons, List.foldl_nil, toNat_digit h1, toNat_digit h2]
    omega
  have h := Json.isValue_digits (n / 100) hdigits
  rw [hvalue, if_neg (List.cons_ne_nil _ _)] at h
  exact h

/-! ## Messages -/

/-- A key and its value, without white space. -/
def memberText (m : String × Bytes) : Bytes := quoteJson (ascii m.1) ++ 58 :: m.2

/-- The members of an object, a comma between them. -/
def membersText : List (String × Bytes) → Bytes
  | [] => []
  | [m] => memberText m
  | m :: ms => memberText m ++ 44 :: membersText ms

/-- What a JSON reader makes of a text: these members, no key twice. -/
def Reads (text : Bytes) (ms : List Json.Member) : Prop :=
  Json.parse text = some ms ∧ (ms.map Prod.fst).Nodup

/-- A member with the text of its value. -/
abbrev WrittenMember := String × Bytes × Json.Value

def strMember (k : String) (s : Bytes) : WrittenMember := (k, quoteJson s, .str s)

def natMember (k : String) (n : Nat) : WrittenMember := (k, toDecimal n, .num n)

theorem isMembers_membersText {ms : List WrittenMember} (hne : ms ≠ [])
    (hms : ∀ m ∈ ms, Json.IsValue m.2.1 m.2.2) :
    Json.IsMembers (membersText (ms.map fun m => (m.1, m.2.1)))
      (ms.map fun m => (ascii m.1, m.2.2)) := by
  induction ms with
  | nil => exact absurd rfl hne
  | cons m ms ih =>
    obtain ⟨hm, hms⟩ := List.forall_mem_cons.mp hms
    cases ms with
    | nil => exact .one (isString_quoteJson _) hm
    | cons m' ms => exact .more (isString_quoteJson _) hm (ih (List.cons_ne_nil _ _) hms)

/-- An object is read back. -/
theorem reads_object {text : Bytes} (ms : List WrittenMember) (hne : ms ≠ [])
    (htext : text = 123 :: (membersText (ms.map fun m => (m.1, m.2.1)) ++ [125]))
    (hms : ∀ m ∈ ms, Json.IsValue m.2.1 m.2.2) (hkeys : (ms.map fun m => ascii m.1).Nodup) :
    Reads text (ms.map fun m => (ascii m.1, m.2.2)) := by
  refine ⟨?_, ?_⟩
  · rw [htext]
    exact Json.parse_of_isMembers (isMembers_membersText hne hms)
  · rw [List.map_map]
    exact hkeys

section Texts

theorem ts_text : ascii ",\"ts\":" =
    44 :: (quoteJson (ascii "ts") ++ [58]) := rfl

theorem clientOrderId_text : ascii ",\"client_order_id\":" =
    44 :: (quoteJson (ascii "client_order_id") ++ [58]) := rfl

theorem exchangeOrderId_text : ascii ",\"exchange_order_id\":" =
    44 :: (quoteJson (ascii "exchange_order_id") ++ [58]) := rfl

theorem reason_text : ascii ",\"reason\":" =
    44 :: (quoteJson (ascii "reason") ++ [58]) := rfl

theorem fillQty_text : ascii ",\"fill_qty\":" =
    44 :: (quoteJson (ascii "fill_qty") ++ [58]) := rfl

theorem fillPrice_text : ascii ",\"fill_price\":" =
    44 :: (quoteJson (ascii "fill_price") ++ [58]) := rfl

theorem remainingQty_text : ascii ",\"remaining_qty\":" =
    44 :: (quoteJson (ascii "remaining_qty") ++ [58]) := rfl

theorem bestBid_text : ascii ",\"best_bid\":" =
    44 :: (quoteJson (ascii "best_bid") ++ [58]) := rfl

theorem bestAsk_text : ascii ",\"best_ask\":" =
    44 :: (quoteJson (ascii "best_ask") ++ [58]) := rfl

theorem lastTrade_text : ascii ",\"last_trade\":" =
    44 :: (quoteJson (ascii "last_trade") ++ [58]) := rfl

theorem closing_text : ascii "\x7d" = [125] := rfl

/-- The two replies that name an exchange id. -/
theorem reads_ack (typ : Bytes) {head : Bytes} (cid eid ts : Bytes)
    (hhead : head = 123 :: (memberText ("type", quoteJson typ) ++
      44 :: (quoteJson (ascii "client_order_id") ++ [58]))) :
    Reads (head ++ quoteJson cid ++ ascii ",\"exchange_order_id\":" ++ quoteJson eid ++
        ascii ",\"ts\":" ++ quoteJson ts ++ ascii "\x7d")
      [(ascii "type", .str typ), (ascii "client_order_id", .str cid),
        (ascii "exchange_order_id", .str eid), (ascii "ts", .str ts)] := by
  refine reads_object [strMember "type" typ, strMember "client_order_id" cid,
    strMember "exchange_order_id" eid, strMember "ts" ts] (List.cons_ne_nil _ _) ?_ ?_ ?_
  · rw [hhead, exchangeOrderId_text, ts_text, closing_text]
    simp [membersText, memberText, strMember]
  · simp [strMember, isValue_quoteJson]
  · simp only [strMember, List.map_cons, List.map_nil]
    decide +kernel

/-- The two replies that give a reason. -/
theorem reads_reject (typ : Bytes) {head : Bytes} (cid reason ts : Bytes)
    (hhead : head = 123 :: (memberText ("type", quoteJson typ) ++
      44 :: (quoteJson (ascii "client_order_id") ++ [58]))) :
    Reads (head ++ quoteJson cid ++ ascii ",\"reason\":" ++ quoteJson reason ++
        ascii ",\"ts\":" ++ quoteJson ts ++ ascii "\x7d")
      [(ascii "type", .str typ), (ascii "client_order_id", .str cid),
        (ascii "reason", .str reason), (ascii "ts", .str ts)] := by
  refine reads_object [strMember "type" typ, strMember "client_order_id" cid,
    strMember "reason" reason, strMember "ts" ts] (List.cons_ne_nil _ _) ?_ ?_ ?_
  · rw [hhead, reason_text, ts_text, closing_text]
    simp [membersText, memberText, strMember]
  · simp [strMember, isValue_quoteJson]
  · simp only [strMember, List.map_cons, List.map_nil]
    decide +kernel

theorem reads_encodeFill (eid cid : Bytes) (q p r : UInt32) (ts : Bytes) :
    Reads (encodeFill eid cid q p r ts)
      [(ascii "type", .str (ascii "FILL")), (ascii "exchange_order_id", .str eid),
        (ascii "client_order_id", .str cid), (ascii "fill_qty", .num q.toNat),
        (ascii "fill_price", .num ((p.toNat : ℚ) / 100)), (ascii "remaining_qty", .num r.toNat),
        (ascii "ts", .str ts)] := by
  have hhead : ascii "\x7b\"type\":\"FILL\",\"exchange_order_id\":" =
      123 :: (memberText ("type", quoteJson (ascii "FILL")) ++
        44 :: (quoteJson (ascii "exchange_order_id") ++ [58])) := rfl
  refine reads_object [strMember "type" (ascii "FILL"), strMember "exchange_order_id" eid,
    strMember "client_order_id" cid, natMember "fill_qty" q.toNat,
    ("fill_price", ticksToDecimal p, .num ((p.toNat : ℚ) / 100)),
    natMember "remaining_qty" r.toNat, strMember "ts" ts] (List.cons_ne_nil _ _) ?_ ?_ ?_
  · rw [encodeFill, hhead, clientOrderId_text, fillQty_text, fillPrice_text, remainingQty_text,
      ts_text, closing_text]
    simp [membersText, memberText, strMember, natMember]
  · simp [strMember, natMember, isValue_quoteJson, isValue_ticksToDecimal, Json.isValue_nat]
  · simp only [strMember, natMember, List.map_cons, List.map_nil]
    decide +kernel

theorem reads_encodeHeartbeat (seq : UInt64) (ts : Bytes) : Reads (encodeHeartbeat seq ts)
    [(ascii "type", .str (ascii "HEARTBEAT")), (ascii "seq", .num seq.toNat),
      (ascii "ts", .str ts)] := by
  have hhead : ascii "\x7b\"type\":\"HEARTBEAT\",\"seq\":" =
      123 :: (memberText ("type", quoteJson (ascii "HEARTBEAT")) ++
        44 :: (quoteJson (ascii "seq") ++ [58])) := rfl
  refine reads_object [strMember "type" (ascii "HEARTBEAT"), natMember "seq" seq.toNat,
    strMember "ts" ts] (List.cons_ne_nil _ _) ?_ ?_ ?_
  · rw [encodeHeartbeat, hhead, ts_text, closing_text]
    simp [membersText, memberText, strMember, natMember]
  · simp [strMember, natMember, isValue_quoteJson, Json.isValue_nat]
  · simp only [strMember, natMember, List.map_cons, List.map_nil]
    decide +kernel

/-- The value of a price, null where there is none. -/
def priceValue (has : Bool) (ticks : UInt32) : Json.Value :=
  if has then .num ((ticks.toNat : ℚ) / 100) else .null

theorem isValue_price (has : Bool) (ticks : UInt32) :
    Json.IsValue (if has then ticksToDecimal ticks else ascii "null") (priceValue has ticks) := by
  cases has with
  | true => exact isValue_ticksToDecimal ticks
  | false =>
    have hnull : ascii "null" = [110, 117, 108, 108] := rfl
    rw [if_neg Bool.false_ne_true, hnull]
    exact Json.isValue_null

theorem reads_encodeMarketData (symbol : Bytes) (hasBid : Bool) (bidTicks : UInt32) (hasAsk : Bool)
    (askTicks : UInt32) (hasLast : Bool) (lastTicks : UInt32) (ts : Bytes) :
    Reads (encodeMarketData symbol hasBid bidTicks hasAsk askTicks hasLast lastTicks ts)
      [(ascii "type", .str (ascii "MARKET_DATA")), (ascii "symbol", .str symbol),
        (ascii "best_bid", priceValue hasBid bidTicks),
        (ascii "best_ask", priceValue hasAsk askTicks),
        (ascii "last_trade", priceValue hasLast lastTicks), (ascii "ts", .str ts)] := by
  have hhead : ascii "\x7b\"type\":\"MARKET_DATA\",\"symbol\":" =
      123 :: (memberText ("type", quoteJson (ascii "MARKET_DATA")) ++
        44 :: (quoteJson (ascii "symbol") ++ [58])) := rfl
  refine reads_object [strMember "type" (ascii "MARKET_DATA"), strMember "symbol" symbol,
    ("best_bid", if hasBid then ticksToDecimal bidTicks else ascii "null",
      priceValue hasBid bidTicks),
    ("best_ask", if hasAsk then ticksToDecimal askTicks else ascii "null",
      priceValue hasAsk askTicks),
    ("last_trade", if hasLast then ticksToDecimal lastTicks else ascii "null",
      priceValue hasLast lastTicks), strMember "ts" ts] (List.cons_ne_nil _ _) ?_ ?_ ?_
  · rw [encodeMarketData, hhead, bestBid_text, bestAsk_text, lastTrade_text, ts_text, closing_text]
    simp [membersText, memberText, strMember]
  · simp [strMember, isValue_quoteJson, isValue_price]
  · simp only [strMember, List.map_cons, List.map_nil]
    decide +kernel

end Texts

/-- Whatever the strings and numbers, every message is one flat object with the intended members,
each once and with the given values. -/
theorem encoders_round_trip :
    (∀ cid eid ts, Reads (encodeAck cid eid ts)
      [(ascii "type", .str (ascii "ACK")), (ascii "client_order_id", .str cid),
        (ascii "exchange_order_id", .str eid), (ascii "ts", .str ts)]) ∧
    (∀ cid reason ts, Reads (encodeReject cid reason ts)
      [(ascii "type", .str (ascii "REJECT")), (ascii "client_order_id", .str cid),
        (ascii "reason", .str reason), (ascii "ts", .str ts)]) ∧
    (∀ cid eid ts, Reads (encodeCancelAck cid eid ts)
      [(ascii "type", .str (ascii "CANCEL_ACK")), (ascii "client_order_id", .str cid),
        (ascii "exchange_order_id", .str eid), (ascii "ts", .str ts)]) ∧
    (∀ cid reason ts, Reads (encodeCancelReject cid reason ts)
      [(ascii "type", .str (ascii "CANCEL_REJECT")), (ascii "client_order_id", .str cid),
        (ascii "reason", .str reason), (ascii "ts", .str ts)]) ∧
    (∀ eid cid q p r ts, Reads (encodeFill eid cid q p r ts)
      [(ascii "type", .str (ascii "FILL")), (ascii "exchange_order_id", .str eid),
        (ascii "client_order_id", .str cid), (ascii "fill_qty", .num q.toNat),
        (ascii "fill_price", .num ((p.toNat : ℚ) / 100)), (ascii "remaining_qty", .num r.toNat),
        (ascii "ts", .str ts)]) ∧
    (∀ seq ts, Reads (encodeHeartbeat seq ts)
      [(ascii "type", .str (ascii "HEARTBEAT")), (ascii "seq", .num seq.toNat),
        (ascii "ts", .str ts)]) ∧
    ∀ symbol hasBid bid hasAsk ask hasLast last ts,
      Reads (encodeMarketData symbol hasBid bid hasAsk ask hasLast last ts)
        [(ascii "type", .str (ascii "MARKET_DATA")), (ascii "symbol", .str symbol),
          (ascii "best_bid", priceValue hasBid bid), (ascii "best_ask", priceValue hasAsk ask),
          (ascii "last_trade", priceValue hasLast last), (ascii "ts", .str ts)] := by
  refine ⟨fun cid eid ts => ?_, fun cid reason ts => ?_, fun cid eid ts => ?_,
    fun cid reason ts => ?_, reads_encodeFill, reads_encodeHeartbeat, reads_encodeMarketData⟩
  · exact reads_ack (ascii "ACK") cid eid ts rfl
  · exact reads_reject (ascii "REJECT") cid reason ts rfl
  · exact reads_ack (ascii "CANCEL_ACK") cid eid ts rfl
  · exact reads_reject (ascii "CANCEL_REJECT") cid reason ts rfl

end MarketMakerOps.Exchange
