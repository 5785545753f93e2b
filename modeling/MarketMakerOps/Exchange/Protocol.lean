import MarketMakerOps.Lib.Decimal
import MarketMakerOps.Engine.Types
import Mathlib.Data.List.AList

/-!
The wire protocol (`venue/protocol.cpp`): the flat JSON parser, the recovered
request, and the messages the venue sends.

A parser reads a byte string and returns its value with the unread suffix. A
`has*` flag with its field is an option. Outbound messages keep their fields;
their timestamp is left out.
-/

namespace MarketMakerOps.Exchange

open Decimal

abbrev ConnId := UInt64

/-- The protocol's own enumeration of the two sides; `toEngineSide` is the identity. -/
abbrev OrderSide := Engine.Side

/-- The bytes of an ASCII text. -/
def ascii (s : String) : Bytes := s.toList.map fun c => UInt8.ofNat c.toNat

/-! ## The JSON subset -/

inductive JsonValue
  | str (s : Bytes)
  | num (raw : Bytes)
  deriving DecidableEq, Repr

/-- Space, tab, carriage return, line feed. -/
def isWs (c : UInt8) : Bool := c = 32 ∨ c = 9 ∨ c = 13 ∨ c = 10

def skipWs (s : Bytes) : Bytes := s.dropWhile isWs

/-- The byte an escape stands for: quote, backslash, slash, `n`, `t`, `r`. -/
def unescape (e : UInt8) : Option UInt8 :=
  if e = 34 ∨ e = 92 ∨ e = 47 then some e
  else if e = 110 then some 10
  else if e = 116 then some 9
  else if e = 114 then some 13
  else none

/-- The rest of a string, after its opening quote. -/
def stringBody : Bytes → Option (Bytes × Bytes)
  | [] => none
  | c :: s =>
    if c = 34 then some ([], s)
    else if c = 92 then
      match s with
      | [] => none
      | e :: s => do
        let d ← unescape e
        let (out, s) ← stringBody s
        pure (d :: out, s)
    else do
      let (out, s) ← stringBody s
      pure (c :: out, s)

def parseString : Bytes → Option (Bytes × Bytes)
  | [] => none
  | c :: s => if c = 34 then stringBody s else none

/-- An optional minus sign. -/
def parseSign : Bytes → Bytes × Bytes
  | [] => ([], [])
  | c :: s => if c = 45 then ([c], s) else ([], c :: s)

/-- The raw number: a sign, digits, and a fraction after a point. -/
def parseNumber (s : Bytes) : Option (Bytes × Bytes) :=
  let (sign, s) := parseSign s
  let int := s.takeWhile isDigit
  if int = [] then none else
  match s.dropWhile isDigit with
  | [] => some (sign ++ int, [])
  | c :: t =>
    if c = 46 then
      let frac := t.takeWhile isDigit
      if frac = [] then none else some (sign ++ int ++ c :: frac, t.dropWhile isDigit)
    else some (sign ++ int, c :: t)

def parseValue : Bytes → Option (JsonValue × Bytes)
  | [] => none
  | c :: s =>
    if c = 34 then do
      let (out, s) ← stringBody s
      pure (.str out, s)
    else do
      let (raw, s) ← parseNumber (c :: s)
      pure (.num raw, s)

/-- The members of an object; a later member replaces an earlier one of the same key. -/
abbrev JsonObject := AList fun _ : Bytes => JsonValue

/-- The members up to the closing brace. Each round reads a byte, so `fuel` bounds the rounds. -/
def parseMembers : Nat → JsonObject → Bytes → Option (JsonObject × Bytes)
  | 0, _, _ => none
  | fuel + 1, obj, s => do
    let (key, s) ← parseString (skipWs s)
    match skipWs s with
    | [] => none
    | c :: s =>
      if c ≠ 58 then none else do
        let (v, s) ← parseValue (skipWs s)
        match skipWs s with
        | [] => none
        | c :: s =>
          if c = 44 then parseMembers fuel (obj.insert key v) s
          else if c = 125 then some (obj.insert key v, s)
          else none

def parseFlatObject (s : Bytes) : Option JsonObject :=
  match skipWs s with
  | [] => none
  | c :: s =>
    if c ≠ 123 then none else
    match skipWs s with
    | [] => none
    | c :: t =>
      if c = 125 then (if skipWs t = [] then some ∅ else none)
      else do
        let (obj, s) ← parseMembers (s.length + 1) ∅ s
        if skipWs s = [] then some obj else none

/-! ## Numbers -/

/-- Accumulate digits, giving up beyond 32 bits. -/
def accumulate : UInt64 → Bytes → Option UInt64
  | v, [] => some v
  | v, c :: s =>
    if !isDigit c then none else
    let v := v * 10 + (c - 48).toUInt64
    if v > 0xFFFFFFFF then none else accumulate v s

def parseUint32 (raw : Bytes) : Option UInt32 :=
  if raw = [] then none else (accumulate 0 raw).map UInt64.toUInt32

/-- A decimal with at most two places, in hundredths. -/
def parseDecimalToTicks (raw : Bytes) : Option UInt32 :=
  if raw.head? = none ∨ raw.head? = some 45 then none else
  let intPart := raw.takeWhile (· ≠ 46)
  let fracPart := (raw.dropWhile (· ≠ 46)).drop 1
  if intPart = [] ∨ 2 < fracPart.length then none else
  match fracPart ++ List.replicate (2 - fracPart.length) 48 with
  | [f₀, f₁] =>
    if !isDigit f₀ || !isDigit f₁ then none else do
      let whole ← accumulate 0 intPart
      let frac := (f₀ - 48).toUInt64 * 10 + (f₁ - 48).toUInt64
      let ticks := whole * 100 + frac
      if ticks > 0xFFFFFFFF then none else some ticks.toUInt32
  | _ => none

/-! ## Requests -/

inductive MsgType
  | newOrder
  | cancel
  | heartbeat
  | unknown
  deriving DecidableEq, Repr

/-- What made a payload unreadable. -/
inductive ParseError
  | json
  | type
  deriving DecidableEq, Repr

structure InboundMessage where
  type : MsgType
  clientOrderId : Option Bytes
  symbol : Option Bytes
  side : Option OrderSide
  priceTicks : Option UInt32
  qty : Option UInt32
  parseError : Option ParseError
  deriving DecidableEq, Repr

/-- A message with nothing recovered. -/
def InboundMessage.failed (e : ParseError) : InboundMessage :=
  ⟨.unknown, none, none, none, none, none, some e⟩

def msgType (t : Bytes) : MsgType :=
  if t = ascii "NEW_ORDER" then .newOrder
  else if t = ascii "CANCEL" then .cancel
  else if t = ascii "HEARTBEAT" then .heartbeat
  else .unknown

def JsonObject.str? (obj : JsonObject) (key : String) : Option Bytes :=
  match obj.lookup (ascii key) with
  | some (.str s) => some s
  | _ => none

def JsonObject.num? (obj : JsonObject) (key : String) : Option Bytes :=
  match obj.lookup (ascii key) with
  | some (.num raw) => some raw
  | _ => none

def parseSide (s : Bytes) : Option OrderSide :=
  if s = ascii "BUY" then some .buy else if s = ascii "SELL" then some .sell else none

def parseInbound (line : Bytes) : InboundMessage :=
  match parseFlatObject line with
  | none => .failed .json
  | some obj =>
    match obj.str? "type" with
    | none => .failed .type
    | some t =>
      { type := msgType t
        clientOrderId := obj.str? "client_order_id"
        symbol := obj.str? "symbol"
        side := obj.str? "side" >>= parseSide
        priceTicks := obj.num? "price" >>= parseDecimalToTicks
        qty := obj.num? "qty" >>= parseUint32
        parseError := none }

/-! ## Replies -/

inductive RejectReason
  | malformed
  | unsupported
  | missingClientOrderId
  | unknownSymbol
  | badSide
  | badPrice
  | badQty
  | duplicateClientOrderId
  | venueFull
  | selfMatch
  deriving DecidableEq, Repr

def RejectReason.text : RejectReason → String
  | .malformed => "malformed"
  | .unsupported => "unsupported"
  | .missingClientOrderId => "missing_client_order_id"
  | .unknownSymbol => "unknown_symbol"
  | .badSide => "bad_side"
  | .badPrice => "bad_price"
  | .badQty => "bad_qty"
  | .duplicateClientOrderId => "duplicate_client_order_id"
  | .venueFull => "venue_full"
  | .selfMatch => "self_match"

inductive CancelRejectReason
  | notFound
  | alreadyFilled
  | alreadyCancelled
  deriving DecidableEq, Repr

def CancelRejectReason.text : CancelRejectReason → String
  | .notFound => "not_found"
  | .alreadyFilled => "already_filled"
  | .alreadyCancelled => "already_cancelled"

/-- A message to a client. -/
inductive Outbound
  | ack (clientOrderId exchangeId : Bytes)
  | reject (clientOrderId : Bytes) (reason : RejectReason)
  | cancelAck (clientOrderId exchangeId : Bytes)
  | cancelReject (clientOrderId : Bytes) (reason : CancelRejectReason)
  | fill (exchangeId clientOrderId : Bytes) (fillQty fillPriceTicks remainingQty : UInt32)
  deriving DecidableEq, Repr

/-- The exchange id of an engine id. -/
def exchangeId (engineId : UInt64) : Bytes := ascii "e-" ++ toDecimal engineId.toNat

theorem exchangeId_inj {m n : UInt64} : exchangeId m = exchangeId n ↔ m = n := by
  rw [exchangeId, exchangeId, List.append_cancel_left_eq, toDecimal_inj, UInt64.toNat_inj]

end MarketMakerOps.Exchange
