import MarketMakerOps.Exchange.Encoding
import MarketMakerOps.Exchange.Requests

/-!
The requests of the Python clients with any strings in them (`venue_client/protocol.py`,
`venue_client/client.py`, `market_maker/main.py`): `json.dumps` escapes what is not
printable ASCII, and the venue undoes some of its escapes.

* `escapeChar`, `quoteString`: `json.dumps` of a string;
* `isLegible`: the characters the venue's parser undoes;
* `newOrderDict`, `cancelDict`, `jsonDumps`: the requests and their payloads;
* `requests_survive_iff`: they are recovered just when their run id is legible and their
  price is not the negative zero.
-/

namespace MarketMakerOps.Exchange

open Decimal

/-! ## Strings -/

/-- `\u` and four hexadecimal digits. -/
def uEscape (n : Nat) : Bytes :=
  [92, 117, hexDigit (n / 4096 % 16), hexDigit (n / 256 % 16), hexDigit (n / 16 % 16),
    hexDigit (n % 16)]

/-- One character of a string: the short escapes, printable ASCII as it is, and `\u` for the rest,
as a surrogate pair beyond the first plane. -/
def escapeChar (c : Char) : Bytes :=
  if c = '"' then [92, 34]
  else if c = '\\' then [92, 92]
  else if c = '\n' then [92, 110]
  else if c = '\r' then [92, 114]
  else if c = '\t' then [92, 116]
  else if c.toNat = 12 then [92, 102]
  else if c.toNat = 8 then [92, 98]
  else if 32 ≤ c.toNat ∧ c.toNat ≤ 126 then [UInt8.ofNat c.toNat]
  else if c.toNat < 0x10000 then uEscape c.toNat
  else
    let n := c.toNat - 0x10000
    uEscape (0xd800 + n / 1024) ++ uEscape (0xdc00 + n % 1024)

def quoteString (s : List Char) : Bytes := 34 :: (s.flatMap escapeChar ++ [34])

/-- The UTF-8 bytes of a string. -/
def utf8 (s : List Char) : Bytes := s.flatMap String.utf8EncodeChar

/-- Printable ASCII, line feed, carriage return, tab. -/
def isLegible (c : Char) : Bool :=
  (32 ≤ c.toNat ∧ c.toNat ≤ 126) ∨ c = '\n' ∨ c = '\r' ∨ c = '\t'

/-- All characters are legible. -/
def allLegible (s : List Char) : Bool := s.all isLegible

theorem allLegible_iff {s : List Char} : allLegible s = true ↔ ∀ c ∈ s, isLegible c = true :=
  List.all_eq_true

section Bodies

variable {c : Char} {s : Bytes}

theorem stringBody_unescape {e d : UInt8} (h : unescape e = some d) (s : Bytes) :
    stringBody (92 :: e :: s) = (stringBody s).map fun x => (d :: x.1, x.2) := by
  rw [stringBody.eq_def]
  simp only [if_neg (show ¬(92 : UInt8) = 34 by decide), if_true, h, Option.bind_eq_bind,
    Option.bind_some]
  cases stringBody s <;> rfl

theorem stringBody_unescape_none {e : UInt8} (h : unescape e = none) (s : Bytes) :
    stringBody (92 :: e :: s) = none := by
  rw [stringBody.eq_def]
  simp only [if_neg (show ¬(92 : UInt8) = 34 by decide), if_true, h]
  rfl

theorem stringBody_byte {b : UInt8} (h34 : b ≠ 34) (h92 : b ≠ 92) (s : Bytes) :
    stringBody (b :: s) = (stringBody s).map fun x => (b :: x.1, x.2) := by
  rw [stringBody.eq_def]
  simp only [h34, h92, if_false]
  cases stringBody s <;> rfl

/-- A legible character is read back as its byte. -/
theorem stringBody_legible (h : isLegible c = true) (s : Bytes) :
    stringBody (escapeChar c ++ s) =
      (stringBody s).map fun x => (UInt8.ofNat c.toNat :: x.1, x.2) := by
  unfold escapeChar
  by_cases hquote : c = '"'
  · rw [if_pos hquote, hquote]
    exact stringBody_unescape rfl s
  by_cases hslash : c = '\\'
  · rw [if_neg hquote, if_pos hslash, hslash]
    exact stringBody_unescape rfl s
  by_cases hlf : c = '\n'
  · rw [if_neg hquote, if_neg hslash, if_pos hlf, hlf]
    exact stringBody_unescape rfl s
  by_cases hcr : c = '\r'
  · rw [if_neg hquote, if_neg hslash, if_neg hlf, if_pos hcr, hcr]
    exact stringBody_unescape rfl s
  by_cases htab : c = '\t'
  · rw [if_neg hquote, if_neg hslash, if_neg hlf, if_neg hcr, if_pos htab, htab]
    exact stringBody_unescape rfl s
  · simp only [isLegible, hlf, hcr, htab, or_false, decide_eq_true_eq] at h
    have hval : (UInt8.ofNat c.toNat).toNat = c.toNat :=
      UInt8.toNat_ofNat_of_lt' (show c.toNat < 256 by omega)
    have hne : ∀ d : Char, c ≠ d → d.toNat < 256 → UInt8.ofNat c.toNat ≠ UInt8.ofNat d.toNat := by
      intro d hd hlt heq
      have hnat := congrArg UInt8.toNat heq
      rw [hval, UInt8.toNat_ofNat_of_lt' hlt] at hnat
      exact hd (Char.toNat_inj.mp hnat)
    simp only [hquote, hslash, hlf, hcr, htab, if_false, if_neg (show ¬c.toNat = 12 by omega),
      if_neg (show ¬c.toNat = 8 by omega), if_pos h]
    exact stringBody_byte (hne '"' hquote (by decide)) (hne '\\' hslash (by decide)) s

/-- Any other character makes the string unreadable: its escape is none the venue knows. -/
theorem stringBody_illegible (h : isLegible c = false) (s : Bytes) :
    stringBody (escapeChar c ++ s) = none := by
  simp only [isLegible, decide_eq_false_iff_not, not_or] at h
  obtain ⟨hprint, hlf, hcr, htab⟩ := h
  have hquote : c ≠ '"' := by
    rintro rfl
    exact hprint (by decide)
  have hslash : c ≠ '\\' := by
    rintro rfl
    exact hprint (by decide)
  simp only [escapeChar, hquote, hslash, hlf, hcr, htab, hprint, if_false]
  split
  · exact stringBody_unescape_none rfl s
  · split
    · exact stringBody_unescape_none rfl s
    · split
      · exact stringBody_unescape_none rfl _
      · exact stringBody_unescape_none rfl _

theorem toNat_of_isLegible (h : isLegible c = true) : c.toNat ≤ 127 := by
  simp only [isLegible, decide_eq_true_eq] at h
  rcases h with h | rfl | rfl | rfl
  · omega
  · decide
  · decide
  · decide

/-- A legible character is a single byte of UTF-8. -/
theorem utf8EncodeChar_legible (h : isLegible c = true) :
    String.utf8EncodeChar c = [UInt8.ofNat c.toNat] := if_pos (toNat_of_isLegible h)

end Bodies

/-- A string up to its closing quote. -/
theorem stringBody_quoteString (s : List Char) (t : Bytes) :
    stringBody (s.flatMap escapeChar ++ 34 :: t) =
      if allLegible s then some (utf8 s, t) else none := by
  induction s with
  | nil =>
    rw [stringBody.eq_def]
    rfl
  | cons c s ih =>
    have hall : allLegible (c :: s) = (isLegible c && allLegible s) := List.all_cons
    rw [List.flatMap_cons, List.append_assoc, hall]
    cases hc : isLegible c with
    | false => rw [stringBody_illegible hc, Bool.false_and, if_neg Bool.false_ne_true]
    | true =>
      rw [stringBody_legible hc, ih, Bool.true_and]
      split
      · have hutf8 : utf8 (c :: s) = UInt8.ofNat c.toNat :: utf8 s := by
          rw [utf8, List.flatMap_cons, utf8EncodeChar_legible hc]
          rfl
        rw [Option.map_some, hutf8]
      · rfl

/-! ## Dictionaries -/

/-- A value of a request: a string, or a number with its literal. -/
inductive PyValue
  | str (s : List Char)
  | num (n : Numeral)

def PyValue.dump : PyValue → Bytes
  | .str s => quoteString s
  | .num n => n.bytes

/-- What the venue's parser makes of a value, if it can read it. -/
def PyValue.json : PyValue → Option JsonValue
  | .str s => if allLegible s then some (.str (utf8 s)) else none
  | .num n => some (.num n.bytes)

abbrev PyMember := Text × PyValue

/-- `json.dumps` of a flat dictionary, which `encode_frame` takes as its payload. -/
def jsonDumps (d : List PyMember) : Bytes := 123 :: (joinMembers PyValue.dump d ++ [125])

theorem readable_pyDump : Readable PyValue.dump PyValue.json := by
  refine ⟨fun v t => ?_, fun v c hc t => ?_⟩
  · cases v with
    | str s => rfl
    | num n => exact skipWs_dump (.number n) t
  · cases v with
    | str s =>
      have h := stringBody_quoteString s (c :: t)
      simp only [PyValue.dump, PyValue.json, quoteString, List.cons_append, List.append_assoc,
        List.nil_append, parseValue, if_true, h]
      split <;> rfl
    | num n => exact parseValue_dump (.number n) hc t

/-- A float that is a whole number of cents, from zero to the largest price of 32 bits; zero comes
with either sign. -/
structure CentPrice where
  cents : UInt32
  negative : Bool
  zero : negative = true → cents = 0

/-- The literal of so many cents with a sign of its own, the shortest
that reads back as the float. -/
def signedNumeral (negative : Bool) (cents : Nat) : Numeral :=
  ⟨negative, cents / 100, centDigits (cents % 100), isDigit_centDigits (Nat.mod_lt _ (by decide))⟩

def CentPrice.numeral (p : CentPrice) : Numeral := signedNumeral p.negative p.cents.toNat

/-- `now_iso` at a time. -/
def nowIso (t : UtcTime) : List Char := (isoTimestamp t).map fun b => Char.ofNat b.toNat

/-- The `n`-th id that `make_client_order_id` generates. -/
def makeClientOrderId (head runId : List Char) (pid n : Nat) : List Char :=
  head ++ '-' :: (if runId = [] then Nat.toDigits 10 pid else runId) ++ '-' :: Nat.toDigits 10 n

def sideString : OrderSide → List Char
  | .buy => "BUY".toList
  | .sell => "SELL".toList

/-- `_new_order`. -/
def newOrderDict (clientOrderId : List Char) (side : OrderSide) (price : Numeral) (qty : Nat)
    (t : UtcTime) : List PyMember :=
  [(typeKey, .str "NEW_ORDER".toList), (clientOrderIdKey, .str clientOrderId),
    (symbolKey, .str "SIM1".toList), (sideKey, .str (sideString side)), (priceKey, .num price),
    (qtyKey, .num (intNumeral qty)), (tsKey, .str (nowIso t))]

/-- `_cancel`. -/
def cancelDict (clientOrderId : List Char) (t : UtcTime) : List PyMember :=
  [(typeKey, .str "CANCEL".toList), (clientOrderIdKey, .str clientOrderId),
    (tsKey, .str (nowIso t))]

/-! ## Reading them back -/

theorem isPlain_of_isDigit {c : UInt8} (h : isDigit c = true) : isPlain c = true := by
  simp only [isDigit, isPlain, UInt8.le_iff_toNat_le, UInt8.lt_iff_toNat_lt, decide_eq_true_eq,
    ne_eq, ← UInt8.toNat_inj] at h ⊢
  simp only [UInt8.reduceToNat] at h ⊢
  omega

theorem isDigit_padded (k n : Nat) : ∀ c ∈ padded k n, isDigit c = true := by
  induction k generalizing n with
  | zero => simp [padded]
  | succ k ih =>
    intro c hc
    rw [padded, List.mem_append, List.mem_singleton] at hc
    rcases hc with hc | rfl
    · exact ih _ c hc
    · exact isDigit_digit (Nat.mod_lt _ (by decide))

/-- A timestamp needs no escape. -/
theorem isPlain_isoTimestamp (t : UtcTime) : ∀ c ∈ isoTimestamp t, isPlain c = true := by
  have hp : ∀ k n, ∀ c ∈ padded k n, isPlain c = true := fun k n c hc =>
    isPlain_of_isDigit (isDigit_padded k n c hc)
  have h1 : ∀ d : UInt8, isPlain d = true → ∀ c ∈ [d], isPlain c = true := fun d hd c hc =>
    (List.mem_singleton.mp hc) ▸ hd
  simp only [isoTimestamp, List.forall_mem_append]
  refine ⟨⟨⟨⟨⟨⟨⟨⟨⟨⟨⟨⟨⟨hp _ _, ?_⟩, hp _ _⟩, ?_⟩, hp _ _⟩, ?_⟩, hp _ _⟩, ?_⟩, hp _ _⟩, ?_⟩,
    hp _ _⟩, ?_⟩, hp _ _⟩, ?_⟩ <;> exact h1 _ (by decide)

theorem isLegible_of_plain {b : UInt8} (h : isPlain b = true) :
    isLegible (Char.ofNat b.toNat) = true := by
  simp only [isPlain, UInt8.le_iff_toNat_le, UInt8.lt_iff_toNat_lt, decide_eq_true_eq] at h
  simp only [UInt8.reduceToNat] at h
  have hval : (Char.ofNat b.toNat).toNat = b.toNat := by
    rw [Char.ofNat, dif_pos (Or.inl (by omega))]
    rfl
  simp only [isLegible, hval, decide_eq_true_eq]
  exact Or.inl (by omega)

theorem isLegible_nowIso (t : UtcTime) : ∀ c ∈ nowIso t, isLegible c = true := by
  intro c hc
  obtain ⟨b, hb, rfl⟩ := List.mem_map.mp hc
  exact isLegible_of_plain (isPlain_isoTimestamp t b hb)

theorem isLegible_toDigits (n : Nat) : ∀ c ∈ Nat.toDigits 10 n, isLegible c = true := by
  intro c hc
  have hdigit := Nat.isDigit_of_mem_toDigits (by decide) (by decide) hc
  simp only [Char.isDigit, Bool.and_eq_true, decide_eq_true_eq] at hdigit
  have hrange : 48 ≤ c.toNat ∧ c.toNat ≤ 57 := hdigit
  simp only [isLegible, decide_eq_true_eq]
  exact Or.inl (by omega)

/-- An id is legible just when its run id is: the process id and the sequence number are. -/
theorem isLegible_clientOrderId {head : List Char} (hhead : ∀ c ∈ head, isLegible c = true)
    (runId : List Char) (pid n : Nat) :
    (∀ c ∈ makeClientOrderId head runId pid n, isLegible c = true) ↔
      ∀ c ∈ runId, isLegible c = true := by
  have hdash : isLegible '-' = true := by decide
  have hn := isLegible_toDigits n
  unfold makeClientOrderId
  by_cases hrun : runId = []
  · simp only [hrun, if_true, List.forall_mem_append, List.forall_mem_cons, hdash, true_and]
    exact ⟨fun _ c hc => absurd hc List.not_mem_nil, fun _ => ⟨⟨hhead, isLegible_toDigits pid⟩, hn⟩⟩
  · simp only [hrun, if_false, List.forall_mem_append, List.forall_mem_cons, hdash, true_and]
    exact ⟨fun h => h.1.2, fun h => ⟨⟨hhead, h⟩, hn⟩⟩

theorem isLegible_makeClientOrderId (runId : List Char) (pid n : Nat) :
    (∀ c ∈ makeClientOrderId "mm".toList runId pid n, isLegible c = true) ↔
      ∀ c ∈ runId, isLegible c = true :=
  isLegible_clientOrderId (allLegible_iff.mp (by decide +kernel)) runId pid n

/-! ## Prices -/

/-- The venue reads cents back, except for a minus sign. -/
theorem parseDecimalToTicks_signed (negative : Bool) (cents : Nat) :
    parseDecimalToTicks (signedNumeral negative cents).bytes =
      if negative then none else toUint32? cents := by
  cases negative with
  | true =>
    have hbytes : (signedNumeral true cents).bytes.head? = some 45 := rfl
    rw [parseDecimalToTicks, if_pos (Or.inr hbytes)]
    rfl
  | false =>
    have hsign : ¬(cents : Int) < 0 := Int.not_lt.mpr (Int.natCast_nonneg _)
    have hnumeral : signedNumeral false cents = priceNumeral cents := by
      simp only [signedNumeral, priceNumeral, decide_eq_false hsign, Int.natAbs_natCast]
    rw [hnumeral, parseDecimalToTicks_price, ticks?, if_neg hsign, Int.toNat_natCast]
    rfl

theorem toUint32?_toNat (q : UInt32) : toUint32? q.toNat = some q := by
  have hlt := q.toNat_lt
  rw [toUint32?, if_pos (by unfold uint32Max; omega), UInt32.ofNat_toNat]

theorem parseDecimalToTicks_numeral (p : CentPrice) : parseDecimalToTicks p.numeral.bytes =
    if p.negative then none else some p.cents := by
  rw [CentPrice.numeral, parseDecimalToTicks_signed, toUint32?_toNat]

theorem parseUint32_toNat (q : UInt32) : parseUint32 (intNumeral q.toNat).bytes = some q := by
  rw [parseUint32_int, toUint32?_toNat]

/-! ## Requests -/

section Requests

variable (cid : List Char) (t : UtcTime)

theorem json_str {s : List Char} (h : ∀ c ∈ s, isLegible c = true) :
    PyValue.json (.str s) = some (.str (utf8 s)) := if_pos (allLegible_iff.mpr h)

theorem parseInbound_illegible {d : List PyMember} {m : PyMember} (hm : m ∈ d)
    (hjson : m.2.json = none) : parseInbound (jsonDumps d) = .failed .json := by
  have hparse : parseFlatObject (jsonDumps d) = none := by
    rw [jsonDumps, parseFlatObject_join readable_pyDump (List.ne_nil_of_mem hm),
      collect_eq_none hm hjson]
  rw [parseInbound, hparse]

theorem parseInbound_newOrderDict (side : OrderSide) (price : Numeral) (qty : Nat) :
    parseInbound (jsonDumps (newOrderDict cid side price qty t)) =
      if allLegible cid then
        ⟨.newOrder, some (utf8 cid), some SYMBOL.bytes, some side, parseDecimalToTicks price.bytes,
          parseUint32 (intNumeral qty).bytes, none⟩
      else .failed .json := by
  split
  · next hcid =>
    have hcid := allLegible_iff.mp hcid
    have htype := json_str (s := "NEW_ORDER".toList) (allLegible_iff.mp (by decide +kernel))
    have hsymbol := json_str (s := "SIM1".toList) (allLegible_iff.mp (by decide +kernel))
    have hside : PyValue.json (.str (sideString side)) = some (.str (sideText side).bytes) := by
      cases side <;> rfl
    set d := newOrderDict cid side price qty t with hd
    have hnd : (keys d).Nodup := by
      show [typeKey.bytes, clientOrderIdKey.bytes, symbolKey.bytes, sideKey.bytes, priceKey.bytes,
        qtyKey.bytes, tsKey.bytes].Nodup
      decide +kernel
    have hread : ∀ m ∈ d, ∃ v, m.2.json = some v := by
      simp only [hd, newOrderDict, List.forall_mem_cons]
      exact ⟨⟨_, htype⟩, ⟨_, json_str hcid⟩, ⟨_, hsymbol⟩, ⟨_, hside⟩, ⟨_, rfl⟩, ⟨_, rfl⟩,
        ⟨_, json_str (isLegible_nowIso t)⟩, fun m hm => absurd hm List.not_mem_nil⟩
    obtain ⟨obj, hobj⟩ := exists_collect ∅ hread
    have hlook : ∀ m ∈ d, obj.lookup m.1.bytes = m.2.json := fun m hm => lookup_collect hnd hobj hm
    simp only [hd, newOrderDict, List.forall_mem_cons] at hlook
    obtain ⟨ltype, lcid, lsymbol, lside, lprice, lqty, -⟩ := hlook
    have hparse : parseFlatObject (jsonDumps d) = some obj :=
      (parseFlatObject_join readable_pyDump (List.cons_ne_nil _ _)).trans hobj
    exact parseInbound_newOrder_of side hparse (ltype.trans htype) (lcid.trans (json_str hcid))
      (lsymbol.trans hsymbol) (lside.trans hside) lprice lqty
  · next hcid =>
    refine parseInbound_illegible (m := (clientOrderIdKey, .str cid)) ?_ (if_neg hcid)
    exact List.mem_cons_of_mem _ List.mem_cons_self

theorem parseInbound_cancelDict : parseInbound (jsonDumps (cancelDict cid t)) =
    if allLegible cid then ⟨.cancel, some (utf8 cid), none, none, none, none, none⟩
    else .failed .json := by
  split
  · next hcid =>
    have hcid := allLegible_iff.mp hcid
    have htype := json_str (s := "CANCEL".toList) (allLegible_iff.mp (by decide +kernel))
    set d := cancelDict cid t with hd
    have hkeys : keys d = [typeKey.bytes, clientOrderIdKey.bytes, tsKey.bytes] := rfl
    have hnd : (keys d).Nodup := by
      rw [hkeys]
      decide +kernel
    have hread : ∀ m ∈ d, ∃ v, m.2.json = some v := by
      simp only [hd, cancelDict, List.forall_mem_cons]
      exact ⟨⟨_, htype⟩, ⟨_, json_str hcid⟩, ⟨_, json_str (isLegible_nowIso t)⟩,
        fun m hm => absurd hm List.not_mem_nil⟩
    obtain ⟨obj, hobj⟩ := exists_collect ∅ hread
    have hlook : ∀ m ∈ d, obj.lookup m.1.bytes = m.2.json := fun m hm => lookup_collect hnd hobj hm
    simp only [hd, cancelDict, List.forall_mem_cons] at hlook
    obtain ⟨ltype, lcid, -⟩ := hlook
    have hnone : ∀ k ∈ [symbolKey, sideKey, priceKey, qtyKey], obj.lookup k.bytes = none := by
      intro k hk
      refine (lookup_collect_of_notMem ?_ hobj).trans (AList.lookup_empty _)
      rw [hkeys]
      simp only [List.mem_cons, List.not_mem_nil, or_false] at hk
      rcases hk with rfl | rfl | rfl | rfl <;> decide +kernel
    have hparse : parseFlatObject (jsonDumps d) = some obj :=
      (parseFlatObject_join readable_pyDump (List.cons_ne_nil _ _)).trans hobj
    exact parseInbound_cancel_of hparse (ltype.trans htype) (lcid.trans (json_str hcid)) hnone
  · next hcid =>
    refine parseInbound_illegible (m := (clientOrderIdKey, .str cid)) ?_ (if_neg hcid)
    exact List.mem_cons_of_mem _ List.mem_cons_self

end Requests

/-- The requests of a market maker are recovered, all fields of them, just when the run id is
legible and the price of the order is not the negative zero. -/
theorem requests_survive_iff (runId : List Char) (pid n : Nat) (side : OrderSide)
    (price : CentPrice) (qty : UInt32) (t : UtcTime) :
    (parseInbound (jsonDumps (newOrderDict (makeClientOrderId "mm".toList runId pid n) side
        price.numeral qty.toNat t)) =
      ⟨.newOrder, some (utf8 (makeClientOrderId "mm".toList runId pid n)), some (ascii "SIM1"),
        some side, some price.cents, some qty, none⟩ ↔
      (∀ c ∈ runId, isLegible c = true) ∧ price.negative = false) ∧
    (parseInbound (jsonDumps (cancelDict (makeClientOrderId "mm".toList runId pid n) t)) =
      ⟨.cancel, some (utf8 (makeClientOrderId "mm".toList runId pid n)), none, none, none, none,
        none⟩ ↔
      ∀ c ∈ runId, isLegible c = true) := by
  have hid := isLegible_makeClientOrderId runId pid n
  rw [parseInbound_newOrderDict, parseInbound_cancelDict, parseDecimalToTicks_numeral,
    parseUint32_toNat]
  by_cases hrun : ∀ c ∈ runId, isLegible c = true
  · have hsymbol : SYMBOL.bytes = ascii "SIM1" := rfl
    have hlegible := allLegible_iff.mpr (hid.mpr hrun)
    rw [if_pos hlegible, if_pos hlegible, hsymbol]
    cases price.negative with
    | true => exact ⟨⟨fun h => (by cases h), fun h => (by cases h.2)⟩, fun _ => hrun, fun _ => rfl⟩
    | false => exact ⟨⟨fun _ => ⟨hrun, rfl⟩, fun _ => rfl⟩, fun _ => hrun, fun _ => rfl⟩
  · have hnot := mt allLegible_iff.mp (mt hid.mp hrun)
    rw [if_neg hnot, if_neg hnot]
    exact ⟨⟨fun h => (by cases h), fun h => absurd h.1 hrun⟩, fun h => (by cases h),
      fun h => absurd h hrun⟩

/-- With an accented letter in the run id neither request is readable, whatever else it says. -/
theorem accented_requests_fail : ∃ runId : List Char, runId = "caf\u00e9".toList ∧
    (∀ price t, parseInbound (jsonDumps (newOrderDict (makeClientOrderId "mm".toList runId 1 1)
      .buy (CentPrice.numeral price) 10 t)) = .failed .json) ∧
    ∀ t, parseInbound (jsonDumps (cancelDict (makeClientOrderId "mm".toList runId 1 1) t)) =
      .failed .json := by
  have hid := isLegible_makeClientOrderId "caf\u00e9".toList 1 1
  have hrun : ¬∀ c ∈ "caf\u00e9".toList, isLegible c = true := by
    rw [← allLegible_iff]
    decide +kernel
  have hnot := mt allLegible_iff.mp (mt hid.mp hrun)
  refine ⟨_, rfl, fun price t => ?_, fun t => ?_⟩
  · rw [parseInbound_newOrderDict, if_neg hnot]
  · rw [parseInbound_cancelDict, if_neg hnot]

end MarketMakerOps.Exchange
