import MarketMakerOps.Exchange.Numbers

/-!
Requests as the Python clients write them (`venue_client/client.py`,
`market_maker/main.py`): `json.dumps` of a flat dictionary.

* `Text`: a string that JSON writes as it is; `Numeral`: a decimal literal;
* `dumps`: the payload of a list of members;
* `parseFlatObject_dumps`: the venue reads back the members;
* `parseInbound_newOrder`, `parseInbound_cancel`: what it recovers of a request.
-/

namespace MarketMakerOps.Exchange

open Decimal

/-! ## The dump -/

/-- Printable ASCII that needs no escape. -/
def isPlain (c : UInt8) : Bool := 32 ≤ c ∧ c < 127 ∧ c ≠ 34 ∧ c ≠ 92

/-- A string that JSON writes as it is. -/
structure Text where
  bytes : Bytes
  plain : ∀ c ∈ bytes, isPlain c = true

/-- A decimal literal; `frac` holds the digits after the point, if there is one. -/
structure Numeral where
  negative : Bool
  whole : Nat
  frac : Bytes
  digits : ∀ c ∈ frac, isDigit c = true

def Numeral.bytes (n : Numeral) : Bytes :=
  (if n.negative then [45] else []) ++ toDecimal n.whole ++
    (if n.frac = [] then [] else 46 :: n.frac)

/-- The value of a member. -/
inductive Value
  | text (t : Text)
  | number (n : Numeral)

/-- What the venue's parser makes of a value. -/
def Value.json : Value → JsonValue
  | .text t => .str t.bytes
  | .number n => .num n.bytes

def dumpText (t : Text) : Bytes := 34 :: (t.bytes ++ [34])

def Value.dump : Value → Bytes
  | .text t => dumpText t
  | .number n => n.bytes

abbrev Member := Text × Value

/-- A key, colon, space, and the value. -/
def dumpMember (m : Member) : Bytes := dumpText m.1 ++ 58 :: 32 :: m.2.dump

/-- The members, a comma and a space between them. -/
def dumpMembers : List Member → Bytes
  | [] => []
  | [m] => dumpMember m
  | m :: ms => dumpMember m ++ 44 :: 32 :: dumpMembers ms

/-- `json.dumps` of a flat dictionary. -/
def dumps (ms : List Member) : Bytes := 123 :: (dumpMembers ms ++ [125])

/-- The members as the venue keeps them. -/
def members (obj : JsonObject) (ms : List Member) : JsonObject :=
  ms.foldl (fun obj m => obj.insert m.1.bytes m.2.json) obj

/-! ## Reading it back -/

section Tokens

variable {s : Bytes} {c : UInt8}

theorem skipWs_of_not (h : isWs c = false) : skipWs (c :: s) = c :: s := by
  simp [skipWs, h]

theorem skipWs_space (s : Bytes) : skipWs (32 :: s) = skipWs s := rfl

/-- A plain string up to its closing quote. -/
theorem stringBody_plain (h : ∀ c ∈ s, isPlain c = true) (t : Bytes) :
    stringBody (s ++ 34 :: t) = some (s, t) := by
  induction s with
  | nil =>
    rw [List.nil_append, stringBody.eq_def]
    rfl
  | cons c s ih =>
    obtain ⟨hc, hs⟩ := List.forall_mem_cons.mp h
    simp only [isPlain, decide_eq_true_eq] at hc
    rw [List.cons_append, stringBody.eq_def]
    simp only [hc.2.2.1, hc.2.2.2, if_false, ih hs]
    rfl

theorem parseString_text (t : Text) (s : Bytes) :
    parseString (dumpText t ++ s) = some (t.bytes, s) := by
  have h := stringBody_plain t.plain s
  simpa [dumpText, parseString] using h

/-- A literal is a token without leading zeros. -/
def Numeral.token (n : Numeral) : NumberToken where
  negative := n.negative
  int := toDecimal n.whole
  frac := n.frac
  int_ne := toDecimal_ne_nil n.whole
  int_digits := isDigit_of_mem n.whole
  frac_digits := n.digits

theorem Numeral.bytes_token (n : Numeral) : n.token.bytes = n.bytes := by
  simp only [NumberToken.bytes, NumberToken.body, token, bytes, List.append_assoc]
  rfl

/-- A literal ends at the first byte that is neither a digit nor a point. -/
theorem parseNumber_numeral (n : Numeral) (hc : isDigit c = false) (h46 : c ≠ 46) (t : Bytes) :
    parseNumber (n.bytes ++ c :: t) = some (n.bytes, c :: t) := by
  rw [← n.bytes_token]
  refine parseNumber_bytes n.token fun d hd => ?_
  cases hd
  exact ⟨hc, h46⟩

end Tokens

/-- A byte that ends a value: a comma or the closing brace. -/
def EndsValue (c : UInt8) : Prop := c = 44 ∨ c = 125

theorem parseValue_dump (v : Value) {c : UInt8} (hc : EndsValue c) (t : Bytes) :
    parseValue (v.dump ++ c :: t) = some (v.json, c :: t) := by
  cases v with
  | text s =>
    have h := stringBody_plain s.plain (c :: t)
    simp only [Value.dump, Value.json, dumpText, List.cons_append, List.append_assoc,
      List.nil_append, parseValue, if_true, h]
    rfl
  | number n =>
    have hd : isDigit c = false ∧ c ≠ 46 := by
      rcases hc with rfl | rfl <;> decide
    have h := parseNumber_numeral n hd.1 hd.2 t
    obtain ⟨b, s, hb, hq⟩ : ∃ b s, n.bytes = b :: s ∧ b ≠ 34 := by
      obtain ⟨d, w, hw, hdig⟩ := toDecimal_cons n.whole
      unfold Numeral.bytes
      rw [hw]
      cases n.negative with
      | true => exact ⟨45, _, rfl, by decide⟩
      | false =>
        refine ⟨d, _, rfl, ?_⟩
        rintro rfl
        cases hdig
    simp only [Value.dump, Value.json, hb, List.cons_append] at h ⊢
    simp only [parseValue, hq, if_false, h]
    rfl

/-- The first byte of a value is no white space. -/
theorem skipWs_dump (v : Value) (t : Bytes) : skipWs (v.dump ++ t) = v.dump ++ t := by
  cases v with
  | text s => rfl
  | number n =>
    obtain ⟨d, w, hw, hdig⟩ := toDecimal_cons n.whole
    have hws : isWs d = false := by
      simp only [isDigit, decide_eq_true_eq] at hdig
      simp only [isWs, decide_eq_false_iff_not]
      rintro (rfl | rfl | rfl | rfl) <;> exact absurd hdig (by decide)
    simp only [Value.dump, Numeral.bytes, hw]
    cases n.negative with
    | true => rfl
    | false => exact skipWs_of_not hws

/-! ### Members of any kind -/

section Join

variable {α : Type} {dump : α → Bytes} {json : α → Option JsonValue}

/-- A key, colon, space, and the text of the value. -/
def joinMember (dump : α → Bytes) (m : Text × α) : Bytes := dumpText m.1 ++ 58 :: 32 :: dump m.2

def joinMembers (dump : α → Bytes) : List (Text × α) → Bytes
  | [] => []
  | [m] => joinMember dump m
  | m :: ms => joinMember dump m ++ 44 :: 32 :: joinMembers dump ms

/-- What the parser makes of the texts of values: `none` is a text it does not read. -/
structure Readable (dump : α → Bytes) (json : α → Option JsonValue) : Prop where
  head : ∀ a t, skipWs (dump a ++ t) = dump a ++ t
  body : ∀ a {c}, EndsValue c → ∀ t,
    parseValue (dump a ++ c :: t) = (json a).map fun v => (v, c :: t)

/-- The object the members make, if all of them are read. -/
def collect (json : α → Option JsonValue) : JsonObject → List (Text × α) → Option JsonObject
  | obj, [] => some obj
  | obj, m :: ms => do
    let v ← json m.2
    collect json (obj.insert m.1.bytes v) ms

/-- One member, up to the byte that ends it. -/
theorem parseMembers_member (hr : Readable dump json) (fuel : Nat) (obj : JsonObject)
    (m : Text × α) {c : UInt8} (hc : EndsValue c) (u : Bytes) :
    parseMembers (fuel + 1) obj (joinMember dump m ++ c :: u) = (json m.2).bind fun v =>
      if c = 44 then parseMembers fuel (obj.insert m.1.bytes v) u
      else some (obj.insert m.1.bytes v, u) := by
  have hkey := parseString_text m.1 (58 :: 32 :: (dump m.2 ++ c :: u))
  have hval := hr.body m.2 hc u
  have hcws : skipWs (c :: u) = c :: u := by
    refine skipWs_of_not ?_
    rcases hc with rfl | rfl <;> decide
  have hskip : skipWs (joinMember dump m ++ c :: u) =
      dumpText m.1 ++ 58 :: 32 :: (dump m.2 ++ c :: u) := by
    simp only [joinMember, List.append_assoc, List.cons_append]
    rfl
  rw [parseMembers, hskip, hkey]
  simp only [Option.bind_eq_bind, Option.bind_some, skipWs_of_not (show isWs 58 = false from rfl),
    skipWs_space, hr.head, hval, ne_eq, not_true, if_false]
  cases json m.2 with
  | none => rfl
  | some v =>
    simp only [Option.map_some, Option.bind_some, hcws]
    rcases hc with rfl | rfl <;> rfl

/-- The members up to the closing brace. -/
theorem parseMembers_join (hr : Readable dump json) {ms : List (Text × α)} (hms : ms ≠ [])
    (fuel : Nat) (hfuel : ms.length ≤ fuel) (obj : JsonObject) (t : Bytes) :
    parseMembers fuel obj (joinMembers dump ms ++ 125 :: t) =
      (collect json obj ms).map fun obj => (obj, t) := by
  induction ms generalizing obj fuel with
  | nil => exact absurd rfl hms
  | cons m ms ih =>
    obtain ⟨fuel, rfl⟩ := Nat.exists_eq_succ_of_ne_zero
      (Nat.ne_of_gt (Nat.lt_of_lt_of_le (by simp) hfuel))
    cases ms with
    | nil =>
      rw [joinMembers, parseMembers_member hr fuel obj m (Or.inr rfl), collect]
      cases json m.2 <;> rfl
    | cons m' ms =>
      -- the space after the comma is skipped with the next key
      have hspace : ∀ (k : Nat) (o : JsonObject) (u : Bytes),
          parseMembers k o (32 :: u) = parseMembers k o u := by
        intro k o u
        cases k with
        | zero => rfl
        | succ k => rw [parseMembers, parseMembers, skipWs_space]
      rw [joinMembers, List.append_assoc, List.cons_append, List.cons_append,
        parseMembers_member hr fuel obj m (Or.inl rfl), collect]
      · cases json m.2 with
        | none => rfl
        | some v =>
          simp only [Option.bind_some, if_true, hspace, Option.bind_eq_bind]
          exact ih (by simp) fuel (Nat.le_of_succ_le_succ hfuel) (obj.insert m.1.bytes v)
      · simp

theorem length_le_joinMembers (dump : α → Bytes) (ms : List (Text × α)) :
    ms.length ≤ (joinMembers dump ms).length := by
  induction ms with
  | nil => exact le_rfl
  | cons m ms ih =>
    cases ms with
    | nil => simp [joinMembers, joinMember, dumpText]
    | cons m' ms =>
      simp only [joinMembers, List.length_append, List.length_cons] at ih ⊢
      omega

/-- The venue reads back what was written, or nothing. -/
theorem parseFlatObject_join (hr : Readable dump json) {ms : List (Text × α)} (hms : ms ≠ []) :
    parseFlatObject (123 :: (joinMembers dump ms ++ [125])) = collect json ∅ ms := by
  obtain ⟨s, hs⟩ : ∃ s, joinMembers dump ms = 34 :: s := by
    match ms with
    | [m] => exact ⟨_, rfl⟩
    | m :: m' :: ms => exact ⟨_, rfl⟩
  have hlen := length_le_joinMembers dump ms
  have hparse := parseMembers_join hr hms ((joinMembers dump ms ++ [125]).length + 1)
    (by rw [List.length_append]; omega) ∅ []
  rw [hs, List.cons_append] at hparse
  rw [hs]
  simp only [parseFlatObject, List.cons_append, skipWs_of_not (show isWs 123 = false from rfl),
    skipWs_of_not (show isWs 34 = false from rfl), ne_eq, not_true, if_false,
    show ¬ (34 : UInt8) = 125 from by decide, hparse]
  cases collect json ∅ ms <;> rfl

/-- The keys of some members. -/
def keys (ms : List (Text × α)) : List Bytes := ms.map fun m => m.1.bytes

theorem lookup_collect_of_notMem {obj obj' : JsonObject} {ms : List (Text × α)} {k : Bytes}
    (h : k ∉ keys ms) (hobj : collect json obj ms = some obj') : obj'.lookup k = obj.lookup k := by
  induction ms generalizing obj with
  | nil =>
    cases hobj
    rfl
  | cons m ms ih =>
    simp only [keys, List.map_cons, List.mem_cons, not_or] at h
    obtain ⟨v, -, hobj⟩ := Option.bind_eq_some_iff.mp hobj
    exact (ih h.2 hobj).trans (AList.lookup_insert_ne h.1)

/-- Under distinct keys every member is found. -/
theorem lookup_collect {obj obj' : JsonObject} {ms : List (Text × α)} (hnd : (keys ms).Nodup)
    (hobj : collect json obj ms = some obj') {m : Text × α} (hm : m ∈ ms) :
    obj'.lookup m.1.bytes = json m.2 := by
  induction ms generalizing obj with
  | nil => cases hm
  | cons m' ms ih =>
    obtain ⟨hm', hnd⟩ := List.nodup_cons.mp hnd
    obtain ⟨v, hv, hobj⟩ := Option.bind_eq_some_iff.mp hobj
    rcases List.mem_cons.mp hm with rfl | hm
    · rw [lookup_collect_of_notMem hm' hobj, AList.lookup_insert, hv]
    · exact ih hnd hobj hm

/-- If all members are read, so is the object. -/
theorem exists_collect (obj : JsonObject) {ms : List (Text × α)}
    (h : ∀ m ∈ ms, ∃ v, json m.2 = some v) : ∃ obj', collect json obj ms = some obj' := by
  induction ms generalizing obj with
  | nil => exact ⟨obj, rfl⟩
  | cons m ms ih =>
    obtain ⟨⟨v, hv⟩, hms⟩ := List.forall_mem_cons.mp h
    rw [collect, hv]
    exact ih _ hms

/-- If one is not, nor is the object. -/
theorem collect_eq_none {obj : JsonObject} {ms : List (Text × α)} {m : Text × α} (hm : m ∈ ms)
    (hjson : json m.2 = none) : collect json obj ms = none := by
  induction ms generalizing obj with
  | nil => cases hm
  | cons m' ms ih =>
    rcases List.mem_cons.mp hm with rfl | hm
    · rw [collect, hjson]
      rfl
    · rw [collect]
      cases json m'.2 with
      | none => rfl
      | some v => exact ih hm

end Join

theorem readable_dump : Readable Value.dump fun v => some v.json :=
  ⟨skipWs_dump, fun v _ hc t => parseValue_dump v hc t⟩

theorem dumpMembers_eq (ms : List Member) : dumpMembers ms = joinMembers Value.dump ms := by
  induction ms with
  | nil => rfl
  | cons m ms ih =>
    cases ms with
    | nil => rfl
    | cons m' ms =>
      rw [dumpMembers, joinMembers, ih]
      · rfl
      · simp
      · simp

theorem collect_members (obj : JsonObject) (ms : List Member) :
    collect (fun v : Value => some v.json) obj ms = some (members obj ms) := by
  induction ms generalizing obj with
  | nil => rfl
  | cons m ms ih => exact ih _

theorem parseFlatObject_dumps {ms : List Member} (hms : ms ≠ []) :
    parseFlatObject (dumps ms) = some (members ∅ ms) := by
  rw [dumps, dumpMembers_eq, parseFlatObject_join readable_dump hms, collect_members]

/-! ## Numbers -/

/-- An integer literal. -/
def intNumeral (n : Nat) : Numeral := ⟨false, n, [], by simp⟩

theorem parseUint32_int (n : Nat) : parseUint32 (intNumeral n).bytes = toUint32? n := by
  have hb : (intNumeral n).bytes = toDecimal n := by simp [intNumeral, Numeral.bytes]
  have hall : (toDecimal n).all isDigit = true := List.all_eq_true.mpr (isDigit_of_mem n)
  have h := parseUint32_bytes (intNumeral n).token
  rw [Numeral.bytes_token, hb, if_pos hall] at h
  rw [hb, h]
  exact congrArg toUint32? (ofDecimal_toDecimal n)

/-- One or two decimals, without a trailing zero. -/
def centDigits (f : Nat) : Bytes :=
  if f % 10 = 0 then [digit (f / 10)] else [digit (f / 10), digit (f % 10)]

theorem isDigit_centDigits {f : Nat} (hf : f < 100) : ∀ c ∈ centDigits f, isDigit c = true := by
  have h1 := isDigit_digit (show f / 10 < 10 by omega)
  have h2 := isDigit_digit (show f % 10 < 10 by omega)
  unfold centDigits
  split <;> simp [h1, h2]

/-- The literal of a price in cents, as `repr` writes a float. -/
def priceNumeral (cents : Int) : Numeral :=
  ⟨decide (cents < 0), cents.natAbs / 100, centDigits (cents.natAbs % 100),
    isDigit_centDigits (Nat.mod_lt _ (by decide))⟩

/-- The ticks of a price in cents: none below zero or beyond 32 bits. -/
def ticks? (cents : Int) : Option UInt32 := if cents < 0 then none else toUint32? cents.toNat

/-- The places after the point, scaled to two. -/
theorem ofDecimal_centDigits (w : Nat) {f : Nat} (hf : f < 100) :
    ofDecimal w (centDigits f) * 10 ^ (2 - (centDigits f).length) = w * 100 + f := by
  have h1 := toNat_digit (show f / 10 < 10 by omega)
  have h2 := toNat_digit (show f % 10 < 10 by omega)
  unfold centDigits
  split
  · simp only [ofDecimal, List.foldl_cons, List.foldl_nil, h1, List.length_singleton]
    omega
  · simp only [ofDecimal, List.foldl_cons, List.foldl_nil, h1, h2, List.length_cons,
      List.length_nil]
    omega

theorem parseDecimalToTicks_price (cents : Int) :
    parseDecimalToTicks (priceNumeral cents).bytes = ticks? cents := by
  have hf : cents.natAbs % 100 < 100 := Nat.mod_lt _ (by decide)
  have hlen : ¬ 2 < (centDigits (cents.natAbs % 100)).length := by
    unfold centDigits
    split <;> simp
  have hnum : ofDecimal 0 (toDecimal (cents.natAbs / 100) ++ centDigits (cents.natAbs % 100)) *
      10 ^ (2 - (centDigits (cents.natAbs % 100)).length) = cents.natAbs := by
    rw [ofDecimal_append, ofDecimal_toDecimal, ofDecimal_centDigits _ hf]
    omega
  rw [← Numeral.bytes_token, parseDecimalToTicks_bytes]
  simp only [Numeral.token, priceNumeral, hnum, hlen, or_false, decide_eq_true_eq]
  rw [ticks?]
  split
  · rfl
  · rw [show cents.natAbs = cents.toNat by omega]

/-! ## Requests -/

def text (s : String) (h : ∀ c ∈ ascii s, isPlain c = true) : Text := ⟨ascii s, h⟩

def typeKey : Text := text "type" (by decide +kernel)

def clientOrderIdKey : Text := text "client_order_id" (by decide +kernel)

def symbolKey : Text := text "symbol" (by decide +kernel)

def sideKey : Text := text "side" (by decide +kernel)

def priceKey : Text := text "price" (by decide +kernel)

def qtyKey : Text := text "qty" (by decide +kernel)

def tsKey : Text := text "ts" (by decide +kernel)

def SYMBOL : Text := text "SIM1" (by decide +kernel)

def sideText : OrderSide → Text
  | .buy => text "BUY" (by decide +kernel)
  | .sell => text "SELL" (by decide +kernel)

/-- `_new_order`, for a price in cents. -/
def newOrderLine (clientOrderId : Text) (side : OrderSide) (cents : Int) (qty : Nat) (ts : Text) :
    Bytes :=
  dumps [(typeKey, .text (text "NEW_ORDER" (by decide +kernel))),
    (clientOrderIdKey, .text clientOrderId), (symbolKey, .text SYMBOL),
    (sideKey, .text (sideText side)), (priceKey, .number (priceNumeral cents)),
    (qtyKey, .number (intNumeral qty)), (tsKey, .text ts)]

/-- `_cancel`. -/
def cancelLine (clientOrderId ts : Text) : Bytes :=
  dumps [(typeKey, .text (text "CANCEL" (by decide +kernel))),
    (clientOrderIdKey, .text clientOrderId), (tsKey, .text ts)]

section Fields

variable {obj : JsonObject} {k : String} {b : Bytes}

theorem str?_of_lookup (h : obj.lookup (ascii k) = some (.str b)) : obj.str? k = some b := by
  rw [JsonObject.str?, h]

theorem num?_of_lookup (h : obj.lookup (ascii k) = some (.num b)) : obj.num? k = some b := by
  rw [JsonObject.num?, h]

theorem str?_of_none (h : obj.lookup (ascii k) = none) : obj.str? k = none := by
  rw [JsonObject.str?, h]

theorem num?_of_none (h : obj.lookup (ascii k) = none) : obj.num? k = none := by
  rw [JsonObject.num?, h]

end Fields

/-- What the venue recovers of a NEW_ORDER it can read. -/
theorem parseInbound_newOrder_of {line cid price qty : Bytes} {obj : JsonObject} (side : OrderSide)
    (hparse : parseFlatObject line = some obj)
    (htype : obj.lookup typeKey.bytes = some (.str (ascii "NEW_ORDER")))
    (hcid : obj.lookup clientOrderIdKey.bytes = some (.str cid))
    (hsymbol : obj.lookup symbolKey.bytes = some (.str SYMBOL.bytes))
    (hside : obj.lookup sideKey.bytes = some (.str (sideText side).bytes))
    (hprice : obj.lookup priceKey.bytes = some (.num price))
    (hqty : obj.lookup qtyKey.bytes = some (.num qty)) :
    parseInbound line = ⟨.newOrder, some cid, some SYMBOL.bytes, some side,
      parseDecimalToTicks price, parseUint32 qty, none⟩ := by
  have hst : obj.str? "type" = some (ascii "NEW_ORDER") := str?_of_lookup htype
  have hsc : obj.str? "client_order_id" = some cid := str?_of_lookup hcid
  have hss : obj.str? "symbol" = some SYMBOL.bytes := str?_of_lookup hsymbol
  have hsd : obj.str? "side" = some (sideText side).bytes := str?_of_lookup hside
  have hnp : obj.num? "price" = some price := num?_of_lookup hprice
  have hnq : obj.num? "qty" = some qty := num?_of_lookup hqty
  have hmsg : msgType (ascii "NEW_ORDER") = .newOrder := by decide +kernel
  have hparseSide : parseSide (sideText side).bytes = some side := by
    cases side <;> decide +kernel
  simp only [parseInbound, hparse, hst, hsc, hss, hsd, hnp, hnq, hmsg, Option.bind_eq_bind,
    Option.bind_some, hparseSide]

/-- What the venue recovers of a CANCEL it can read. -/
theorem parseInbound_cancel_of {line cid : Bytes} {obj : JsonObject}
    (hparse : parseFlatObject line = some obj)
    (htype : obj.lookup typeKey.bytes = some (.str (ascii "CANCEL")))
    (hcid : obj.lookup clientOrderIdKey.bytes = some (.str cid))
    (hnone : ∀ k ∈ [symbolKey, sideKey, priceKey, qtyKey], obj.lookup k.bytes = none) :
    parseInbound line = ⟨.cancel, some cid, none, none, none, none, none⟩ := by
  simp only [List.forall_mem_cons] at hnone
  obtain ⟨hsymbol, hside, hprice, hqty, -⟩ := hnone
  have hst : obj.str? "type" = some (ascii "CANCEL") := str?_of_lookup htype
  have hsc : obj.str? "client_order_id" = some cid := str?_of_lookup hcid
  have hss : obj.str? "symbol" = none := str?_of_none hsymbol
  have hsd : obj.str? "side" = none := str?_of_none hside
  have hnp : obj.num? "price" = none := num?_of_none hprice
  have hnq : obj.num? "qty" = none := num?_of_none hqty
  have hmsg : msgType (ascii "CANCEL") = .cancel := by decide +kernel
  simp only [parseInbound, hparse, hst, hsc, hss, hsd, hnp, hnq, hmsg, Option.bind_eq_bind,
    Option.bind_none]

/-- What the venue recovers of a NEW_ORDER. -/
theorem parseInbound_newOrder (cid : Text) (side : OrderSide) (cents : Int) (qty : Nat)
    (ts : Text) : parseInbound (newOrderLine cid side cents qty ts) =
      ⟨.newOrder, some cid.bytes, some SYMBOL.bytes, some side, ticks? cents, toUint32? qty,
        none⟩ := by
  set ms : List Member := [(typeKey, .text (text "NEW_ORDER" (by decide +kernel))),
    (clientOrderIdKey, .text cid), (symbolKey, .text SYMBOL),
    (sideKey, .text (sideText side)), (priceKey, .number (priceNumeral cents)),
    (qtyKey, .number (intNumeral qty)), (tsKey, .text ts)] with hms
  have hnd : (keys ms).Nodup := by
    show [typeKey.bytes, clientOrderIdKey.bytes, symbolKey.bytes, sideKey.bytes, priceKey.bytes,
      qtyKey.bytes, tsKey.bytes].Nodup
    decide +kernel
  have hlook : ∀ m ∈ ms, (members ∅ ms).lookup m.1.bytes = some m.2.json :=
    fun m hm => lookup_collect hnd (collect_members ∅ ms) hm
  simp only [hms, List.forall_mem_cons] at hlook
  obtain ⟨htype, hcid, hsymbol, hside, hprice, hqty, -⟩ := hlook
  rw [← hms] at htype hcid hsymbol hside hprice hqty
  have hparse : parseFlatObject (newOrderLine cid side cents qty ts) = some (members ∅ ms) :=
    parseFlatObject_dumps (by simp)
  rw [parseInbound_newOrder_of side hparse htype hcid hsymbol hside hprice hqty,
    parseDecimalToTicks_price, parseUint32_int]

/-- What the venue recovers of a CANCEL. -/
theorem parseInbound_cancel (cid ts : Text) : parseInbound (cancelLine cid ts) =
    ⟨.cancel, some cid.bytes, none, none, none, none, none⟩ := by
  set ms : List Member := [(typeKey, .text (text "CANCEL" (by decide +kernel))),
    (clientOrderIdKey, .text cid), (tsKey, .text ts)] with hms
  have hkeys : keys ms = [typeKey.bytes, clientOrderIdKey.bytes, tsKey.bytes] := rfl
  have hnd : (keys ms).Nodup := by
    rw [hkeys]
    decide +kernel
  have hlook : ∀ m ∈ ms, (members ∅ ms).lookup m.1.bytes = some m.2.json :=
    fun m hm => lookup_collect hnd (collect_members ∅ ms) hm
  simp only [hms, List.forall_mem_cons] at hlook
  obtain ⟨htype, hcid, -⟩ := hlook
  rw [← hms] at htype hcid
  have hnone : ∀ k ∈ [symbolKey, sideKey, priceKey, qtyKey],
      (members ∅ ms).lookup k.bytes = none := by
    intro k hk
    refine (lookup_collect_of_notMem ?_ (collect_members ∅ ms)).trans (AList.lookup_empty _)
    rw [hkeys]
    simp only [List.mem_cons, List.not_mem_nil, or_false] at hk
    rcases hk with rfl | rfl | rfl | rfl <;> decide +kernel
  exact parseInbound_cancel_of (parseFlatObject_dumps (by simp)) htype hcid hnone

end MarketMakerOps.Exchange
