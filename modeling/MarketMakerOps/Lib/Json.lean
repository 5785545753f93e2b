import MarketMakerOps.Lib.Decimal
import Mathlib.Algebra.Field.Rat

/-!
# Flat JSON objects

The standard grammar, for an object none of whose values is an array or an object. A byte from
128 on is part of a string and stands for itself.

* `parse`: the members of a text, in order;
* `IsString`, `IsValue`, `IsMembers`: texts that read as a string, a value, some members;
* `parse_of_isMembers`: members between braces are read back.
-/

namespace Json

open Decimal

inductive Value
  | str (s : Bytes)
  | num (q : ℚ)
  | bool (b : Bool)
  | null
  deriving DecidableEq, Repr

/-- Space, tab, line feed, carriage return. -/
def isWs (c : UInt8) : Bool := c = 32 ∨ c = 9 ∨ c = 10 ∨ c = 13

def ws (s : Bytes) : Bytes := s.dropWhile isWs

/-! ## Strings -/

/-- The value of a hexadecimal digit. -/
def hex (c : UInt8) : Option Nat :=
  if 48 ≤ c ∧ c ≤ 57 then some (c.toNat - 48)
  else if 97 ≤ c ∧ c ≤ 102 then some (c.toNat - 87)
  else if 65 ≤ c ∧ c ≤ 70 then some (c.toNat - 55)
  else none

/-- Four hexadecimal digits. -/
def hex4 (a b c d : UInt8) : Option Nat := do
  pure (4096 * (← hex a) + 256 * (← hex b) + 16 * (← hex c) + (← hex d))

/-- The UTF-8 form of a code point. -/
def utf8 (n : Nat) : Bytes :=
  if n < 0x80 then [UInt8.ofNat n]
  else if n < 0x800 then [UInt8.ofNat (0xC0 + n / 64), UInt8.ofNat (0x80 + n % 64)]
  else if n < 0x10000 then
    [UInt8.ofNat (0xE0 + n / 4096), UInt8.ofNat (0x80 + n / 64 % 64), UInt8.ofNat (0x80 + n % 64)]
  else
    [UInt8.ofNat (0xF0 + n / 262144), UInt8.ofNat (0x80 + n / 4096 % 64),
      UInt8.ofNat (0x80 + n / 64 % 64), UInt8.ofNat (0x80 + n % 64)]

/-- The code point after `\u`: one unit, or a pair of surrogates. A lone surrogate is no
character. -/
def codePoint : Bytes → Option (Nat × Bytes)
  | a :: b :: c :: d :: s => do
    let n ← hex4 a b c d
    if 0xD800 ≤ n ∧ n < 0xDC00 then
      match s with
      | 92 :: 117 :: a :: b :: c :: d :: s => do
        let m ← hex4 a b c d
        if 0xDC00 ≤ m ∧ m < 0xE000 then
          some (0x10000 + 1024 * (n - 0xD800) + (m - 0xDC00), s)
        else none
      | _ => none
    else if 0xDC00 ≤ n ∧ n < 0xE000 then none
    else some (n, s)
  | _ => none

/-- What a backslash and the following bytes stand for. -/
def escape : Bytes → Option (Bytes × Bytes)
  | [] => none
  | e :: s =>
    if e = 34 ∨ e = 92 ∨ e = 47 then some ([e], s)
    else if e = 98 then some ([8], s)
    else if e = 102 then some ([12], s)
    else if e = 110 then some ([10], s)
    else if e = 114 then some ([13], s)
    else if e = 116 then some ([9], s)
    else if e = 117 then do
      let (n, s) ← codePoint s
      pure (utf8 n, s)
    else none

/-- The rest of a string after its opening quote, at most so many characters. -/
def chars : Nat → Bytes → Option (Bytes × Bytes)
  | fuel + 1, c :: s =>
    if c = 34 then some ([], s)
    else if c = 92 then do
      let (x, s) ← escape s
      let (out, s) ← chars fuel s
      pure (x ++ out, s)
    else if c < 32 then none
    else do
      let (out, s) ← chars fuel s
      pure (c :: out, s)
  | _, _ => none

/-- A character is a byte or more, so there is fuel for all of them. -/
def string : Bytes → Option (Bytes × Bytes)
  | 34 :: s => chars s.length s
  | _ => none

/-! ## Numbers -/

def sign : Bytes → Bool × Bytes
  | 45 :: s => (true, s)
  | s => (false, s)

/-- Digits without a leading zero. -/
def int (s : Bytes) : Option (Bytes × Bytes) :=
  let digits := s.takeWhile isDigit
  if digits = [] ∨ (digits.head? = some 48 ∧ 1 < digits.length) then none
  else some (digits, s.dropWhile isDigit)

def frac : Bytes → Option (Bytes × Bytes)
  | 46 :: s =>
    let digits := s.takeWhile isDigit
    if digits = [] then none else some (digits, s.dropWhile isDigit)
  | s => some ([], s)

/-- The digits of an exponent. -/
def expDigits (negative : Bool) (s : Bytes) : Option (ℤ × Bytes) :=
  let digits := s.takeWhile isDigit
  if digits = [] then none
  else
    let n : ℤ := ofDecimal 0 digits
    some (if negative then -n else n, s.dropWhile isDigit)

def exp : Bytes → Option (ℤ × Bytes)
  | c :: s =>
    if c = 101 ∨ c = 69 then
      match s with
      | 45 :: s => expDigits true s
      | 43 :: s => expDigits false s
      | s => expDigits false s
    else some (0, c :: s)
  | [] => some (0, [])

def number (s : Bytes) : Option (ℚ × Bytes) := do
  let (negative, s) := sign s
  let (whole, s) ← int s
  let (part, s) ← frac s
  let (e, s) ← exp s
  let q : ℚ := (ofDecimal 0 (whole ++ part) : ℚ) / 10 ^ part.length * 10 ^ e
  pure (if negative then -q else q, s)

/-! ## Objects -/

def literal (text : Bytes) (v : Value) (s : Bytes) : Option (Value × Bytes) :=
  if text <+: s then some (v, s.drop text.length) else none

def value : Bytes → Option (Value × Bytes)
  | [] => none
  | c :: s =>
    if c = 34 then do
      let (x, s) ← string (c :: s)
      pure (.str x, s)
    else if c = 116 then literal [116, 114, 117, 101] (.bool true) (c :: s)
    else if c = 102 then literal [102, 97, 108, 115, 101] (.bool false) (c :: s)
    else if c = 110 then literal [110, 117, 108, 108] .null (c :: s)
    else do
      let (q, s) ← number (c :: s)
      pure (.num q, s)

/-- A key and its value. -/
abbrev Member := Bytes × Value

/-- The members up to the closing brace, at most so many. -/
def members : Nat → Bytes → Option (List Member × Bytes)
  | 0, _ => none
  | fuel + 1, s => do
    let (k, s) ← string (ws s)
    match ws s with
    | 58 :: s => do
      let (v, s) ← value (ws s)
      match ws s with
      | 44 :: s => do
        let (ms, s) ← members fuel s
        pure ((k, v) :: ms, s)
      | 125 :: s => some ([(k, v)], s)
      | _ => none
    | _ => none

/-- The members of a flat object; a member is a byte or more, so there is fuel for all of them. -/
def parse (s : Bytes) : Option (List Member) :=
  match ws s with
  | 123 :: s =>
    match ws s with
    | 125 :: t => if ws t = [] then some [] else none
    | _ => do
      let (ms, t) ← members s.length s
      if ws t = [] then some ms else none
  | _ => none

/-! ## Reading back what was written -/

/-- The text of a string. -/
def IsString (text s : Bytes) : Prop := ∀ t, string (text ++ t) = some (s, t)

/-- What may follow a value: a comma, a closing brace. -/
def Ends (c : UInt8) : Prop := c = 44 ∨ c = 125

/-- The text of a value. -/
def IsValue (text : Bytes) (v : Value) : Prop :=
  (∃ c s, text = c :: s ∧ isWs c = false) ∧
    ∀ c t, Ends c → value (text ++ c :: t) = some (v, c :: t)

/-- Members without white space. -/
inductive IsMembers : Bytes → List Member → Prop
  | one {k x : Bytes} {key : Bytes} {v : Value} (isKey : IsString k key) (isValue : IsValue x v) :
      IsMembers (k ++ 58 :: x) [(key, v)]
  | more {k x s : Bytes} {key : Bytes} {v : Value} {ms : List Member} (isKey : IsString k key)
      (isValue : IsValue x v) (rest : IsMembers s ms) :
      IsMembers (k ++ 58 :: x ++ 44 :: s) ((key, v) :: ms)

theorem ws_of_not {c : UInt8} (h : isWs c = false) (s : Bytes) : ws (c :: s) = c :: s := by
  simp [ws, h]

theorem IsString.quote {text s : Bytes} (h : IsString text s) : ∃ u, text = 34 :: u := by
  have hnil := h []
  cases text with
  | nil => cases hnil
  | cons c u =>
    by_cases hc : c = 34
    · exact ⟨u, by rw [hc]⟩
    · rw [List.append_nil] at hnil
      unfold string at hnil
      split at hnil
      · next heq =>
        cases heq
        exact absurd rfl hc
      · cases hnil

theorem IsString.ws_append {text s : Bytes} (h : IsString text s) (t : Bytes) :
    ws (text ++ t) = text ++ t := by
  obtain ⟨u, rfl⟩ := h.quote
  exact ws_of_not rfl _

theorem IsString.isValue {text s : Bytes} (h : IsString text s) : IsValue text (.str s) := by
  obtain ⟨u, rfl⟩ := h.quote
  refine ⟨⟨34, u, rfl, rfl⟩, fun c t _ => ?_⟩
  have hstring := h (c :: t)
  rw [List.cons_append] at hstring ⊢
  rw [value, if_pos rfl, hstring]
  rfl

theorem IsValue.ws_append {text : Bytes} {v : Value} (h : IsValue text v) (t : Bytes) :
    ws (text ++ t) = text ++ t := by
  obtain ⟨⟨c, s, rfl, hc⟩, -⟩ := h
  exact ws_of_not hc _

section Numbers

variable {c : UInt8}

theorem exp_end (hc : Ends c) (t : Bytes) : exp (c :: t) = some (0, c :: t) := by
  have hne : ¬(c = 101 ∨ c = 69) := by
    rcases hc with rfl | rfl <;> decide
  unfold exp
  exact if_neg hne

/-- The whole part stops at the first byte that is no digit. -/
theorem int_toDecimal (n : Nat) (hc : isDigit c = false) (t : Bytes) :
    int (toDecimal n ++ c :: t) = some (toDecimal n, c :: t) := by
  obtain ⟨htake, hdrop⟩ := scan_append (isDigit_of_mem n) hc t
  have hlead : ¬(toDecimal n = [] ∨ (toDecimal n).head? = some 48 ∧ 1 < (toDecimal n).length) := by
    rintro (h | ⟨h, hlong⟩)
    · exact toDecimal_ne_nil n h
    · have := toDecimal_head n h
      omega
  rw [int, htake, hdrop, if_neg hlead]

/-- A number in digits, perhaps with some after a point. -/
theorem number_digits (n : Nat) {f : Bytes} (hf : ∀ d ∈ f, isDigit d = true) (hc : Ends c)
    (t : Bytes) : number (toDecimal n ++ (if f = [] then [] else 46 :: f) ++ c :: t) =
      some ((ofDecimal n f : ℚ) / 10 ^ f.length, c :: t) := by
  have hdigit : isDigit c = false := by
    rcases hc with rfl | rfl <;> rfl
  obtain ⟨d, w, hw, hd⟩ := toDecimal_cons n
  have hsign : ∀ u, sign (toDecimal n ++ u) = (false, toDecimal n ++ u) := by
    intro u
    rw [hw, List.cons_append, sign]
    rintro s heq
    cases heq
    cases hd
  have hvalue : ofDecimal 0 (toDecimal n ++ f) = ofDecimal n f := by
    rw [ofDecimal_append, ofDecimal_toDecimal]
  rw [List.append_assoc, number, hsign]
  by_cases hnil : f = []
  · subst hnil
    have hfrac : frac (c :: t) = some ([], c :: t) := by
      rcases hc with rfl | rfl <;> rfl
    simp only [if_true, List.nil_append, int_toDecimal n hdigit, Option.bind_eq_bind,
      Option.bind_some, hfrac, exp_end hc, hvalue, zpow_zero, mul_one]
    rfl
  · obtain ⟨htake, hdrop⟩ := scan_append hf hdigit t
    have hfrac : frac (46 :: (f ++ c :: t)) = some (f, c :: t) := by
      rw [frac, htake, hdrop, if_neg hnil]
    simp only [if_neg hnil, List.cons_append, int_toDecimal n (show isDigit 46 = false from rfl),
      Option.bind_eq_bind, Option.bind_some, hfrac, exp_end hc, hvalue, zpow_zero, mul_one]
    rfl

/-- The text of such a number. -/
theorem isValue_digits (n : Nat) {f : Bytes} (hf : ∀ d ∈ f, isDigit d = true) :
    IsValue (toDecimal n ++ if f = [] then [] else 46 :: f)
      (.num ((ofDecimal n f : ℚ) / 10 ^ f.length)) := by
  obtain ⟨d, w, hw, hd⟩ := toDecimal_cons n
  have hbetween : 48 ≤ d ∧ d ≤ 57 := of_decide_eq_true hd
  have hne : ∀ e : UInt8, ¬(48 ≤ e ∧ e ≤ 57) → d ≠ e := fun e he h => he (h ▸ hbetween)
  refine ⟨⟨d, w ++ (if f = [] then [] else 46 :: f), by rw [hw]; rfl, ?_⟩, fun c t hc => ?_⟩
  · simp [isWs, hne 32 (by decide), hne 9 (by decide), hne 10 (by decide), hne 13 (by decide)]
  · have hnumber := number_digits n hf hc t
    rw [hw] at hnumber ⊢
    rw [List.cons_append, List.cons_append, value, if_neg (hne 34 (by decide)),
      if_neg (hne 116 (by decide)), if_neg (hne 102 (by decide)), if_neg (hne 110 (by decide))]
    rw [List.cons_append, List.cons_append] at hnumber
    rw [hnumber]
    rfl

theorem isValue_nat (n : Nat) : IsValue (toDecimal n) (.num n) := by
  have h := isValue_digits n (f := []) (fun _ hd => absurd hd List.not_mem_nil)
  simpa [ofDecimal] using h

end Numbers

theorem isValue_null : IsValue [110, 117, 108, 108] .null :=
  ⟨⟨110, _, rfl, rfl⟩, fun _ _ _ => rfl⟩

theorem members_of_isMembers {s : Bytes} {ms : List Member} (h : IsMembers s ms) {fuel : Nat}
    (hfuel : s.length ≤ fuel) (t : Bytes) : members fuel (s ++ 125 :: t) = some (ms, t) := by
  induction h generalizing fuel with
  | @one k x key v isKey isValue =>
    cases fuel with
    | zero =>
      rw [List.length_append, List.length_cons] at hfuel
      omega
    | succ fuel =>
      have happ : k ++ 58 :: x ++ 125 :: t = k ++ 58 :: (x ++ 125 :: t) := by simp
      rw [happ, members, isKey.ws_append, isKey]
      simp only [Option.bind_eq_bind, Option.bind_some]
      rw [ws_of_not (by rfl)]
      simp only [isValue.ws_append, isValue.2 125 t (Or.inr rfl), Option.bind_some]
      rw [ws_of_not (by rfl)]
      rfl
  | @more k x s key v ms isKey isValue rest ih =>
    cases fuel with
    | zero =>
      rw [List.length_append, List.length_cons] at hfuel
      omega
    | succ fuel =>
      have hle : s.length ≤ fuel := by
        rw [List.length_append, List.length_cons] at hfuel
        omega
      have happ : k ++ 58 :: x ++ 44 :: s ++ 125 :: t =
          k ++ 58 :: (x ++ 44 :: (s ++ 125 :: t)) := by simp
      rw [happ, members, isKey.ws_append, isKey]
      simp only [Option.bind_eq_bind, Option.bind_some]
      rw [ws_of_not (by rfl)]
      simp only [isValue.ws_append, isValue.2 44 _ (Or.inl rfl), Option.bind_some]
      rw [ws_of_not (by rfl)]
      simp only [ih hle, Option.bind_some]
      rfl

theorem IsMembers.quote {s : Bytes} {ms : List Member} (h : IsMembers s ms) : ∃ u, s = 34 :: u := by
  cases h with
  | one isKey _ =>
    obtain ⟨u, rfl⟩ := isKey.quote
    exact ⟨_, rfl⟩
  | more isKey _ _ =>
    obtain ⟨u, rfl⟩ := isKey.quote
    exact ⟨_, rfl⟩

/-- Members between braces are read back, each in its place. -/
theorem parse_of_isMembers {s : Bytes} {ms : List Member} (h : IsMembers s ms) :
    parse (123 :: (s ++ [125])) = some ms := by
  obtain ⟨u, rfl⟩ := h.quote
  have hmembers := members_of_isMembers h
    (show (34 :: u).length ≤ (34 :: u ++ [125]).length by rw [List.length_append]; omega) []
  have hws : ws (34 :: u ++ [125]) = 34 :: (u ++ [125]) := ws_of_not rfl _
  rw [parse, ws_of_not (by rfl)]
  simp only [hws]
  rw [List.cons_append] at hmembers ⊢
  rw [hmembers]
  rfl

end Json
