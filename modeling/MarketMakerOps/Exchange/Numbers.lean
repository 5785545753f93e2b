import MarketMakerOps.Exchange.Protocol
import Mathlib.Data.List.TakeWhile

/-!
Numbers of the wire format, as `parseNumber` captures them and `parseUint32` and
`parseDecimalToTicks` convert them.

* `NumberToken`: a sign, digits, and a fraction of digits, of any length;
* `parseNumber_eq_some`: what `parseNumber` captures is such a token;
* `parseUint32_bytes`, `parseDecimalToTicks_bytes`: the conversions in terms of
  the number the digits denote.
-/

namespace MarketMakerOps.Exchange

open Decimal

/-- `-?[0-9]+(\.[0-9]+)?`; no fraction digits, no point. -/
@[ext] structure NumberToken where
  negative : Bool
  int : Bytes
  frac : Bytes
  int_ne : int ≠ []
  int_digits : ∀ c ∈ int, isDigit c = true
  frac_digits : ∀ c ∈ frac, isDigit c = true

namespace NumberToken

/-- The token without its sign. -/
def body (t : NumberToken) : Bytes := t.int ++ if t.frac = [] then [] else 46 :: t.frac

def bytes (t : NumberToken) : Bytes := (if t.negative then [45] else []) ++ t.body

variable (t : NumberToken)

theorem int_cons : ∃ d s, t.int = d :: s ∧ isDigit d = true := by
  cases h : t.int with
  | nil => exact absurd h t.int_ne
  | cons d s => exact ⟨d, s, rfl, t.int_digits d (h ▸ List.mem_cons_self)⟩

theorem body_cons : ∃ d s, t.body = d :: s ∧ isDigit d = true := by
  obtain ⟨d, s, hs, hd⟩ := t.int_cons
  exact ⟨d, _, by rw [body, hs, List.cons_append], hd⟩

/-- Up to the point there are only digits. -/
theorem takeWhile_body : t.body.takeWhile (· ≠ 46) = t.int ∧
    (t.body.dropWhile (· ≠ 46)).drop 1 = t.frac := by
  have hpoint : ∀ c ∈ t.int, decide (c ≠ 46) = true := by
    intro c hc
    refine decide_eq_true fun h46 => ?_
    have hd := t.int_digits c hc
    rw [h46] at hd
    cases hd
  rw [body]
  by_cases hf : t.frac = []
  · rw [if_pos hf, List.append_nil]
    refine ⟨List.takeWhile_eq_self_iff.mpr hpoint, ?_⟩
    rw [List.dropWhile_eq_nil_iff.mpr hpoint, hf]
    rfl
  · rw [if_neg hf]
    obtain ⟨h1, h2⟩ := scan_append hpoint (c := 46) rfl t.frac
    rw [h1, h2]
    exact ⟨rfl, rfl⟩

theorem head_bytes : t.bytes.head? ≠ none ∧ (t.bytes.head? = some 45 ↔ t.negative = true) := by
  obtain ⟨d, s, hs, hd⟩ := t.body_cons
  rw [bytes, hs]
  cases t.negative with
  | true => exact ⟨fun h => (by cases h), iff_of_true rfl rfl⟩
  | false =>
    refine ⟨fun h => (by cases h), iff_of_false (fun h => ?_) Bool.false_ne_true⟩
    cases h
    cases hd

/-- A token is known by its bytes. -/
theorem bytes_inj {t t' : NumberToken} (h : t.bytes = t'.bytes) : t = t' := by
  have hneg : t.negative = t'.negative := by
    rw [Bool.eq_iff_iff, ← t.head_bytes.2, ← t'.head_bytes.2, h]
  have hbody : t.body = t'.body := by
    rw [bytes, bytes, hneg] at h
    exact List.append_cancel_left h
  refine NumberToken.ext hneg ?_ ?_
  · rw [← t.takeWhile_body.1, hbody, t'.takeWhile_body.1]
  · rw [← t.takeWhile_body.2, hbody, t'.takeWhile_body.2]

end NumberToken

/-! ## Capturing a token -/

theorem parseSign_digit {c : UInt8} (hc : isDigit c = true) (s : Bytes) :
    parseSign (c :: s) = ([], c :: s) := by
  have hne : c ≠ 45 := by
    rintro rfl
    cases hc
  rw [parseSign, if_neg hne]

/-- The sign is not read twice. -/
theorem parseSign_bytes (t : NumberToken) (s : Bytes) :
    parseSign (t.bytes ++ s) = (if t.negative then [45] else [], t.body ++ s) := by
  obtain ⟨d, u, hu, hd⟩ := t.body_cons
  rw [NumberToken.bytes, hu]
  cases t.negative with
  | true => rfl
  | false => exact parseSign_digit hd _

/-- A token ends where neither a digit nor a point follows. -/
def TokenEnd (s : Bytes) : Prop := ∀ c ∈ s.head?, isDigit c = false ∧ c ≠ 46

/-- A scan over some digits stops behind them. -/
theorem scan_digits {s : Bytes} (rest : Bytes) (hs : ∀ c ∈ s, isDigit c = true)
    (hrest : ∀ c ∈ rest.head?, isDigit c = false) :
    (s ++ rest).takeWhile isDigit = s ∧ (s ++ rest).dropWhile isDigit = rest := by
  cases rest with
  | nil =>
    rw [List.append_nil]
    exact ⟨List.takeWhile_eq_self_iff.mpr hs, List.dropWhile_eq_nil_iff.mpr hs⟩
  | cons c rest => exact scan_append hs (hrest c rfl) rest

theorem parseNumber_bytes (t : NumberToken) {rest : Bytes} (hrest : TokenEnd rest) :
    parseNumber (t.bytes ++ rest) = some (t.bytes, rest) := by
  have hdigit : ∀ c ∈ rest.head?, isDigit c = false := fun c hc => (hrest c hc).1
  rw [parseNumber, parseSign_bytes, NumberToken.bytes, NumberToken.body]
  by_cases hf : t.frac = []
  · obtain ⟨h1, h2⟩ := scan_digits rest t.int_digits hdigit
    rw [if_pos hf, List.append_nil]
    simp only [h1, h2, t.int_ne, if_false]
    cases rest with
    | nil => rfl
    | cons c rest => simp only [(hrest c rfl).2, if_false]
  · obtain ⟨h1, h2⟩ := scan_digits (46 :: (t.frac ++ rest)) t.int_digits
      fun c hc => by cases hc; rfl
    obtain ⟨h3, h4⟩ := scan_digits rest t.frac_digits hdigit
    rw [if_neg hf, List.append_assoc, List.cons_append]
    simp only [h1, h2, h3, h4, t.int_ne, hf, if_false, if_true, List.append_assoc]

theorem parseSign_eq {s sign u : Bytes} (h : parseSign s = (sign, u)) :
    s = sign ++ u ∧ ∃ negative : Bool, sign = if negative then [45] else [] := by
  cases s with
  | nil =>
    cases h
    exact ⟨rfl, false, rfl⟩
  | cons c s =>
    by_cases hc : c = 45
    · rw [parseSign, if_pos hc, hc] at h
      cases h
      exact ⟨by rw [hc]; rfl, true, rfl⟩
    · rw [parseSign, if_neg hc] at h
      cases h
      exact ⟨rfl, false, rfl⟩

/-- What is captured is a token, and the longest one there. -/
theorem parseNumber_eq_some {s raw rest : Bytes} (h : parseNumber s = some (raw, rest)) :
    s = raw ++ rest ∧ (∀ c ∈ rest.head?, isDigit c = false) ∧
      ∃ t : NumberToken, t.bytes = raw := by
  have hdrop : ∀ u : Bytes, ∀ c ∈ (u.dropWhile isDigit).head?, isDigit c = false := by
    intro u c hc
    have hnot := List.head?_dropWhile_not isDigit u
    rw [Option.mem_def.mp hc] at hnot
    simpa using hnot
  have hall : ∀ u : Bytes, ∀ c ∈ u.takeWhile isDigit, isDigit c = true :=
    fun u c hc => List.mem_takeWhile_imp hc
  have hcut : ∀ u : Bytes, u.takeWhile isDigit ++ u.dropWhile isDigit = u :=
    fun u => List.takeWhile_append_dropWhile
  rcases hps : parseSign s with ⟨sign, u⟩
  obtain ⟨hparts, negative, hneg⟩ := parseSign_eq hps
  rw [parseNumber, hps] at h
  dsimp only at h
  split at h
  · cases h
  · next hint =>
    have hcutu := hcut u
    have hstop := hdrop u
    split at h
    · next hnil =>
      cases h
      rw [hnil, List.append_nil] at hcutu
      refine ⟨by rw [hparts, hcutu, List.append_nil], fun c hc => (by cases hc),
        ⟨negative, u.takeWhile isDigit, [], hint, hall u, fun c hc => (by cases hc)⟩, ?_⟩
      simp [NumberToken.bytes, NumberToken.body, hneg]
    · next c v hcons =>
      rw [hcons] at hcutu hstop
      split at h
      · next hpoint =>
        split at h
        · cases h
        · next hfrac =>
          cases h
          refine ⟨?_, hdrop v,
            ⟨negative, u.takeWhile isDigit, v.takeWhile isDigit, hint, hall u, hall v⟩, ?_⟩
          · rw [List.append_assoc, List.cons_append, hcut v, List.append_assoc, hcutu, hparts]
          · simp [NumberToken.bytes, NumberToken.body, hneg, hfrac, hpoint]
      · cases h
        refine ⟨by rw [List.append_assoc, hcutu, hparts], hstop,
          ⟨negative, u.takeWhile isDigit, [], hint, hall u, fun c hc => (by cases hc)⟩, ?_⟩
        simp [NumberToken.bytes, NumberToken.body, hneg]

/-- The tokens are what `parseNumber` captures of a whole text. -/
theorem parseNumber_self_iff {raw : Bytes} :
    parseNumber raw = some (raw, []) ↔ ∃ t : NumberToken, t.bytes = raw := by
  constructor
  · exact fun h => (parseNumber_eq_some h).2.2
  · rintro ⟨t, rfl⟩
    have hend : TokenEnd [] := fun c hc => by cases hc
    have h := parseNumber_bytes t hend
    rwa [List.append_nil] at h

/-! ## Converting it -/

/-- The largest value of 32 bits. -/
def uint32Max : Nat := 0xFFFFFFFF

/-- The value of a digit. -/
theorem toNat_digitValue {c : UInt8} (hc : isDigit c = true) :
    (c - 48).toUInt64.toNat = c.toNat - 48 ∧ c.toNat - 48 < 10 := by
  simp only [isDigit, UInt8.le_iff_toNat_le, decide_eq_true_eq] at hc
  have h48 : (48 : UInt8).toNat = 48 := rfl
  have h57 : (57 : UInt8).toNat = 57 := rfl
  rw [h48, h57] at hc
  refine ⟨?_, by omega⟩
  rw [UInt8.toNat_toUInt64, UInt8.toNat_sub_of_le _ _ (UInt8.le_iff_toNat_le.mpr (h48 ▸ hc.1)), h48]

theorem accumulate_eq {s : Bytes} (hs : ∀ c ∈ s, isDigit c = true) {v : UInt64}
    (hv : v.toNat ≤ uint32Max) : accumulate v s =
      if ofDecimal v.toNat s ≤ uint32Max then some (UInt64.ofNat (ofDecimal v.toNat s))
      else none := by
  induction s generalizing v with
  | nil =>
    rw [show ofDecimal v.toNat [] = v.toNat from rfl, if_pos hv, UInt64.ofNat_toNat]
    rfl
  | cons c s ih =>
    obtain ⟨hc, hs⟩ := List.forall_mem_cons.mp hs
    obtain ⟨hsub, hlt⟩ := toNat_digitValue hc
    have hstep : (v * 10 + (c - 48).toUInt64).toNat = v.toNat * 10 + (c.toNat - 48) := by
      have hten : (10 : UInt64).toNat = 10 := rfl
      rw [UInt64.toNat_add, UInt64.toNat_mul, hsub, hten]
      simp only [uint32Max] at hv
      omega
    have hof : ofDecimal v.toNat (c :: s) = ofDecimal (v.toNat * 10 + (c.toNat - 48)) s := rfl
    have hmax : (0xFFFFFFFF : UInt64).toNat = uint32Max := rfl
    rw [accumulate, hc]
    simp only [Bool.not_true, Bool.false_eq_true, if_false, gt_iff_lt, UInt64.lt_iff_toNat_lt,
      hstep, hmax, hof]
    have hle := le_ofDecimal (v.toNat * 10 + (c.toNat - 48)) s
    split
    · next hbig => rw [if_neg (by omega)]
    · next hsmall => rw [ih hs (by omega), hstep]

/-- A 32-bit value, when it is one. -/
def toUint32? (n : Nat) : Option UInt32 := if n ≤ uint32Max then some (UInt32.ofNat n) else none

theorem toUInt32_ofNat {n : Nat} (h : n ≤ uint32Max) :
    (UInt64.ofNat n).toUInt32 = UInt32.ofNat n := by
  simp only [uint32Max] at h
  apply UInt32.toNat_inj.mp
  have h64 : n < 2 ^ 64 := by omega
  have h32 : n < 2 ^ 32 := by omega
  rw [UInt64.toNat_toUInt32, UInt64.toNat_ofNat_of_lt' h64, UInt32.toNat_ofNat_of_lt' h32,
    Nat.mod_eq_of_lt h32]

theorem accumulate_of_not_digit {s : Bytes} {c : UInt8} (hc : c ∈ s) (hd : isDigit c = false)
    (v : UInt64) : accumulate v s = none := by
  induction s generalizing v with
  | nil => cases hc
  | cons e s ih =>
    rw [accumulate]
    by_cases he : isDigit e = true
    · have hne : c ≠ e := by
        rintro rfl
        rw [hd] at he
        cases he
      have hs : c ∈ s := (List.mem_cons.mp hc).resolve_left hne
      simp only [he, Bool.not_true, Bool.false_eq_true, if_false]
      split
      · rfl
      · exact ih hs _
    · simp only [Bool.not_eq_true] at he
      rw [he]
      rfl

/-- An integer without a sign converts when it has 32 bits; no other token does. -/
theorem parseUint32_bytes (t : NumberToken) : parseUint32 t.bytes =
    if t.bytes.all isDigit then toUint32? (ofDecimal 0 t.int) else none := by
  have hne : t.bytes ≠ [] := by
    intro h
    exact t.head_bytes.1 (by rw [h]; rfl)
  rw [parseUint32, if_neg hne]
  by_cases hall : t.bytes.all isDigit = true
  · have hdigits := List.all_eq_true.mp hall
    have hneg : t.negative = false := by
      cases hn : t.negative with
      | true =>
        have h45 := hdigits 45 (by rw [NumberToken.bytes, hn]; exact List.mem_cons_self)
        cases h45
      | false => rfl
    have hfrac : t.frac = [] := by
      by_contra hf
      have h46 := hdigits 46 (by simp [NumberToken.bytes, NumberToken.body, hf])
      cases h46
    have hbytes : t.bytes = t.int := by simp [NumberToken.bytes, NumberToken.body, hneg, hfrac]
    have hacc := accumulate_eq t.int_digits (v := 0) (Nat.zero_le _)
    rw [if_pos hall, hbytes, hacc, toUint32?]
    rw [show (0 : UInt64).toNat = 0 from rfl]
    split
    · next h => rw [Option.map_some, toUInt32_ofNat h]
    · rfl
  · rw [if_neg hall]
    rw [List.all_eq_true] at hall
    push Not at hall
    obtain ⟨c, hc, hd⟩ := hall
    rw [accumulate_of_not_digit hc (by simpa using hd)]
    rfl

/-- One place or none is padded to two. -/
theorem padded_frac {s : Bytes} (hlen : s.length ≤ 2) (hs : ∀ c ∈ s, isDigit c = true) :
    ∃ f₀ f₁, s ++ List.replicate (2 - s.length) 48 = [f₀, f₁] ∧ isDigit f₀ = true ∧
      isDigit f₁ = true := by
  match s, hlen, hs with
  | [], _, _ => exact ⟨48, 48, rfl, rfl, rfl⟩
  | [a], _, hs => exact ⟨a, 48, rfl, hs a List.mem_cons_self, rfl⟩
  | [a, b], _, hs => exact ⟨a, b, rfl, hs a List.mem_cons_self, hs b (by simp)⟩

/-- Zeros behind a number. -/
theorem ofDecimal_zeros (v k : Nat) : ofDecimal v (List.replicate k 48) = v * 10 ^ k := by
  induction k generalizing v with
  | zero => rw [Nat.pow_zero, Nat.mul_one]; rfl
  | succ k ih =>
    have hstep : ofDecimal v (List.replicate (k + 1) 48) =
        ofDecimal (v * 10) (List.replicate k 48) := rfl
    rw [hstep, ih, Nat.pow_succ]
    ring

/-- The whole part converted and scaled, with its two places. -/
theorem scale_eq {int : Bytes} (hint : ∀ c ∈ int, isDigit c = true) {f₀ f₁ : UInt8}
    (h₀ : isDigit f₀ = true) (h₁ : isDigit f₁ = true) :
    ((accumulate 0 int).bind fun whole =>
      let ticks := whole * 100 + ((f₀ - 48).toUInt64 * 10 + (f₁ - 48).toUInt64)
      if ticks > 0xFFFFFFFF then none else some ticks.toUInt32) =
      toUint32? (ofDecimal 0 (int ++ [f₀, f₁])) := by
  obtain ⟨hv₀, hlt₀⟩ := toNat_digitValue h₀
  obtain ⟨hv₁, hlt₁⟩ := toNat_digitValue h₁
  have hticks : ofDecimal 0 (int ++ [f₀, f₁]) =
      ofDecimal 0 int * 100 + ((f₀.toNat - 48) * 10 + (f₁.toNat - 48)) := by
    rw [ofDecimal_append]
    simp only [ofDecimal, List.foldl_cons, List.foldl_nil]
    ring
  have hacc := accumulate_eq hint (v := 0) (Nat.zero_le _)
  rw [show (0 : UInt64).toNat = 0 from rfl] at hacc
  rw [hacc, hticks, toUint32?]
  generalize ofDecimal 0 int = w
  by_cases hw : w ≤ uint32Max
  · have hval : (UInt64.ofNat w * 100 + ((f₀ - 48).toUInt64 * 10 + (f₁ - 48).toUInt64)).toNat =
        w * 100 + ((f₀.toNat - 48) * 10 + (f₁.toNat - 48)) := by
      simp only [uint32Max] at hw
      have hw64 : w < 2 ^ 64 := by omega
      have hten : (10 : UInt64).toNat = 10 := rfl
      have hcent : (100 : UInt64).toNat = 100 := rfl
      rw [UInt64.toNat_add, UInt64.toNat_mul, UInt64.toNat_add, UInt64.toNat_mul, hv₀, hv₁,
        UInt64.toNat_ofNat_of_lt' hw64, hten, hcent]
      omega
    have hmax : (0xFFFFFFFF : UInt64).toNat = uint32Max := rfl
    simp only [hw, if_true, Option.bind_some, gt_iff_lt, UInt64.lt_iff_toNat_lt, hval, hmax]
    by_cases hbig : uint32Max < w * 100 + ((f₀.toNat - 48) * 10 + (f₁.toNat - 48))
    · rw [if_pos hbig, if_neg (by omega)]
    · rw [if_neg hbig, if_pos (by omega), ← toUInt32_ofNat (by omega), ← hval, UInt64.ofNat_toNat]
  · rw [if_neg hw, if_neg (by omega)]
    rfl

/-- A token without a sign and with two places at most converts when its hundredths have 32 bits;
no other token does. -/
theorem parseDecimalToTicks_bytes (t : NumberToken) : parseDecimalToTicks t.bytes =
    if t.negative = true ∨ 2 < t.frac.length then none
    else toUint32? (ofDecimal 0 (t.int ++ t.frac) * 10 ^ (2 - t.frac.length)) := by
  obtain ⟨hhead, hsign⟩ := t.head_bytes
  by_cases hneg : t.negative = true
  · rw [parseDecimalToTicks, if_pos (Or.inr (hsign.mpr hneg)), if_pos (Or.inl hneg)]
  · have hbytes : t.bytes = t.body := by rw [NumberToken.bytes, if_neg hneg, List.nil_append]
    rw [parseDecimalToTicks, if_neg (not_or.mpr ⟨hhead, mt hsign.mp hneg⟩), hbytes]
    dsimp only
    rw [t.takeWhile_body.1, t.takeWhile_body.2]
    by_cases hlen : 2 < t.frac.length
    · rw [if_pos (Or.inr hlen), if_pos (Or.inr hlen)]
    · obtain ⟨f₀, f₁, hpad, h₀, h₁⟩ := padded_frac (Nat.not_lt.mp hlen) t.frac_digits
      rw [if_neg (not_or.mpr ⟨t.int_ne, hlen⟩), if_neg (not_or.mpr ⟨hneg, hlen⟩), hpad,
        ← ofDecimal_zeros, ← ofDecimal_append, List.append_assoc, hpad,
        ← scale_eq t.int_digits h₀ h₁]
      simp only [h₀, h₁, Bool.not_true, Bool.or_false, Bool.false_eq_true, if_false]
      rfl

/-! ## Sums in range -/

/-- An operation whose exact result has no 64 bits. -/
inductive Overflow
  | add
  | mul
  deriving DecidableEq, Repr

def addChecked (a b : UInt64) : Except Overflow UInt64 :=
  if a.toNat + b.toNat < 2 ^ 64 then .ok (a + b) else .error .add

def mulChecked (a b : UInt64) : Except Overflow UInt64 :=
  if a.toNat * b.toNat < 2 ^ 64 then .ok (a * b) else .error .mul

/-- `accumulate` that stops at an operation that wraps. -/
def accumulateChecked : UInt64 → Bytes → Except Overflow (Option UInt64)
  | v, [] => .ok (some v)
  | v, c :: s =>
    if !isDigit c then .ok none else do
    let v ← mulChecked v 10
    let v ← addChecked v (c - 48).toUInt64
    if v > 0xFFFFFFFF then .ok none else accumulateChecked v s

/-- `parseUint32` that stops at an operation that wraps. -/
def parseUint32Checked (raw : Bytes) : Except Overflow (Option UInt32) :=
  if raw = [] then .ok none else do
  let v ← accumulateChecked 0 raw
  pure (v.map UInt64.toUInt32)

/-- `parseDecimalToTicks` that stops at an operation that wraps. -/
def parseDecimalToTicksChecked (raw : Bytes) : Except Overflow (Option UInt32) :=
  if raw.head? = none ∨ raw.head? = some 45 then .ok none else
  let intPart := raw.takeWhile (· ≠ 46)
  let fracPart := (raw.dropWhile (· ≠ 46)).drop 1
  if intPart = [] ∨ 2 < fracPart.length then .ok none else
  match fracPart ++ List.replicate (2 - fracPart.length) 48 with
  | [f₀, f₁] =>
    if !isDigit f₀ || !isDigit f₁ then .ok none else do
      match ← accumulateChecked 0 intPart with
      | none => .ok none
      | some whole =>
        let tens ← mulChecked (f₀ - 48).toUInt64 10
        let frac ← addChecked tens (f₁ - 48).toUInt64
        let scaled ← mulChecked whole 100
        let ticks ← addChecked scaled frac
        if ticks > 0xFFFFFFFF then .ok none else .ok (some ticks.toUInt32)
  | _ => .ok none

theorem addChecked_of_lt {a b : UInt64} (h : a.toNat + b.toNat < 2 ^ 64) :
    addChecked a b = .ok (a + b) ∧ (a + b).toNat = a.toNat + b.toNat :=
  ⟨if_pos h, by rw [UInt64.toNat_add, Nat.mod_eq_of_lt h]⟩

theorem mulChecked_of_lt {a b : UInt64} (h : a.toNat * b.toNat < 2 ^ 64) :
    mulChecked a b = .ok (a * b) ∧ (a * b).toNat = a.toNat * b.toNat :=
  ⟨if_pos h, by rw [UInt64.toNat_mul, Nat.mod_eq_of_lt h]⟩

/-- The cut-off leaves room for one more digit. -/
theorem accumulateChecked_eq {v : UInt64} (hv : v.toNat ≤ uint32Max) (s : Bytes) :
    accumulateChecked v s = .ok (accumulate v s) ∧ ∀ w ∈ accumulate v s, w.toNat ≤ uint32Max := by
  induction s generalizing v with
  | nil => exact ⟨rfl, fun w hw => by cases hw; exact hv⟩
  | cons c s ih =>
    rw [accumulateChecked, accumulate]
    cases hc : isDigit c with
    | false => exact ⟨rfl, fun w hw => by cases hw⟩
    | true =>
      obtain ⟨hd, hlt⟩ := toNat_digitValue hc
      have hten : (10 : UInt64).toNat = 10 := rfl
      simp only [uint32Max] at hv
      obtain ⟨hmul, hprod⟩ := mulChecked_of_lt (a := v) (b := 10) (by rw [hten]; omega)
      obtain ⟨hadd, -⟩ := addChecked_of_lt (a := v * 10) (b := (c - 48).toUInt64)
        (by rw [hprod, hd, hten]; omega)
      simp only [hmul, hadd, bind, Except.bind, Bool.not_true, Bool.false_eq_true, if_false]
      split
      · exact ⟨rfl, fun w hw => by cases hw⟩
      · next hsmall =>
        rw [gt_iff_lt, UInt64.lt_iff_toNat_lt, Nat.not_lt] at hsmall
        exact ih hsmall

/-- Neither conversion wraps, on any text. -/
theorem conversions_in_range (raw : Bytes) :
    parseUint32Checked raw = .ok (parseUint32 raw) ∧
      parseDecimalToTicksChecked raw = .ok (parseDecimalToTicks raw) := by
  constructor
  · obtain ⟨hacc, -⟩ := accumulateChecked_eq (v := 0) (Nat.zero_le _) raw
    rw [parseUint32Checked, parseUint32, hacc]
    split <;> rfl
  · obtain ⟨hacc, hmax⟩ := accumulateChecked_eq (v := 0) (Nat.zero_le _) (raw.takeWhile (· ≠ 46))
    rw [parseDecimalToTicksChecked, parseDecimalToTicks]
    split
    · rfl
    · dsimp only
      split
      · rfl
      · generalize (raw.dropWhile (· ≠ 46)).drop 1 ++ List.replicate
          (2 - ((raw.dropWhile (· ≠ 46)).drop 1).length) 48 = padded
        match padded with
        | [] | [_] | _ :: _ :: _ :: _ => rfl
        | [f₀, f₁] =>
          dsimp only
          split
          · rfl
          · next hdigits =>
            simp only [Bool.or_eq_true, Bool.not_eq_true', not_or, Bool.not_eq_false] at hdigits
            obtain ⟨hv₀, hlt₀⟩ := toNat_digitValue hdigits.1
            obtain ⟨hv₁, hlt₁⟩ := toNat_digitValue hdigits.2
            rw [hacc]
            cases hw : accumulate 0 (raw.takeWhile (· ≠ 46)) with
            | none => rfl
            | some whole =>
              have hwhole := hmax whole hw
              simp only [uint32Max] at hwhole
              have hten : (10 : UInt64).toNat = 10 := rfl
              have hcent : (100 : UInt64).toNat = 100 := rfl
              obtain ⟨htens, hp₁⟩ := mulChecked_of_lt (a := (f₀ - 48).toUInt64) (b := 10)
                (by rw [hv₀, hten]; omega)
              obtain ⟨hfrac, hs₁⟩ := addChecked_of_lt (a := (f₀ - 48).toUInt64 * 10)
                (b := (f₁ - 48).toUInt64) (by rw [hp₁, hv₀, hv₁, hten]; omega)
              obtain ⟨hscaled, hp₂⟩ := mulChecked_of_lt (a := whole) (b := 100)
                (by rw [hcent]; omega)
              obtain ⟨hticks, -⟩ := addChecked_of_lt (a := whole * 100)
                (b := (f₀ - 48).toUInt64 * 10 + (f₁ - 48).toUInt64)
                (by rw [hp₂, hs₁, hp₁, hv₀, hv₁, hten, hcent]; omega)
              simp only [htens, hfrac, hscaled, hticks, bind, Except.bind, Option.bind]
              split <;> rfl

end MarketMakerOps.Exchange
