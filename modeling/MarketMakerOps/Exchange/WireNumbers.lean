import MarketMakerOps.Exchange.Numbers
import MarketMakerOps.Exchange.Encoding
import Mathlib.Tactic.FieldSimp
import Mathlib.Tactic.Linarith

/-!
Numbers on the wire as rationals: what a token denotes, and that the two
conversions and `ticksToDecimal` keep it.
-/

namespace MarketMakerOps.Exchange

open Decimal

namespace NumberToken

/-- The number of hundredths, tenths, .. of a token, without its sign. -/
def magnitude (t : NumberToken) : ℚ := (ofDecimal 0 (t.int ++ t.frac) : ℚ) / 10 ^ t.frac.length

/-- The rational a token denotes. -/
def value (t : NumberToken) : ℚ := if t.negative then -t.magnitude else t.magnitude

variable (t : NumberToken)

/-- With two places at most, the hundredths are whole. -/
theorem magnitude_mul_hundred (h : t.frac.length ≤ 2) : t.magnitude * 100 =
    ((ofDecimal 0 (t.int ++ t.frac) * 10 ^ (2 - t.frac.length) : Nat) : ℚ) := by
  have hpow : (10 : ℚ) ^ t.frac.length * 10 ^ (2 - t.frac.length) = 100 := by
    rw [← pow_add, Nat.add_sub_cancel' h]
    norm_num
  have hne : (10 : ℚ) ^ t.frac.length ≠ 0 := pow_ne_zero _ (by norm_num)
  rw [magnitude, Nat.cast_mul, Nat.cast_pow, Nat.cast_ofNat, ← hpow]
  field_simp

/-- Only digits: no sign and no point. -/
theorem all_isDigit_iff : t.bytes.all isDigit = true ↔ t.negative = false ∧ t.frac = [] := by
  rw [List.all_eq_true]
  constructor
  · intro hall
    refine ⟨?_, ?_⟩
    · by_contra hneg
      have h45 := hall 45 (by simp [bytes, hneg])
      cases h45
    · by_contra hfrac
      have h46 := hall 46 (by simp [bytes, body, hfrac])
      cases h46
  · rintro ⟨hneg, hfrac⟩
    have hbytes : t.bytes = t.int := by simp [bytes, body, hneg, hfrac]
    rw [hbytes]
    exact t.int_digits

end NumberToken

theorem toUint32?_isSome {n : Nat} : (toUint32? n).isSome = true ↔ (n : ℚ) ≤ 2 ^ 32 - 1 := by
  have hmax : (n : ℚ) ≤ 2 ^ 32 - 1 ↔ n ≤ uint32Max := by
    rw [show (2 : ℚ) ^ 32 - 1 = ((uint32Max : Nat) : ℚ) by norm_num [uint32Max]]
    exact Nat.cast_le
  rw [hmax, toUint32?]
  split <;> simp_all

theorem toNat_of_toUint32? {n : Nat} {w : UInt32} (h : toUint32? n = some w) : w.toNat = n := by
  rw [toUint32?] at h
  split at h
  · next hle =>
    cases h
    have hlt : n < 2 ^ 32 := by
      simp only [uint32Max] at hle
      omega
    exact UInt32.toNat_ofNat_of_lt' hlt
  · cases h

section Prices

variable {t : NumberToken} {n : UInt32}

theorem parseDecimalToTicks_isSome : (parseDecimalToTicks t.bytes).isSome = true ↔
    t.negative = false ∧ t.frac.length ≤ 2 ∧ t.value * 100 ≤ 2 ^ 32 - 1 := by
  rw [parseDecimalToTicks_bytes]
  split
  · next h =>
    refine iff_of_false (by simp) ?_
    rintro ⟨hneg, hlen, -⟩
    rcases h with h | h
    · rw [hneg] at h
      cases h
    · omega
  · next h =>
    obtain ⟨hneg, hlen⟩ := not_or.mp h
    rw [Bool.not_eq_true] at hneg
    rw [Nat.not_lt] at hlen
    rw [toUint32?_isSome, ← t.magnitude_mul_hundred hlen, NumberToken.value, hneg]
    simp [hlen]

theorem parseDecimalToTicks_value (h : parseDecimalToTicks t.bytes = some n) :
    (n.toNat : ℚ) = t.value * 100 := by
  obtain ⟨hneg, hlen, -⟩ := parseDecimalToTicks_isSome.mp (by rw [h]; rfl)
  rw [parseDecimalToTicks_bytes, if_neg (by simp [hneg, hlen])] at h
  rw [toNat_of_toUint32? h, ← t.magnitude_mul_hundred hlen, NumberToken.value, hneg]
  rfl

theorem parseUint32_isSome : (parseUint32 t.bytes).isSome = true ↔
    t.bytes.all isDigit = true ∧ t.value ≤ 2 ^ 32 - 1 := by
  rw [parseUint32_bytes]
  split
  · next h =>
    obtain ⟨hneg, hfrac⟩ := t.all_isDigit_iff.mp h
    have hvalue : t.value = ofDecimal 0 t.int := by
      simp [NumberToken.value, NumberToken.magnitude, hneg, hfrac]
    rw [toUint32?_isSome, hvalue, and_iff_right h]
  · next h => exact iff_of_false (by simp) fun hall => h hall.1

theorem parseUint32_value (h : parseUint32 t.bytes = some n) : (n.toNat : ℚ) = t.value := by
  obtain ⟨hall, -⟩ := parseUint32_isSome.mp (by rw [h]; rfl)
  obtain ⟨hneg, hfrac⟩ := t.all_isDigit_iff.mp hall
  rw [parseUint32_bytes, if_pos hall] at h
  rw [toNat_of_toUint32? h]
  simp [NumberToken.value, NumberToken.magnitude, hneg, hfrac]

end Prices

/-! ## Writing a price -/

/-- What `ticksToDecimal` writes is a token with two places. -/
def ticksToken (ticks : UInt32) : NumberToken where
  negative := false
  int := toDecimal (ticks.toNat / 100)
  frac := [digit (ticks.toNat % 100 / 10), digit (ticks.toNat % 100 % 10)]
  int_ne := toDecimal_ne_nil _
  int_digits := isDigit_of_mem _
  frac_digits := by
    have h1 := isDigit_digit (show ticks.toNat % 100 / 10 < 10 by omega)
    have h2 := isDigit_digit (show ticks.toNat % 100 % 10 < 10 by omega)
    simp only [List.mem_cons, List.not_mem_nil, or_false, forall_eq_or_imp, forall_eq]
    exact ⟨h1, h2⟩

theorem bytes_ticksToken (ticks : UInt32) : (ticksToken ticks).bytes = ticksToDecimal ticks := rfl

theorem ofDecimal_ticksToken (ticks : UInt32) :
    ofDecimal 0 ((ticksToken ticks).int ++ (ticksToken ticks).frac) = ticks.toNat := by
  have h1 := toNat_digit (show ticks.toNat % 100 / 10 < 10 by omega)
  have h2 := toNat_digit (show ticks.toNat % 100 % 10 < 10 by omega)
  rw [ticksToken, ofDecimal_append, ofDecimal_toDecimal]
  simp only [ofDecimal, List.foldl_cons, List.foldl_nil, h1, h2]
  omega

theorem value_ticksToken (ticks : UInt32) : (ticksToken ticks).value * 100 = ticks.toNat := by
  have h := (ticksToken ticks).magnitude_mul_hundred le_rfl
  rw [ofDecimal_ticksToken] at h
  rw [NumberToken.value, show (ticksToken ticks).negative = false from rfl]
  simpa [ticksToken] using h

theorem parseDecimalToTicks_ticksToDecimal (ticks : UInt32) :
    parseDecimalToTicks (ticksToDecimal ticks) = some ticks := by
  have hle : ticks.toNat ≤ uint32Max := by
    have := ticks.toNat_lt
    simp only [uint32Max]
    omega
  rw [← bytes_ticksToken, parseDecimalToTicks_bytes, ofDecimal_ticksToken]
  simp [ticksToken, toUint32?, hle]

/-! ## Both directions -/

/-- Prices and quantities convert exactly, over all tokens `parseNumber` captures: what is accepted,
the value returned, no operation that wraps, and the price written back. -/
theorem wire_numbers_exact :
    (∀ raw, parseNumber raw = some (raw, []) ↔ ∃ t : NumberToken, t.bytes = raw) ∧
    (∀ t : NumberToken,
      ((parseDecimalToTicks t.bytes).isSome = true ↔
        t.negative = false ∧ t.frac.length ≤ 2 ∧ t.value * 100 ≤ 2 ^ 32 - 1) ∧
      (∀ n, parseDecimalToTicks t.bytes = some n → (n.toNat : ℚ) = t.value * 100 ∧
        ∃ t' : NumberToken, t'.bytes = ticksToDecimal n ∧ t'.value = t.value ∧
          ∀ t'' : NumberToken, t''.bytes = ticksToDecimal n → t'' = t') ∧
      ((parseUint32 t.bytes).isSome = true ↔
        t.bytes.all isDigit = true ∧ t.value ≤ 2 ^ 32 - 1) ∧
      ∀ n, parseUint32 t.bytes = some n → (n.toNat : ℚ) = t.value) ∧
    (∀ raw, parseUint32Checked raw = .ok (parseUint32 raw) ∧
      parseDecimalToTicksChecked raw = .ok (parseDecimalToTicks raw)) ∧
    ∀ ticks, parseDecimalToTicks (ticksToDecimal ticks) = some ticks := by
  refine ⟨fun raw => parseNumber_self_iff, fun t => ⟨parseDecimalToTicks_isSome, fun n h => ?_,
    parseUint32_isSome, fun n => parseUint32_value⟩, conversions_in_range,
    parseDecimalToTicks_ticksToDecimal⟩
  have hvalue := parseDecimalToTicks_value h
  refine ⟨hvalue, ticksToken n, bytes_ticksToken n, ?_, fun t'' h'' => ?_⟩
  · have hticks := value_ticksToken n
    linarith
  · exact NumberToken.bytes_inj (h''.trans (bytes_ticksToken n).symm)

end MarketMakerOps.Exchange
