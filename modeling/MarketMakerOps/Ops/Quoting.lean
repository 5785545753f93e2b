import MarketMakerOps.Lib.Rounding
import Mathlib.Tactic.Ring
import Mathlib.Tactic.NormNum

/-!
Quoting (`market_maker/quoting.py`) in exact arithmetic. Prices rounded to two
decimals are kept as floats keep them, a sign and so many cents: what rounds to zero
from below is `-0.0`.
-/

namespace MarketMakerOps.Ops

open Rounding

def SPREAD : ℚ := 4 / 100

def SKEW_K : ℚ := 1 / 100

def QUOTE_SIZE : Nat := 10

structure Price where
  negative : Bool
  cents : ℕ
  deriving DecidableEq, Repr

/-- A literal is a price without a minus, in cents. -/
instance (n : ℕ) : OfNat Price n := ⟨⟨false, n⟩⟩

/-- Its value in cents; both zeros are zero. -/
def Price.value (p : Price) : ℤ := if p.negative then -p.cents else p.cents

structure Quote where
  bid : Price
  ask : Price
  deriving DecidableEq, Repr

def reservationPrice (fairValue inventory k : ℚ) : ℚ := fairValue - k * inventory

/-- `round(x, 2)`; it keeps the sign of `x`. -/
def roundCents (x : ℚ) : Price := ⟨x < 0, (roundHalfEven (100 * x)).natAbs⟩

def computeQuote (fairValue inventory spread k : ℚ) : Quote :=
  let rp := reservationPrice fairValue inventory k
  ⟨roundCents (rp - spread / 2), roundCents (rp + spread / 2)⟩

theorem roundCents_negative (x : ℚ) : (roundCents x).negative = false ↔ 0 ≤ x := by
  rw [roundCents, decide_eq_false_iff_not, not_lt]

theorem roundCents_value (x : ℚ) : (roundCents x).value = roundHalfEven (100 * x) := by
  rw [roundCents, Price.value]
  by_cases hx : x < 0
  · have hle := roundHalfEven_nonpos (show 100 * x < 0 by linarith)
    rw [if_pos (decide_eq_true hx)]
    exact (congrArg Neg.neg (Int.ofNat_natAbs_of_nonpos hle)).trans (neg_neg _)
  · have hle : 0 ≤ roundHalfEven (100 * x) := by
      refine (le_roundHalfEven_iff (by decide)).mpr ?_
      rw [Int.cast_zero]
      linarith [not_lt.mp hx]
    rw [if_neg (by simpa using hx)]
    exact Int.natAbs_of_nonneg hle

/-- The default spread survives rounding: four cents, whatever the fair value and the inventory. -/
theorem computeQuote_spread (fairValue inventory : ℚ) :
    (computeQuote fairValue inventory SPREAD SKEW_K).ask.value =
      (computeQuote fairValue inventory SPREAD SKEW_K).bid.value + 4 := by
  have hshift := roundHalfEven_add_even
    (100 * (reservationPrice fairValue inventory SKEW_K - SPREAD / 2)) (k := 4) (by decide)
  have hcents : 100 * (reservationPrice fairValue inventory SKEW_K + SPREAD / 2) =
      100 * (reservationPrice fairValue inventory SKEW_K - SPREAD / 2) + ((4 : ℤ) : ℚ) := by
    unfold SPREAD
    push_cast
    ring
  simp only [computeQuote, roundCents_value]
  rw [hcents, hshift]

theorem computeQuote_lt (fairValue inventory : ℚ) :
    (computeQuote fairValue inventory SPREAD SKEW_K).bid.value <
      (computeQuote fairValue inventory SPREAD SKEW_K).ask.value := by
  rw [computeQuote_spread]
  omega

end MarketMakerOps.Ops
