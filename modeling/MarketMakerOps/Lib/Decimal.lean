import Mathlib.Data.UInt
import Mathlib.Data.Nat.Digits.Defs

/-!
# Decimal numerals as bytes

* `toDecimal n`: the digits of `n`, most significant first, without leading zeros;
* `ofDecimal s`: the number a digit string denotes;
* `ofDecimal_toDecimal`, `toDecimal_inj`: the round trip.
-/

namespace Decimal

/-- A byte string. -/
abbrev Bytes := List UInt8

def isDigit (c : UInt8) : Bool := 48 ≤ c ∧ c ≤ 57

/-- The byte of a digit below ten. -/
def digit (d : Nat) : UInt8 := UInt8.ofNat (48 + d)

/-- The digits of a number. -/
def toDecimal (n : Nat) : Bytes := (Nat.toDigits 10 n).map fun c => UInt8.ofNat c.toNat

/-- Append the digits of a string to a number. -/
def ofDecimal (v : Nat) (s : Bytes) : Nat := s.foldl (fun v c => v * 10 + (c.toNat - 48)) v

theorem toNat_digit {d : Nat} (hd : d < 10) : (digit d).toNat = 48 + d := by
  rw [digit, UInt8.toNat_ofNat_of_lt']
  show 48 + d < 256
  omega

theorem isDigit_digit {d : Nat} (hd : d < 10) : isDigit (digit d) = true := by
  have h := toNat_digit hd
  simp only [isDigit, UInt8.le_iff_toNat_le, h, decide_eq_true_eq]
  have h48 : (48 : UInt8).toNat = 48 := rfl
  have h57 : (57 : UInt8).toNat = 57 := rfl
  omega

theorem digitChar_eq : ∀ d < 10, UInt8.ofNat d.digitChar.toNat = digit d := by decide

/-- The last digit and the digits before it. -/
theorem toDecimal_eq (n : Nat) : toDecimal n =
    if n < 10 then [digit n] else toDecimal (n / 10) ++ [digit (n % 10)] := by
  rw [toDecimal, Nat.toDigits_eq_if (by decide)]
  split
  · next h => simp [digitChar_eq n h]
  · simp [toDecimal, digitChar_eq (n % 10) (Nat.mod_lt n (by decide))]

theorem toDecimal_of_lt {n : Nat} (h : n < 10) : toDecimal n = [digit n] := by
  rw [toDecimal_eq, if_pos h]

theorem toDecimal_of_le {n : Nat} (h : 10 ≤ n) :
    toDecimal n = toDecimal (n / 10) ++ [digit (n % 10)] := by
  rw [toDecimal_eq, if_neg (by omega)]

theorem toDecimal_ne_nil (n : Nat) : toDecimal n ≠ [] := by
  rw [toDecimal_eq]
  split <;> simp

/-- Every byte of a numeral is a digit. -/
theorem isDigit_of_mem (n : Nat) : ∀ c ∈ toDecimal n, isDigit c = true := by
  induction n using Nat.strong_induction_on with
  | _ n ih =>
    intro c hc
    by_cases h : n < 10
    · rw [toDecimal_of_lt h, List.mem_singleton] at hc
      rw [hc]
      exact isDigit_digit h
    · rw [toDecimal_of_le (by omega), List.mem_append, List.mem_singleton] at hc
      rcases hc with hc | rfl
      · exact ih (n / 10) (by omega) c hc
      · exact isDigit_digit (by omega)

theorem ofDecimal_append (v : Nat) (s t : Bytes) :
    ofDecimal v (s ++ t) = ofDecimal (ofDecimal v s) t := List.foldl_append

/-- A numeral denotes its number. -/
theorem ofDecimal_toDecimal (n : Nat) : ofDecimal 0 (toDecimal n) = n := by
  induction n using Nat.strong_induction_on with
  | _ n ih =>
    by_cases h : n < 10
    · rw [toDecimal_of_lt h]
      simp only [ofDecimal, List.foldl_cons, List.foldl_nil, toNat_digit h]
      omega
    · rw [toDecimal_of_le (by omega), ofDecimal_append, ih (n / 10) (by omega)]
      simp only [ofDecimal, List.foldl_cons, List.foldl_nil,
        toNat_digit (show n % 10 < 10 by omega)]
      omega

theorem toDecimal_inj {m n : Nat} : toDecimal m = toDecimal n ↔ m = n := by
  constructor
  · intro h
    rw [← ofDecimal_toDecimal m, h, ofDecimal_toDecimal]
  · exact fun h => h ▸ rfl

/-- Digits only make a number larger. -/
theorem le_ofDecimal (v : Nat) (s : Bytes) : v ≤ ofDecimal v s := by
  induction s generalizing v with
  | nil => exact le_rfl
  | cons c s ih =>
    have := ih (v * 10 + (c.toNat - 48))
    simp only [ofDecimal, List.foldl_cons] at this ⊢
    omega

/-- A scan takes what passes, up to the first byte that does not. -/
theorem scan_append {s : Bytes} {c : UInt8} {p : UInt8 → Bool} (h : ∀ d ∈ s, p d = true)
    (hc : p c = false) (t : Bytes) :
    (s ++ c :: t).takeWhile p = s ∧ (s ++ c :: t).dropWhile p = c :: t := by
  induction s with
  | nil => simp [hc]
  | cons d s ih =>
    obtain ⟨hd, hs⟩ := List.forall_mem_cons.mp h
    obtain ⟨h1, h2⟩ := ih hs
    simp [hd, h1, h2]

/-- The first byte of a numeral is a digit. -/
theorem toDecimal_cons (n : Nat) : ∃ d s, toDecimal n = d :: s ∧ isDigit d = true := by
  cases h : toDecimal n with
  | nil => exact absurd h (toDecimal_ne_nil n)
  | cons d s => exact ⟨d, s, rfl, isDigit_of_mem n d (h ▸ List.mem_cons_self)⟩

/-- A numeral of more than one digit has no leading zero. -/
theorem toDecimal_head (n : Nat) : (toDecimal n).head? = some 48 → (toDecimal n).length = 1 := by
  induction n using Nat.strong_induction_on with
  | _ n ih =>
    intro h
    by_cases hn : n < 10
    · rw [toDecimal_of_lt hn]
      rfl
    · obtain ⟨d, s, hd, -⟩ := toDecimal_cons (n / 10)
      rw [toDecimal_of_le (by omega), hd, List.cons_append, List.head?_cons] at h
      have hlength := ih (n / 10) (by omega) (by rw [hd, List.head?_cons, h])
      -- the digits before the last are a single zero, so the number is below ten
      rw [hd, List.length_cons] at hlength
      have hs : s = [] := List.eq_nil_of_length_eq_zero (by omega)
      have hzero := ofDecimal_toDecimal (n / 10)
      rw [hd, hs, Option.some_inj.mp h] at hzero
      have h0 : ofDecimal 0 [48] = 0 := rfl
      omega

end Decimal
