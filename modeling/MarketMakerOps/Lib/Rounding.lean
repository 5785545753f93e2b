import Mathlib.Algebra.Order.Floor.Ring
import Mathlib.Algebra.Ring.Int.Parity
import Mathlib.Data.Rat.Floor
import Mathlib.Tactic.Linarith

/-!
# Rounding half to even

* `roundHalfEven x`: the nearest integer, the even one of two that are equally near;
* `roundHalfEven_add_even`: moving `x` by an even integer moves the result with it;
* `roundHalfEven_nonpos`: a negative number rounds to zero at most;
* `le_roundHalfEven_iff`: an even integer is reached from half a unit below it on.
-/

namespace Rounding

/-- The nearest integer, ties to the even one. -/
def roundHalfEven (x : ℚ) : ℤ :=
  if Int.fract x < 1 / 2 then ⌊x⌋
  else if 1 / 2 < Int.fract x then ⌊x⌋ + 1
  else if Even ⌊x⌋ then ⌊x⌋
  else ⌊x⌋ + 1

/-- Only the parity of the floor matters, and an even shift keeps it. -/
theorem roundHalfEven_add_even (x : ℚ) {k : ℤ} (hk : Even k) :
    roundHalfEven (x + k) = roundHalfEven x + k := by
  have hparity : Even (⌊x⌋ + k) ↔ Even ⌊x⌋ := by
    rw [Int.even_add]
    exact ⟨fun h => h.mpr hk, fun h => ⟨fun _ => hk, fun _ => h⟩⟩
  unfold roundHalfEven
  rw [Int.fract_add_intCast, Int.floor_add_intCast]
  simp only [hparity]
  split
  · rfl
  · split
    · ring
    · split
      · rfl
      · ring

/-- What is negative rounds to zero at most. -/
theorem roundHalfEven_nonpos {x : ℚ} (hx : x < 0) : roundHalfEven x ≤ 0 := by
  have hfloor : ⌊x⌋ < 0 := Int.floor_lt.mpr (by rwa [Int.cast_zero])
  unfold roundHalfEven
  split_ifs <;> omega

/-- The point half a unit below an even integer rounds up to it. -/
theorem le_roundHalfEven_iff {x : ℚ} {k : ℤ} (hk : Even k) :
    k ≤ roundHalfEven x ↔ (k : ℚ) - 1 / 2 ≤ x := by
  have hfloor := Int.floor_add_fract x
  have hnonneg := Int.fract_nonneg x
  have hlt := Int.fract_lt_one x
  -- both sides compare `k` with the integer part, which differs by the fraction
  have hle : ∀ n : ℤ, k ≤ n → (k : ℚ) ≤ n := fun n h => by exact_mod_cast h
  have hgt : ∀ n : ℤ, ¬k ≤ n → (n : ℚ) + 1 ≤ k := fun n h => by exact_mod_cast Int.not_le.mp h
  have hiff : ∀ n : ℤ, ((k : ℚ) ≤ n → (k : ℚ) - 1 / 2 ≤ x) → ((n : ℚ) + 1 ≤ k → x < k - 1 / 2) →
      (k ≤ n ↔ (k : ℚ) - 1 / 2 ≤ x) := by
    intro n h₁ h₂
    refine ⟨fun h => h₁ (hle n h), fun h => ?_⟩
    by_contra hn
    exact absurd h (not_le.mpr (h₂ (hgt n hn)))
  unfold roundHalfEven
  split
  · exact hiff _ (fun h => by linarith) (fun h => by linarith)
  · split
    · exact hiff _ (fun h => by push_cast at h; linarith) (fun h => by push_cast at h; linarith)
    · have hhalf : Int.fract x = 1 / 2 := le_antisymm (not_lt.mp ‹_›) (not_lt.mp ‹_›)
      split
      · next heven =>
        refine hiff _ (fun h => by linarith) fun h => ?_
        -- the floor is even and below `k`, so it is below by two
        have hne : ⌊x⌋ + 1 ≠ k := by
          rintro rfl
          exact (Int.even_add_one.mp hk) heven
        have hlt' : ⌊x⌋ + 1 < k := lt_of_le_of_ne (by exact_mod_cast h) hne
        have hcast : (⌊x⌋ : ℚ) + 1 + 1 ≤ k := by exact_mod_cast hlt'
        linarith
      · exact hiff _ (fun h => by push_cast at h; linarith) (fun h => by push_cast at h; linarith)

end Rounding
