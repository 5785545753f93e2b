import MarketMakerOps.Engine.Types
import Mathlib.Algebra.Field.Rat
import Mathlib.Algebra.BigOperators.Group.Finset.Piecewise
import Mathlib.Algebra.BigOperators.Ring.Finset
import Mathlib.Tactic.Ring

/-!
`PositionState` (`market_maker/state.py`) in exact arithmetic. A side that is
neither BUY nor SELL is `none`, and raises.
-/

namespace MarketMakerOps.Ops

open Engine

/-- `kPriceScale`: prices on the wire are decimals of cents. -/
def price (ticks : UInt32) : ℚ := (ticks.toNat : ℚ) / 100

inductive ValueError
  | unknownSide
  deriving DecidableEq, Repr

structure PositionState where
  cash : ℚ
  inventory : ℚ
  deriving DecidableEq

namespace PositionState

/-- A position before its first fill. -/
def zero : PositionState := ⟨0, 0⟩

def applyFill (p : PositionState) (side : Option Side) (fillQty fillPrice : ℚ) :
    Except ValueError PositionState :=
  match side with
  | some .buy => .ok ⟨p.cash - fillQty * fillPrice, p.inventory + fillQty⟩
  | some .sell => .ok ⟨p.cash + fillQty * fillPrice, p.inventory - fillQty⟩
  | none => .error .unknownSide

def markToMarketPnl (p : PositionState) (fairValue : ℚ) : ℚ := p.cash + p.inventory * fairValue

/-- The position after a fill on a known side. -/
def filled (p : PositionState) (side : Side) (fillQty fillPrice : ℚ) : PositionState :=
  match side with
  | .buy => ⟨p.cash - fillQty * fillPrice, p.inventory + fillQty⟩
  | .sell => ⟨p.cash + fillQty * fillPrice, p.inventory - fillQty⟩

@[simp] theorem applyFill_some (p : PositionState) (side : Side) (fillQty fillPrice : ℚ) :
    p.applyFill (some side) fillQty fillPrice = .ok (p.filled side fillQty fillPrice) := by
  cases side <;> rfl

end PositionState

/-! ## Totals -/

section Totals

variable {κ : Type*}

/-- Moving one position moves a total by the difference. -/
theorem sum_update [DecidableEq κ] (f : PositionState → ℚ) (P : κ → PositionState) {s : Finset κ}
    {k : κ} (hk : k ∈ s) (p : PositionState) :
    ∑ c ∈ s, f (Function.update P k p c) = ∑ c ∈ s, f (P c) + (f p - f (P k)) := by
  have hcomp :
      (fun c => f (Function.update P k p c)) = Function.update (fun c => f (P c)) k (f p) := by
    funext c
    by_cases hc : c = k
    · subst hc
      simp
    · simp [hc]
  rw [hcomp, Finset.sum_update_of_mem hk,
    ← Finset.sum_sdiff (f := fun c => f (P c)) (Finset.singleton_subset_iff.mpr hk),
    Finset.sum_singleton]
  ring

/-- Inventories and cash sum to nothing over some parties. -/
structure Balanced (s : Finset κ) (P : κ → PositionState) : Prop where
  inventory : ∑ c ∈ s, (P c).inventory = 0
  cash : ∑ c ∈ s, (P c).cash = 0

variable {s : Finset κ} {P : κ → PositionState}

theorem Balanced.zero (s : Finset κ) : Balanced s fun _ => PositionState.zero :=
  ⟨by simp [PositionState.zero], by simp [PositionState.zero]⟩

/-- So does the marked value, at any common fair value. -/
theorem Balanced.pnl (h : Balanced s P) (fairValue : ℚ) :
    ∑ c ∈ s, (P c).markToMarketPnl fairValue = 0 := by
  simp only [PositionState.markToMarketPnl, Finset.sum_add_distrib, ← Finset.sum_mul, h.inventory,
    h.cash]
  ring

/-- Book a fill of one party. -/
def book [DecidableEq κ] (P : κ → PositionState) (k : κ) (side : Side) (qty price : ℚ) :
    κ → PositionState := Function.update P k ((P k).filled side qty price)

/-- What one party buys another sells. -/
theorem Balanced.trade [DecidableEq κ] (h : Balanced s P) {b o : κ} (hb : b ∈ s) (ho : o ∈ s)
    (hne : b ≠ o) (qty price : ℚ) :
    Balanced s (book (book P b .buy qty price) o .sell qty price) := by
  have hother : book P b .buy qty price o = P o := Function.update_of_ne hne.symm _ _
  constructor
  · rw [book, sum_update PositionState.inventory _ ho, hother, book,
      sum_update PositionState.inventory _ hb, h.inventory]
    simp only [PositionState.filled]
    ring
  · rw [book, sum_update PositionState.cash _ ho, hother, book,
      sum_update PositionState.cash _ hb, h.cash]
    simp only [PositionState.filled]
    ring

end Totals

end MarketMakerOps.Ops
