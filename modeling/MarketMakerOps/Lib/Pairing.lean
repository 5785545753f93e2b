import Mathlib.Logic.Function.Basic

/-!
# Two partial maps, each the inverse of the other

The state of a table that is looked up from both sides.

* `Paired f g`: `f` and `g` hold the same pairs;
* `Paired.unpair`, `Paired.pair`: they still do once a pair is taken out of both
  maps, or a pair new to both is entered in both;
* `isSome_unpair`, `isSome_pair`: the keys that are left.
-/

namespace Pairing

variable {α β : Type*}

/-- Each map is the inverse of the other where it is defined. -/
def Paired (f : α → Option β) (g : β → Option α) : Prop := ∀ a b, f a = some b ↔ g b = some a

variable {f : α → Option β} {g : β → Option α} {a a' : α} {b b' : β}

theorem Paired.symm (h : Paired f g) : Paired g f := fun b a => (h a b).symm

theorem Paired.inj (h : Paired f g) (ha : f a = some b) (ha' : f a' = some b) : a' = a := by
  rw [h] at ha ha'
  exact Option.some_inj.mp (ha'.symm.trans ha)

/-- A key of one map is a value of the other. -/
theorem Paired.eq_some_iff (h : Paired f g) (hb : g b = some a) : f a' = some b ↔ a' = a := by
  rw [h, hb, Option.some_inj, eq_comm]

theorem Paired.ne_some (h : Paired f g) (hb : g b = none) : f a ≠ some b := by
  intro ha
  rw [h, hb] at ha
  cases ha

section Update

variable [DecidableEq α]

theorem isSome_unpair : (Function.update f a none a').isSome ↔ a' ≠ a ∧ (f a').isSome := by
  rw [Function.update_apply]
  split
  · next heq => exact iff_of_false Bool.false_ne_true fun h => h.1 heq
  · next hne => exact (and_iff_right hne).symm

theorem isSome_pair : (Function.update f a (some b) a').isSome ↔ a' = a ∨ (f a').isSome := by
  rw [Function.update_apply]
  split
  · next heq => exact iff_of_true rfl (Or.inl heq)
  · next hne => exact (or_iff_right hne).symm

variable [DecidableEq β]

theorem Paired.unpair (h : Paired f g) (hab : f a = some b) :
    Paired (Function.update f a none) (Function.update g b none) := by
  have hba : g b = some a := (h a b).mp hab
  intro a' b'
  rw [Function.update_apply, Function.update_apply]
  by_cases ha : a' = a
  · by_cases hb : b' = b
    · rw [if_pos ha, if_pos hb]
      exact iff_of_false nofun nofun
    · rw [if_pos ha, if_neg hb, ha, h.symm.eq_some_iff hab]
      exact iff_of_false nofun hb
  · by_cases hb : b' = b
    · rw [if_neg ha, if_pos hb, hb, h.eq_some_iff hba]
      exact iff_of_false ha nofun
    · rw [if_neg ha, if_neg hb]
      exact h a' b'

theorem Paired.pair (h : Paired f g) (ha₀ : f a = none) (hb₀ : g b = none) :
    Paired (Function.update f a (some b)) (Function.update g b (some a)) := by
  intro a' b'
  rw [Function.update_apply, Function.update_apply]
  by_cases ha : a' = a
  · by_cases hb : b' = b
    · rw [if_pos ha, if_pos hb, ha, hb]
      exact iff_of_true rfl rfl
    · rw [if_pos ha, if_neg hb, ha]
      exact iff_of_false (fun he => hb (Option.some_inj.mp he).symm) (h.symm.ne_some ha₀)
  · by_cases hb : b' = b
    · rw [if_neg ha, if_pos hb, hb]
      exact iff_of_false (h.ne_some hb₀) fun he => ha (Option.some_inj.mp he).symm
    · rw [if_neg ha, if_neg hb]
      exact h a' b'

end Update

end Pairing
