import Mathlib.Data.List.Basic

/-!
# Cutting a stream into items

A stream arrives in pieces; items are taken off the front of what has arrived.

* `Splitter`: what the front of a buffer holds, whatever arrives later;
* `Items`: some items and the rest after them; `Cut`: no further item in the rest;
* `Cut.arrive`: the items of a longer stream are those before and those of the new rest;
* `Cut.prefix_of_items`: they are the longest sequence of items at the front.
-/

namespace Splitting

variable {α β : Type*}

/-- What the front of a buffer holds. -/
inductive Front (β α : Type*)
  | short
  | bad
  | item (a : α) (rest : List β)
  deriving DecidableEq, Repr

/-- A way to read the front of a buffer that later symbols do not change. -/
structure Splitter (β α : Type*) where
  front : List β → Front β α
  shorter : ∀ {l a r}, front l = .item a r → r.length < l.length
  item_append : ∀ {l a r}, front l = .item a r → ∀ m, front (l ++ m) = .item a (r ++ m)
  bad_append : ∀ {l}, front l = .bad → ∀ m, front (l ++ m) = .bad

variable (S : Splitter β α)

/-- `l` is some items and `r`. -/
inductive Items : List β → List α → List β → Prop
  | nil {l : List β} : Items l [] l
  | cons {l m r : List β} {a : α} {as : List α} (head : S.front l = .item a m)
      (tail : Items m as r) : Items l (a :: as) r

/-- There is no item at the front. -/
def NoItem (l : List β) : Prop := ∀ a r, S.front l ≠ .item a r

/-- `l` is some items and `r`, where no further item starts. -/
def Cut (l : List β) (as : List α) (r : List β) : Prop := Items S l as r ∧ NoItem S r

variable {S} {l m r r' : List β} {as bs : List α}

theorem Items.append (h : Items S l as m) (h' : Items S m bs r) : Items S l (as ++ bs) r := by
  induction h with
  | nil => exact h'
  | cons head _ ih => exact .cons head (ih h')

/-- Symbols that arrive later stay behind the items. -/
theorem Items.arrive (h : Items S l as r) (m : List β) : Items S (l ++ m) as (r ++ m) := by
  induction h with
  | nil => exact .nil
  | cons head _ ih => exact .cons (S.item_append head m) ih

theorem Items.length_le (h : Items S l as r) : r.length ≤ l.length := by
  induction h with
  | nil => exact Nat.le_refl _
  | cons head _ ih => exact Nat.le_trans ih (Nat.le_of_lt (S.shorter head))

/-- Fewer items leave the longer rest. -/
theorem Items.length_le_of_front (h : Items S l as r) (h' : Items S l bs r') (hle : bs <+: as) :
    r.length ≤ r'.length := by
  induction h' generalizing as with
  | nil => exact h.length_le
  | cons head _ ih =>
    cases h with
    | nil => cases List.prefix_nil.mp hle
    | cons head' tail' =>
      rw [head] at head'
      cases head'
      exact ih tail' (List.cons_prefix_cons.mp hle).2

theorem Cut.arrive (h : Cut S l as r) (h' : Cut S (r ++ m) bs r') : Cut S (l ++ m) (as ++ bs) r' :=
  ⟨(h.1.arrive m).append h'.1, h'.2⟩

/-- No sequence of items at the front is longer. -/
theorem Cut.prefix_of_items (h : Cut S l as r) (h' : Items S l bs m) : bs <+: as := by
  obtain ⟨hitems, hstop⟩ := h
  induction h' generalizing as with
  | nil => exact List.nil_prefix
  | cons head tail ih =>
    cases hitems with
    | nil => exact absurd head (hstop _ _)
    | cons head' tail' =>
      rw [head] at head'
      cases head'
      exact List.cons_prefix_cons.mpr ⟨rfl, ih tail'⟩

/-- A stream is cut in one way. -/
theorem Cut.unique (h : Cut S l as r) (h' : Cut S l bs r') : as = bs ∧ r = r' := by
  obtain ⟨hitems, hstop⟩ := h
  obtain ⟨hitems', hstop'⟩ := h'
  induction hitems generalizing bs with
  | nil =>
    cases hitems' with
    | nil => exact ⟨rfl, rfl⟩
    | cons head _ => exact absurd head (hstop _ _)
  | cons head _ ih =>
    cases hitems' with
    | nil => exact absurd head (hstop' _ _)
    | cons head' tail' =>
      rw [head] at head'
      cases head'
      obtain ⟨has, hr⟩ := ih hstop tail'
      exact ⟨congrArg _ has, hr⟩

end Splitting
