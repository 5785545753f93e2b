import MarketMakerOps.Lib.LinkedQueue
import Mathlib.Data.UInt
import Mathlib.Algebra.Ring.Nat

/-!
Types of the matching core (`types.h`, `order.h`, `price_level.h`). An `Order*`
points into the pool's array, so it is a slot index `Fin cap`, and the null
pointer is `none`. Assertions and null dereferences are explicit faults.
-/

namespace MarketMakerOps.Engine

open LinkedQueue (Links)

/-- Which assertion failed, or which undefined step was taken. -/
inductive Fault
  | freeListEmpty
  | freeCountZero
  | freeCountFull
  | doubleDeallocate
  | cancelQuantity
  | levelMissing
  | bidLevelsExceeded
  | askLevelsExceeded
  | nullDeref
  | outOfBounds
  | loopFuel
  deriving DecidableEq, Repr

/-- The two assertions of the level reserve. -/
def Fault.isLevels : Fault → Bool
  | .bidLevelsExceeded => true
  | .askLevelsExceeded => true
  | _ => false

/-- Assertions are live in a debug build and compiled out under `NDEBUG`. `growing` is a debug build
whose level vectors grow as needed, with the assertions of their reserve alone compiled out. -/
inductive Build
  | debug
  | ndebug
  | growing
  deriving DecidableEq, Repr

def assertThat (build : Build) (c : Bool) (f : Fault) : Except Fault Unit :=
  match build with
  | .debug => if c then .ok () else .error f
  | .ndebug => .ok ()
  | .growing => if c || f.isLevels then .ok () else .error f

@[simp] theorem assertThat_true (build : Build) (f : Fault) :
    assertThat build true f = .ok () := by cases build <;> rfl

inductive Side
  | buy
  | sell
  deriving DecidableEq, Repr

def Side.opposite : Side → Side
  | .buy => .sell
  | .sell => .buy

@[simp] theorem Side.opposite_opposite (s : Side) : s.opposite.opposite = s := by cases s <;> rfl

theorem Side.ne_opposite (s : Side) : s ≠ s.opposite := by cases s <;> decide

theorem Side.eq_or_opposite (s t : Side) : s = t ∨ s = t.opposite := by
  cases s <;> cases t <;> decide

/-- How good a resting price is to the other side: high for bids, low for asks. -/
def Side.rank : Side → UInt32 → Nat
  | .buy, p => p.toNat
  | .sell, p => 2 ^ 32 - 1 - p.toNat

theorem Side.rank_inj {s : Side} {p q : UInt32} : s.rank p = s.rank q ↔ p = q := by
  have hp := p.toNat_lt
  have hq := q.toNat_lt
  rw [← UInt32.toNat_inj]
  cases s with
  | buy => rfl
  | sell => simp only [Side.rank]; omega

structure Trade where
  buyOrderId : UInt64
  sellOrderId : UInt64
  price : UInt32
  quantity : UInt32
  deriving DecidableEq, Repr

structure Order (cap : Nat) where
  orderId : UInt64
  price : UInt32
  quantity : UInt32
  sequence : UInt64
  participantId : UInt64
  side : Side
  next : Option (Fin cap)
  prev : Option (Fin cap)
  deriving DecidableEq, Repr

variable {cap : Nat}

/-- Every field but the links. -/
def Order.init (o : Order cap) (id : UInt64) (p qty : UInt32) (seq : UInt64) (s : Side)
    (partiId : UInt64) : Order cap :=
  { o with orderId := id, price := p, quantity := qty, sequence := seq, side := s,
           participantId := partiId }

/-- The order with its links forgotten. -/
def Order.unlinked (o : Order cap) : Order cap := { o with next := none, prev := none }

/-- The pool's array of orders. -/
abbrev Orders (cap : Nat) := Fin cap → Order cap

namespace Orders

def setNext (h : Orders cap) (o : Fin cap) (x : Option (Fin cap)) : Orders cap :=
  Function.update h o { h o with next := x }

def setPrev (h : Orders cap) (o : Fin cap) (x : Option (Fin cap)) : Orders cap :=
  Function.update h o { h o with prev := x }

def setQuantity (h : Orders cap) (o : Fin cap) (q : UInt32) : Orders cap :=
  Function.update h o { h o with quantity := q }

variable (h : Orders cap) (o a : Fin cap) (x : Option (Fin cap)) (q : UInt32)

/-- The link fields of all slots. -/
def links : Links (Fin cap) := ⟨fun s => (h s).next, fun s => (h s).prev⟩

/-- Writes to links only. -/
def SameData (h h' : Orders cap) : Prop := ∀ s, (h' s).unlinked = (h s).unlinked

theorem links_update (y : Order cap) : Orders.links (Function.update h o y) =
    ⟨Function.update h.links.next o y.next, Function.update h.links.prev o y.prev⟩ := by
  ext1 <;> funext s <;> by_cases e : s = o <;> simp [links, Function.update_apply, e]

@[simp] theorem links_setNext : (h.setNext o x).links = h.links.setNext o x := by
  rw [setNext, links_update]
  exact congrArg (Links.mk _) (Function.update_eq_self o h.links.prev)

@[simp] theorem links_setPrev : (h.setPrev o x).links = h.links.setPrev o x := by
  rw [setPrev, links_update]
  exact congrArg (Links.mk · _) (Function.update_eq_self o h.links.next)

@[simp] theorem links_setQuantity : (h.setQuantity o q).links = h.links := by
  rw [setQuantity, links_update]
  exact congrArg₂ Links.mk (Function.update_eq_self o h.links.next)
    (Function.update_eq_self o h.links.prev)

@[simp] theorem unlinked_setNext : ((h.setNext o x) a).unlinked = (h a).unlinked := by
  by_cases e : a = o
  · subst e; simp [setNext, Order.unlinked]
  · simp [setNext, e]

@[simp] theorem unlinked_setPrev : ((h.setPrev o x) a).unlinked = (h a).unlinked := by
  by_cases e : a = o
  · subst e; simp [setPrev, Order.unlinked]
  · simp [setPrev, e]

/-- A slot whose data and links are unchanged is unchanged. -/
theorem SameData.eq_of_agreeAt {h h' : Orders cap} (hs : h.SameData h') {a : Fin cap}
    (ha : h.links.AgreeAt h'.links a) : h' a = h a := by
  have hd := hs a
  obtain ⟨hn, hp⟩ := ha
  simp only [links] at hn hp
  generalize h' a = x at hd hn hp ⊢
  generalize h a = y at hd hn hp ⊢
  cases x
  cases y
  simp_all [Order.unlinked]

theorem SameData.quantity {h h' : Orders cap} (hs : h.SameData h') (s : Fin cap) :
    (h' s).quantity = (h s).quantity := by
  have hq := congrArg Order.quantity (hs s)
  exact hq

theorem sameData_setPrev : h.SameData (h.setPrev o x) := fun s => unlinked_setPrev h o s x

@[simp] theorem setQuantity_self : (h.setQuantity o q) o = { h o with quantity := q } := by
  simp [setQuantity]

theorem setQuantity_of_ne (e : a ≠ o) : (h.setQuantity o q) a = h a := by
  simp [setQuantity, e]

end Orders

structure PriceLevel (cap : Nat) where
  price : UInt32
  totalQuantity : UInt32
  head : Option (Fin cap)
  tail : Option (Fin cap)
  deriving DecidableEq, Repr

end MarketMakerOps.Engine
