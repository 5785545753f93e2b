import MarketMakerOps.Engine.PriceLevel
import Mathlib.Data.List.FinRange
import Mathlib.Data.Fintype.Card

/-!
The preallocated order pool (`order_pool.cpp`): a free list threaded through the
`next` fields of the free slots, used last in first out.

* `Rep pool free`: the pool's fields represent the free stack `free`;
* `allocate_spec`, `deallocate_spec`: pop and push of that stack;
* `allocate_empty`: an exhausted pool faults in every build.
-/

namespace MarketMakerOps.Engine

open LinkedQueue

variable {cap : Nat}

structure OrderPool (cap : Nat) where
  orders : Orders cap
  freeList : Option (Fin cap)
  freeCount : Nat
  isAllocated : Fin cap → Bool

namespace OrderPool

/-- A value-initialised slot. -/
def zeroOrder : Order cap := ⟨0, 0, 0, 0, 0, .buy, none, none⟩

/-- The constructor links slot `i` to slot `i + 1`; with no slots it writes out of bounds. -/
def new (cap : Nat) : Except Fault (OrderPool cap) :=
  if h : 0 < cap then
    .ok { orders := fun i => { zeroOrder with
            next := if hi : i.val + 1 < cap then some ⟨i.val + 1, hi⟩ else none }
          freeList := some ⟨0, h⟩
          freeCount := cap
          isAllocated := fun _ => false }
  else
    .error .outOfBounds

def allocate (build : Build) (pool : OrderPool cap) : Except Fault (Fin cap × OrderPool cap) := do
  assertThat build pool.freeList.isSome .freeListEmpty
  assertThat build (0 < pool.freeCount) .freeCountZero
  match pool.freeList with
  | none => .error .nullDeref
  | some order =>
    let orders := (pool.orders.setNext order none).setPrev order none
    pure (order, { orders := orders
                   freeList := (pool.orders order).next
                   freeCount := pool.freeCount - 1
                   isAllocated := Function.update pool.isAllocated order true })

def deallocate (build : Build) (pool : OrderPool cap) (order : Fin cap) :
    Except Fault (OrderPool cap) := do
  assertThat build (pool.freeCount < cap) .freeCountFull
  assertThat build (pool.isAllocated order) .doubleDeallocate
  pure { orders := pool.orders.setNext order pool.freeList
         freeList := some order
         freeCount := pool.freeCount + 1
         isAllocated := Function.update pool.isAllocated order false }

/-- The pool's fields hold exactly the free stack `free`. -/
structure Rep (pool : OrderPool cap) (free : List (Fin cap)) : Prop where
  chain : FreeChain pool.orders.links.next pool.freeList free
  nodup : free.Nodup
  count : pool.freeCount = free.length
  allocated : ∀ s, pool.isAllocated s = true ↔ s ∉ free

theorem finRange_chain (n : Nat) (next : Fin n → Option (Fin n))
    (hnext : ∀ i : Fin n, next i = if hi : i.val + 1 < n then some ⟨i.val + 1, hi⟩ else none) :
    ∀ k i : Nat, i + k = n → ∀ hi : i < n,
      FreeChain next (some ⟨i, hi⟩) ((List.finRange n).drop i) := by
  intro k
  induction k with
  | zero => intro i hik hi; omega
  | succ k ih =>
    intro i hik hi
    have hd : (List.finRange n).drop i = ⟨i, hi⟩ :: (List.finRange n).drop (i + 1) := by
      rw [List.drop_eq_getElem_cons (by simpa using hi)]
      simp
    rw [hd]
    refine ⟨rfl, ?_⟩
    rw [hnext]
    by_cases h1 : i + 1 < n
    · rw [dif_pos h1]
      exact ih (i + 1) (by omega) h1
    · rw [dif_neg h1, List.drop_eq_nil_of_le (by simp; omega)]
      rfl

/-- A new pool is all free, lowest slot first. -/
theorem new_spec (hcap : 0 < cap) : ∃ pool : OrderPool cap, new cap = .ok pool ∧
    pool.Rep (List.finRange cap) := by
  refine ⟨_, dif_pos hcap, ?_, List.nodup_finRange cap, by simp, by simp⟩
  exact finRange_chain cap _ (fun _ => rfl) cap 0 (by omega) hcap

theorem allocate_spec (build : Build) {pool : OrderPool cap} {s : Fin cap} {free : List (Fin cap)}
    (hr : pool.Rep (s :: free)) :
    ∃ pool', pool.allocate build = .ok (s, pool') ∧ pool'.Rep free ∧
      pool'.orders = (pool.orders.setNext s none).setPrev s none := by
  obtain ⟨⟨hh, hc⟩, hnd, hcount, hall⟩ := hr
  obtain ⟨hs, hnd⟩ := List.nodup_cons.mp hnd
  have hpos : 0 < pool.freeCount := by rw [hcount]; simp
  refine ⟨_, by simp [allocate, hh, hpos]; rfl, ⟨?_, hnd, by simp [hcount], ?_⟩, rfl⟩
  · refine hc.congr fun a ha => ?_
    have hne : a ≠ s := fun e => hs (e ▸ ha)
    simp [hne]
  · intro a
    by_cases e : a = s
    · subst e; simp [hs]
    · simp [e, hall]

theorem allocate_empty (build : Build) {pool : OrderPool cap} (hr : pool.Rep []) :
    pool.allocate build =
      .error (match build with | .ndebug => .nullDeref | _ => .freeListEmpty) := by
  have hh : pool.freeList = none := hr.chain
  cases build <;> simp [allocate, assertThat, hh, bind, Except.bind, Fault.isLevels]

theorem deallocate_spec (build : Build) {pool : OrderPool cap} {s : Fin cap}
    {free : List (Fin cap)} (hr : pool.Rep free) (hs : s ∉ free) :
    ∃ pool', pool.deallocate build s = .ok pool' ∧ pool'.Rep (s :: free) ∧
      pool'.orders = pool.orders.setNext s pool.freeList := by
  obtain ⟨hc, hnd, hcount, hall⟩ := hr
  have hnd' : (s :: free).Nodup := List.nodup_cons.mpr ⟨hs, hnd⟩
  have hlt : pool.freeCount < cap := by
    have := List.Nodup.length_le_card hnd'
    simp only [List.length_cons, Fintype.card_fin] at this
    omega
  refine ⟨_, by simp [deallocate, hlt, (hall s).mpr hs]; rfl,
    ⟨⟨rfl, ?_⟩, hnd', by simp [hcount], ?_⟩, rfl⟩
  · simp only [Orders.links_setNext, Links.setNext_next, if_true]
    refine hc.congr fun a ha => ?_
    have hne : a ≠ s := fun e => hs (e ▸ ha)
    simp [hne]
  · intro a
    by_cases e : a = s
    · subst e; simp
    · simp [e, hall]

/-- Writes that keep the free slots' links keep the free stack. -/
theorem Rep.frame {pool : OrderPool cap} {free : List (Fin cap)} (hr : pool.Rep free)
    {orders : Orders cap} (ha : ∀ a ∈ free, orders.links.next a = pool.orders.links.next a) :
    Rep { pool with orders := orders } free :=
  ⟨hr.chain.congr ha, hr.nodup, hr.count, hr.allocated⟩

end OrderPool

end MarketMakerOps.Engine
