import MarketMakerOps.Lib.Fallible
import MarketMakerOps.Engine.Types

/-!
One price level's FIFO queue (`price_level.cpp`): the pointer surgery of
`addToTail` and `remove` is `pushBack` and `unlink` of the linked-queue library,
and leaves every other queue of the same memory untouched.
-/

namespace MarketMakerOps.Engine

open LinkedQueue

variable {cap : Nat}

namespace PriceLevel

def isEmpty (pl : PriceLevel cap) : Bool := pl.head.isNone

def front (pl : PriceLevel cap) : Option (Fin cap) := pl.head

def addToTail (pl : PriceLevel cap) (h : Orders cap) (o : Fin cap) :
    Except Fault (PriceLevel cap × Orders cap) := do
  let h := h.setNext o none
  let h := h.setPrev o pl.tail
  let (pl, h) ←
    if pl.isEmpty then
      pure ({ pl with head := some o, tail := some o }, h)
    else
      match pl.tail with
      | none => .error .nullDeref
      | some t => pure ({ pl with tail := some o }, h.setNext t (some o))
  pure ({ pl with totalQuantity := pl.totalQuantity + (h o).quantity }, h)

def remove (pl : PriceLevel cap) (h : Orders cap) (o : Fin cap) : PriceLevel cap × Orders cap :=
  let (pl, h) := match (h o).prev with
    | some p => (pl, h.setNext p (h o).next)
    | none => ({ pl with head := (h o).next }, h)
  let (pl, h) := match (h o).next with
    | some n => (pl, h.setPrev n (h o).prev)
    | none => ({ pl with tail := (h o).prev }, h)
  let pl := { pl with totalQuantity := pl.totalQuantity - (h o).quantity }
  (pl, (h.setNext o none).setPrev o none)

/-- The end pointers of a level. -/
def ends (pl : PriceLevel cap) : Ends (Fin cap) := ⟨pl.head, pl.tail⟩

variable {pl : PriceLevel cap} {h : Orders cap} {o : Fin cap}

/-- Adding at the tail: the queue grows by `o`, the counter by its quantity. -/
theorem addToTail_spec {q : List (Fin cap)} (hq : Queue h.links pl.ends q) (hnd : q.Nodup)
    (ho : o ∉ q) :
    ∃ pl' h', pl.addToTail h o = .ok (pl', h') ∧ Queue h'.links pl'.ends (q ++ [o]) ∧
      pl'.price = pl.price ∧ pl'.totalQuantity = pl.totalQuantity + (h o).quantity ∧
      h.SameData h' ∧ ∀ a, a ≠ o → a ∉ q → h' a = h a := by
  have hpush := hq.pushBack hnd ho
  have hagree : ∀ a, a ≠ o → a ∉ q → h.links.AgreeAt (pushBack h.links pl.ends o).1 a := by
    intro a hao haq
    refine pushBack_agree _ _ _ _ hao fun ht => haq ?_
    rw [hq.tail] at ht
    exact List.mem_of_getLast? ht
  have hh : pl.head = q.head? := hq.head
  have ht : pl.tail = q.getLast? := hq.tail
  cases htl : pl.tail with
  | none =>
    have hq0 : q = [] := by rw [htl] at ht; simpa using ht.symm
    have hhd : pl.head = none := by rw [hh, hq0]; rfl
    have hd : h.SameData ((h.setNext o none).setPrev o none) :=
      fun s => by simp
    simp only [pushBack, ends, htl, ← Orders.links_setNext, ← Orders.links_setPrev] at hpush hagree
    refine ⟨{ pl with head := some o, tail := some o,
                      totalQuantity := pl.totalQuantity + (h o).quantity }, _, ?_, hpush, rfl, rfl,
      hd, fun a hao haq => hd.eq_of_agreeAt (hagree a hao haq)⟩
    simp [addToTail, isEmpty, hhd, htl, pure, Except.pure, hd.quantity]
  | some t =>
    have hhd : ¬ pl.head.isNone := by
      rw [hh]; cases q <;> simp_all
    have hd : h.SameData (((h.setNext o none).setPrev o (some t)).setNext t (some o)) :=
      fun s => by simp
    simp only [pushBack, ends, htl, ← Orders.links_setNext, ← Orders.links_setPrev] at hpush hagree
    refine ⟨{ pl with tail := some o, totalQuantity := pl.totalQuantity + (h o).quantity }, _, ?_,
      hpush, rfl, rfl, hd, fun a hao haq => hd.eq_of_agreeAt (hagree a hao haq)⟩
    simp [addToTail, isEmpty, hhd, htl, pure, Except.pure, hd.quantity]

/-- The neighbours are joined, each write reading the links `o` had before the call. -/
theorem remove_eq (pl : PriceLevel cap) (h : Orders cap) (o : Fin cap) :
    pl.remove h o =
      let p := (h o).prev
      let n := (h o).next
      let h₁ := p.elim h fun p => h.setNext p n
      let h₂ := n.elim h₁ fun n => h₁.setPrev n p
      ({ pl with head := if p = none then n else pl.head, tail := if n = none then p else pl.tail,
                 totalQuantity := pl.totalQuantity - (h o).quantity },
        (h₂.setNext o none).setPrev o none) := by
  -- a write to a neighbour stores back what `o` itself holds when the two are one node
  have hself : ∀ p, ((h.setNext p (h o).next) o).next = (h o).next ∧
      ((h.setNext p (h o).next) o).prev = (h o).prev ∧
      ((h.setNext p (h o).next) o).quantity = (h o).quantity := by
    intro p
    by_cases e : o = p
    · subst e; simp [Orders.setNext]
    · simp [Orders.setNext, e]
  have hself' : ∀ (g : Orders cap) n, ((g.setPrev n (g o).prev) o).quantity = (g o).quantity :=
    fun g n => (Orders.sameData_setPrev g n _).quantity o
  cases hp : (h o).prev with
  | none =>
    cases hn : (h o).next with
    | none => simp [remove, hp, hn]
    | some n =>
      have hq := hself' h n
      rw [hp] at hq
      simp [remove, hp, hn, hq]
  | some p =>
    obtain ⟨h1, h2, h3⟩ := hself p
    cases hn : (h o).next with
    | none => rw [hn] at h1 h2 h3; simp [remove, hp, hn, h1, h2, h3]
    | some n =>
      have hq := hself' (h.setNext p (h o).next) n
      rw [hn] at h1 h2 h3 hq
      rw [h2, hp] at hq
      simp [remove, hp, hn, h1, h2, h3, hq]

theorem remove_sameData (pl : PriceLevel cap) (h : Orders cap) (o : Fin cap) :
    h.SameData (pl.remove h o).2 := by
  rw [remove_eq]
  intro s
  cases (h o).prev <;> cases (h o).next <;> simp

/-- What `remove` leaves in the links and the end pointers is `unlink`. -/
theorem remove_links : (pl.remove h o).2.links = (unlink h.links pl.ends o).1 ∧
    (pl.remove h o).1.ends = (unlink h.links pl.ends o).2 := by
  rw [remove_eq]
  refine ⟨?_, rfl⟩
  simp only [unlink, Orders.links_setPrev, Orders.links_setNext]
  have hp : h.links.prev o = (h o).prev := rfl
  have hn : h.links.next o = (h o).next := rfl
  rw [hp, hn]
  cases (h o).prev <;> cases (h o).next <;> simp

/-- Removing from anywhere in the queue: only `o` leaves, with its links cleared. -/
theorem remove_spec {l r : List (Fin cap)} (hq : Queue h.links pl.ends (l ++ o :: r))
    (hnd : (l ++ o :: r).Nodup) :
    Queue (pl.remove h o).2.links (pl.remove h o).1.ends (l ++ r) ∧
      (pl.remove h o).1.price = pl.price ∧
      (pl.remove h o).1.totalQuantity = pl.totalQuantity - (h o).quantity ∧
      h.SameData (pl.remove h o).2 ∧
      ∀ a, a ∉ l ++ o :: r → (pl.remove h o).2 a = h a := by
  obtain ⟨hp, hn⟩ := hq.neighbours
  have hd := remove_sameData pl h o
  refine ⟨?_, by rw [remove_eq], by rw [remove_eq], hd, ?_⟩
  · rw [remove_links.1, remove_links.2]
    exact hq.unlink hnd
  · intro a ha
    apply hd.eq_of_agreeAt
    rw [remove_links.1]
    apply unlink_agree
    · exact fun e => ha (by simp [e])
    · rw [hp]; exact fun e => ha (List.mem_append_left _ (List.mem_of_getLast? e))
    · rw [hn]
      exact fun e => ha (List.mem_append_right _ (List.mem_cons_of_mem _ (List.mem_of_head? e)))

end PriceLevel

end MarketMakerOps.Engine
