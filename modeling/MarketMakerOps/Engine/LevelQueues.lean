import MarketMakerOps.Engine.PriceLevel

/-!
Any number of price levels over one memory. `Represents` reads every level's
queue off the links; `addToTail` and `remove` act on one queue as the list
operations and leave the others as they are.
-/

namespace MarketMakerOps.Engine

open LinkedQueue

variable {cap : Nat} {ι : Type*}

/-- Disjoint doubly linked chains, one a level. -/
structure Represents (h : Orders cap) (levels : ι → PriceLevel cap)
    (queues : ι → List (Fin cap)) : Prop where
  queue : ∀ i, Queue h.links (levels i).ends (queues i)
  disjoint : ∀ i j, i ≠ j → List.Disjoint (queues i) (queues j)

namespace Represents

variable {h : Orders cap} {levels : ι → PriceLevel cap} {queues : ι → List (Fin cap)}

theorem isEmpty_iff (hr : Represents h levels queues) (i : ι) :
    (levels i).isEmpty = true ↔ queues i = [] := by
  rw [PriceLevel.isEmpty, Option.isNone_iff_eq_none]
  exact (hr.queue i).head_eq_none

theorem front_eq (hr : Represents h levels queues) (i : ι) :
    (levels i).front = (queues i).head? := (hr.queue i).head

variable [DecidableEq ι]

/-- One level's queue may be replaced when only its own nodes and nodes of no queue are written. -/
theorem update (hr : Represents h levels queues) {i : ι} {h' : Orders cap} {pl : PriceLevel cap}
    {q : List (Fin cap)} (hq : Queue h'.links pl.ends q)
    (hd : ∀ j, j ≠ i → List.Disjoint q (queues j))
    (hf : ∀ j, j ≠ i → ∀ a ∈ queues j, h' a = h a) :
    Represents h' (Function.update levels i pl) (Function.update queues i q) := by
  refine ⟨fun j => ?_, fun j k hjk => ?_⟩
  · by_cases hj : j = i
    · subst hj
      simpa using hq
    · rw [Function.update_of_ne hj, Function.update_of_ne hj]
      refine (hr.queue j).frame fun a ha => ?_
      have e := hf j hj a ha
      exact ⟨congrArg Order.next e, congrArg Order.prev e⟩
  · by_cases hj : j = i
    · subst hj
      rw [Function.update_self, Function.update_of_ne (Ne.symm hjk)]
      exact hd k (Ne.symm hjk)
    · rw [Function.update_of_ne hj]
      by_cases hk : k = i
      · subst hk
        rw [Function.update_self]
        exact (hd j hj).symm
      · rw [Function.update_of_ne hk]
        exact hr.disjoint j k hjk

theorem addToTail (hr : Represents h levels queues) (i : ι) {o : Fin cap}
    (ho : ∀ j, o ∉ queues j) :
    ∃ pl h', (levels i).addToTail h o = .ok (pl, h') ∧
      Represents h' (Function.update levels i pl) (Function.update queues i (queues i ++ [o])) ∧
      h.SameData h' ∧ ∀ j, j ≠ i → ∀ a ∈ queues j, h' a = h a := by
  obtain ⟨pl, h', he, hq, -, -, hd, hf⟩ :=
    PriceLevel.addToTail_spec (hr.queue i) (hr.queue i).nodup (ho i)
  have hframe : ∀ j, j ≠ i → ∀ a ∈ queues j, h' a = h a := by
    intro j hj a ha
    have hao : a ≠ o := fun e => ho j (e ▸ ha)
    exact hf a hao fun hai => hr.disjoint j i hj ha hai
  refine ⟨pl, h', he, hr.update hq (fun j hj => ?_) hframe, hd, hframe⟩
  rw [List.disjoint_append_left, List.singleton_disjoint]
  exact ⟨hr.disjoint i j (Ne.symm hj), ho j⟩

theorem remove (hr : Represents h levels queues) (i : ι) {o : Fin cap} (ho : o ∈ queues i) :
    Represents ((levels i).remove h o).2 (Function.update levels i ((levels i).remove h o).1)
        (Function.update queues i ((queues i).erase o)) ∧
      h.SameData ((levels i).remove h o).2 ∧
      ∀ j, j ≠ i → ∀ a ∈ queues j, ((levels i).remove h o).2 a = h a := by
  have hqi := hr.queue i
  have hnd := hqi.nodup
  obtain ⟨l, r, hlr⟩ := List.append_of_mem ho
  have hol : o ∉ l := by
    rw [hlr] at hnd
    exact fun hl => (List.nodup_append.mp hnd).2.2 o hl o List.mem_cons_self rfl
  have herase : (queues i).erase o = l ++ r := by
    rw [hlr, List.erase_append_right _ hol, List.erase_cons_head]
  rw [hlr] at hqi hnd
  obtain ⟨hq, -, -, hd, hf⟩ := PriceLevel.remove_spec hqi hnd
  have hframe : ∀ j, j ≠ i → ∀ a ∈ queues j, ((levels i).remove h o).2 a = h a := by
    intro j hj a ha
    refine hf a ?_
    rw [← hlr]
    exact hr.disjoint j i hj ha
  refine ⟨hr.update (herase ▸ hq) (fun j hj => ?_) hframe, hd, hframe⟩
  exact List.disjoint_of_subset_left List.erase_subset (hr.disjoint i j (Ne.symm hj))

end Represents

/-- The removed node keeps no link. -/
theorem PriceLevel.remove_cleared (pl : PriceLevel cap) (h : Orders cap) (o : Fin cap) :
    ((pl.remove h o).2 o).next = none ∧ ((pl.remove h o).2 o).prev = none := by
  rw [remove_eq]
  simp [Orders.setNext, Orders.setPrev]

variable [DecidableEq ι]

/-- Both operations act on one level's queue as on a list, over any chains of any length; no other
queue and no node of one changes. -/
theorem queue_operations (h : Orders cap) (levels : ι → PriceLevel cap)
    (queues : ι → List (Fin cap)) (hr : Represents h levels queues) (i : ι) :
    (∀ o, (∀ j, o ∉ queues j) → ∃ pl h', (levels i).addToTail h o = .ok (pl, h') ∧
      Represents h' (Function.update levels i pl) (Function.update queues i (queues i ++ [o])) ∧
      pl.isEmpty = false ∧ h.SameData h' ∧ ∀ j, j ≠ i → ∀ a ∈ queues j, h' a = h a) ∧
    (∀ o ∈ queues i, ∀ pl h', (levels i).remove h o = (pl, h') →
      Represents h' (Function.update levels i pl) (Function.update queues i ((queues i).erase o)) ∧
      (h' o).next = none ∧ (h' o).prev = none ∧
      (pl.isEmpty = true ↔ (queues i).erase o = []) ∧
      h.SameData h' ∧ ∀ j, j ≠ i → ∀ a ∈ queues j, h' a = h a) ∧
    ∀ j, ((levels j).isEmpty = true ↔ queues j = []) ∧ (levels j).front = (queues j).head? := by
  refine ⟨fun o ho => ?_, fun o ho pl h' e => ?_, fun j => ⟨hr.isEmpty_iff j, hr.front_eq j⟩⟩
  · obtain ⟨pl, h', he, hr', hd, hf⟩ := hr.addToTail i ho
    refine ⟨pl, h', he, hr', ?_, hd, hf⟩
    have hempty := hr'.isEmpty_iff i
    simpa using hempty
  · obtain ⟨hr', hd, hf⟩ := hr.remove i ho
    obtain ⟨hn, hp⟩ := (levels i).remove_cleared h o
    rw [e] at hr' hd hf hn hp
    refine ⟨hr', hn, hp, ?_, hd, hf⟩
    have hempty := hr'.isEmpty_iff i
    simpa using hempty

/-- Three nodes on one of two levels, one on the other; the last is on none. -/
def chained : Orders 5
  | 0 => ⟨1, 10, 1, 0, 7, .buy, some 1, none⟩
  | 1 => ⟨2, 10, 1, 1, 7, .buy, some 2, some 0⟩
  | 2 => ⟨3, 10, 1, 2, 7, .buy, none, some 1⟩
  | 3 => ⟨4, 11, 1, 3, 7, .buy, none, none⟩
  | 4 => ⟨0, 0, 0, 0, 0, .buy, none, none⟩

def chainedLevels : Bool → PriceLevel 5
  | true => ⟨10, 3, some 0, some 2⟩
  | false => ⟨11, 1, some 3, some 3⟩

def chainedQueues : Bool → List (Fin 5)
  | true => [0, 1, 2]
  | false => [3]

theorem chained_represents : Represents chained chainedLevels chainedQueues := by
  refine ⟨fun i => ?_, fun i j hij => ?_⟩
  · cases i
    · exact ⟨rfl, rfl, rfl, rfl, trivial⟩
    · exact ⟨rfl, rfl, rfl, rfl, rfl, rfl, rfl, rfl, trivial⟩
  · cases i <;> cases j <;> simp [chainedQueues] at hij ⊢

theorem queue_operations_chained :
    (∃ pl h', (chainedLevels true).addToTail chained 4 = .ok (pl, h') ∧
      Represents h' (Function.update chainedLevels true pl)
        (Function.update chainedQueues true [0, 1, 2, 4]) ∧ h' 3 = chained 3) ∧
    ∃ pl h', (chainedLevels true).remove chained 1 = (pl, h') ∧
      Represents h' (Function.update chainedLevels true pl)
        (Function.update chainedQueues true [0, 2]) ∧ h' 3 = chained 3 := by
  obtain ⟨hadd, hremove, -⟩ := queue_operations chained chainedLevels chainedQueues
    chained_represents true
  refine ⟨?_, ?_⟩
  · obtain ⟨pl, h', he, hr', -, -, hothers⟩ := hadd 4 (by decide)
    exact ⟨pl, h', he, hr', hothers false (by decide) 3 (List.mem_singleton_self _)⟩
  · obtain ⟨hr', -, -, -, -, hothers⟩ := hremove 1 (by decide) _ _ rfl
    exact ⟨_, _, rfl, hr', hothers false (by decide) 3 (List.mem_singleton_self _)⟩

end MarketMakerOps.Engine
