import MarketMakerOps.Engine.Runs
import Mathlib.Logic.Equiv.Basic

/-!
The slots of a book are names: which slot an order lives in shows nowhere.

* `Relocated π a a'`: `a'` is `a` with every order moved by the permutation `π`;
* `Relocated.add`, `Relocated.cancel`: a call does the same on both, after which
  another permutation may relate them;
* `cancels_spec`: cancelling some ids, in any order, leaves the same queues.
-/

namespace MarketMakerOps.Engine

open Priority Fallible

variable {cap : Nat}

namespace Resting

/-- The same order in another slot. -/
def move (π : Equiv.Perm (Fin cap)) (e : Resting cap) : Resting cap := { e with slot := π e.slot }

section Fields

variable (π : Equiv.Perm (Fin cap)) (e : Resting cap)

@[simp] theorem move_slot : (e.move π).slot = π e.slot := rfl

@[simp] theorem move_orderId : (e.move π).orderId = e.orderId := rfl

@[simp] theorem move_price : (e.move π).price = e.price := rfl

@[simp] theorem move_quantity : (e.move π).quantity = e.quantity := rfl

@[simp] theorem move_participantId : (e.move π).participantId = e.participantId := rfl

@[simp] theorem rank_move (s : Side) : (e.move π).rank s = e.rank s := rfl

end Fields

/-- Orders whose slots two permutations agree on. -/
theorem map_move_congr {π π' : Equiv.Perm (Fin cap)} {P : List (Resting cap)}
    (h : ∀ e ∈ P, π' e.slot = π e.slot) : P.map (move π') = P.map (move π) := by
  refine List.map_congr_left fun e he => ?_
  rw [move, move, h e he]

end Resting

def SweepResult.move (π : Equiv.Perm (Fin cap)) (r : SweepResult cap) : SweepResult cap :=
  ⟨r.trades, r.left, r.queue.map (Resting.move π), r.filled.map (Resting.move π)⟩

/-- Matching against moved orders, by an incoming order that differs in its slot only. -/
theorem sweep_move (π : Equiv.Perm (Fin cap)) (opp : Side) {inc inc' : Resting cap}
    (hid : inc'.orderId = inc.orderId) (hprice : inc'.price = inc.price)
    (hparticipant : inc'.participantId = inc.participantId) (q : UInt32) (P : List (Resting cap)) :
    sweep opp inc' q (P.map (Resting.move π)) = (sweep opp inc q P).move π := by
  induction P generalizing q with
  | nil => rfl
  | cons e P ih =>
    have hkeep : ∀ left, { e.move π with quantity := left } = { e with quantity := left }.move π :=
      fun _ => rfl
    rw [List.map_cons]
    simp only [sweep, hkeep]
    simp only [Resting.move_price, Resting.move_participantId, Resting.move_orderId,
      Resting.move_quantity, hid, hprice, hparticipant]
    split
    · simp only [SweepResult.move, List.map_nil, List.map_cons]
    · split
      · simp only [SweepResult.move, List.map_nil, List.map_cons]
      · split
        · simp only [SweepResult.move, List.map_nil, List.map_cons]
        · simp only [ih, SweepResult.move, List.map_cons]

theorem levelCheck_move (π : Equiv.Perm (Fin cap)) (build : Build) (side : Side) (price : UInt32)
    (P : List (Resting cap)) :
    levelCheck build side price (P.map (Resting.move π)) = levelCheck build side price P := by
  have hprices : (P.map (Resting.move π)).map Resting.price = P.map Resting.price := by
    rw [List.map_map]
    rfl
  rw [levelCheck, levelCheck, levelCount, levelCount, hprices]

namespace PriorityBook

/-- The orders of `a`, moved by `π`. Which slots are free follows. -/
structure Relocated (π : Equiv.Perm (Fin cap)) (a a' : PriorityBook cap) : Prop where
  queue : ∀ s, a'.queue s = (a.queue s).map (Resting.move π)
  index : ∀ id, a'.index.lookup id = (a.index.lookup id).map π
  sequence : a'.sequence = a.sequence

section Calls

variable {π : Equiv.Perm (Fin cap)} {a a' : PriorityBook cap}

theorem Relocated.refl (a : PriorityBook cap) : Relocated (Equiv.refl _) a a :=
  ⟨fun s => (List.map_id (a.queue s)).symm, fun id => by cases a.index.lookup id <;> rfl, rfl⟩

theorem Relocated.length_free (h : Relocated π a a') (hwf : a.WF) (hwf' : a'.WF) :
    a'.free.length = a.free.length := by
  have hlen := hwf.slots.length_eq
  have hlen' := hwf'.slots.length_eq
  have hslots : a'.slots.length = a.slots.length := by
    simp only [slots, h.queue, List.length_append, List.length_map]
  rw [List.length_append] at hlen hlen'
  omega

theorem eraseIds_map (π : Equiv.Perm (Fin cap)) (index : OrderIndex cap)
    (filled : List (Resting cap)) :
    eraseIds index (filled.map (Resting.move π)) = eraseIds index filled := by
  simp only [eraseIds, List.foldl_map, Resting.move_orderId]

theorem eraseIds_index {index index' : OrderIndex cap}
    (h : ∀ id, index'.lookup id = (index.lookup id).map π) (filled : List (Resting cap))
    (id : UInt64) :
    (eraseIds index' filled).lookup id = ((eraseIds index filled).lookup id).map π := by
  induction filled generalizing index index' with
  | nil => exact h id
  | cons e filled ih =>
    refine ih fun id' => ?_
    by_cases he : id' = e.orderId
    · rw [he, AList.lookup_erase, AList.lookup_erase]
      rfl
    · rw [AList.lookup_erase_ne he, AList.lookup_erase_ne he, h]

/-- The book after the sweep, moved. -/
theorem Relocated.swept (h : Relocated π a a') (free free' : List (Fin cap)) (opp : Side)
    (r : SweepResult cap) : Relocated π (a.swept free opp r) (a'.swept free' opp (r.move π)) := by
  refine ⟨fun s => ?_, fun id => ?_, congrArg (· + 1) h.sequence⟩
  · by_cases hs : s = opp
    · subst hs
      simp only [PriorityBook.swept, Function.update_self, SweepResult.move]
    · simp only [PriorityBook.swept, Function.update_of_ne hs, h.queue]
  · simp only [PriorityBook.swept, SweepResult.move, eraseIds_map]
    exact eraseIds_index h.index r.filled id

/-- A moved order rests in the same place of the queue. -/
theorem Relocated.rest (h : Relocated π a a') (side : Side) (e : Resting cap) :
    Relocated π (a.rest side e) (a'.rest side (e.move π)) := by
  have hmem : ∀ id, id ∈ a'.index ↔ id ∈ a.index := by
    intro id
    rw [← AList.lookup_isSome, ← AList.lookup_isSome, h.index, Option.isSome_map]
  refine ⟨fun s => ?_, fun id => ?_, h.sequence⟩
  · by_cases hs : s = side
    · subst hs
      have hins := insertLast_map (f := Resting.move π) (k := Resting.rank s)
        (fun e => e.rank_move π s) e (a.queue s)
      simp only [PriorityBook.rest, Function.update_self, h.queue, hins]
    · simp only [PriorityBook.rest, Function.update_of_ne hs, h.queue]
  · simp only [PriorityBook.rest, Resting.move_orderId, Resting.move_slot, hmem]
    split
    · exact h.index id
    · by_cases hid : id = e.orderId
      · rw [hid, AList.lookup_insert, AList.lookup_insert]
        rfl
      · rw [AList.lookup_insert_ne hid, AList.lookup_insert_ne hid, h.index]

/-- Another permutation does, when it moves the slots in use alike. -/
theorem Relocated.congr (h : Relocated π a a') (hwf : a.WF) {π' : Equiv.Perm (Fin cap)}
    (hπ : ∀ s ∈ a.slots, π' s = π s) : Relocated π' a a' := by
  refine ⟨fun s => ?_, fun id => ?_, h.sequence⟩
  · rw [h.queue, Resting.map_move_congr fun e he => hπ e.slot (mem_slots.mpr ⟨s, e, he, rfl⟩)]
  · rw [h.index]
    cases hl : a.index.lookup id with
    | none => rfl
    | some s =>
      obtain ⟨side, e, he, rfl, -⟩ := hwf.indexed id s hl
      exact congrArg some (hπ _ (mem_slots.mpr ⟨side, e, he, rfl⟩)).symm

/-- Free slots of the two books, matched up. -/
theorem Relocated.swap (h : Relocated π a a') (hwf : a.WF) (hwf' : a'.WF) {s s' : Fin cap}
    (hs : s ∈ a.free) (hs' : s' ∈ a'.free) :
    Relocated (π.trans (Equiv.swap (π s) s')) a a' ∧ (π.trans (Equiv.swap (π s) s')) s = s' := by
  refine ⟨h.congr hwf fun t ht => ?_, ?_⟩
  · have hts : t ≠ s := by
      rintro rfl
      exact (List.nodup_append.mp (perm_finRange_iff.mp hwf.slots).1).2.2 t hs t ht rfl
    have hts' : π t ≠ s' := by
      intro he
      obtain ⟨side, e, hq, rfl⟩ := mem_slots.mp ht
      refine (List.nodup_append.mp (perm_finRange_iff.mp hwf'.slots).1).2.2 s' hs' s' ?_ rfl
      refine mem_slots.mpr ⟨side, e.move π, ?_, he⟩
      rw [h.queue]
      exact List.mem_map_of_mem hq
    rw [Equiv.trans_apply, Equiv.swap_apply_of_ne_of_ne (fun he => hts (π.injective he)) hts']
  · rw [Equiv.trans_apply, Equiv.swap_apply_left]

/-- Books that differ in their slots take an order alike: the same trades, or the same fault. -/
theorem Relocated.add (h : Relocated π a a') (hwf : a.WF) (hwf' : a'.WF) (build : Build)
    (side : Side) (price quantity : UInt32) (id participantId : UInt64) :
    Sim (fun x y => x.1 = y.1 ∧ ∃ π', Relocated π' x.2 y.2)
      (a.add build side price quantity id participantId)
      (a'.add build side price quantity id participantId) := by
  have hlen := h.length_free hwf hwf'
  cases hfree : a.free with
  | nil =>
    have hfree' : a'.free = [] := List.eq_nil_of_length_eq_zero (by rw [hlen, hfree]; rfl)
    simp only [PriorityBook.add, hfree, hfree']
    exact rfl
  | cons s free =>
    obtain ⟨s', free', hfree'⟩ : ∃ s' free', a'.free = s' :: free' := by
      refine List.exists_cons_of_ne_nil fun hnil => ?_
      rw [hnil, hfree] at hlen
      cases hlen
    have hs : s ∈ a.free := by rw [hfree]; exact List.mem_cons_self
    have hs' : s' ∈ a'.free := by rw [hfree']; exact List.mem_cons_self
    obtain ⟨hmoved, hslot⟩ := h.swap hwf hwf' hs hs'
    generalize π.trans (Equiv.swap (π s) s') = π' at hmoved hslot
    set inc : Resting cap := ⟨s, id, price, quantity, a.sequence, participantId⟩ with hinc
    set inc' : Resting cap := ⟨s', id, price, quantity, a'.sequence, participantId⟩ with hinc'
    have hmove : ∀ q, { inc' with quantity := q } = { inc with quantity := q }.move π' := by
      intro q
      rw [hinc, hinc', ← hslot, hmoved.sequence]
      rfl
    have hsweep : sweep side.opposite inc' quantity
        ((a.queue side.opposite).map (Resting.move π')) =
          (sweep side.opposite inc quantity (a.queue side.opposite)).move π' := by
      apply sweep_move <;> rfl
    rw [← hmoved.queue] at hsweep
    simp only [PriorityBook.add, hfree, hfree', ← hinc, ← hinc', hsweep]
    generalize sweep side.opposite inc quantity (a.queue side.opposite) = r
    have hswept := hmoved.swept free free' side.opposite r
    have hleft : (r.move π').left = r.left := rfl
    rw [hleft]
    by_cases hpos : 0 < r.left
    · rw [if_pos hpos, if_pos hpos, hswept.queue, levelCheck_move, hmove]
      cases levelCheck build side price ((a.swept free side.opposite r).queue side) with
      | error f => exact rfl
      | ok u => exact ⟨rfl, π', hswept.rest side _⟩
    · rw [if_neg hpos, if_neg hpos]
      exact ⟨rfl, π', hswept.queue, hswept.index, hswept.sequence⟩

end Calls

/-! ## Cancelling in any order -/

/-- Cancel some ids one by one. -/
def cancels (a : PriorityBook cap) (ids : List UInt64) : PriorityBook cap :=
  ids.foldl (fun a id => a.cancel id) a

section Cancels

variable {a : PriorityBook cap} {ids ids' : List UInt64}

theorem WF.cancels (h : a.WF) (ids : List UInt64) : (a.cancels ids).WF := by
  induction ids generalizing a with
  | nil => exact h
  | cons id ids ih => exact ih (h.cancel id)

/-- No id of the list indexes the slot. -/
def spares (index : OrderIndex cap) (ids : List UInt64) (e : Resting cap) : Bool :=
  ids.all fun id => decide (index.lookup id ≠ some e.slot)

theorem spares_iff {index : OrderIndex cap} {e : Resting cap} :
    spares index ids e = true ↔ ∀ id ∈ ids, index.lookup id ≠ some e.slot := by
  simp only [spares, List.all_eq_true, decide_eq_true_eq]

/-- What an id indexes leaves the queues, and the id the index. -/
theorem cancel_spec (a : PriorityBook cap) (id : UInt64) :
    (∀ s, (a.cancel id).queue s =
      (a.queue s).filter fun e => decide (a.index.lookup id ≠ some e.slot)) ∧
    (∀ id', (a.cancel id).index.lookup id' = if id' = id then none else a.index.lookup id') ∧
    (a.cancel id).sequence = a.sequence := by
  unfold PriorityBook.cancel
  cases hl : a.index.lookup id with
  | none =>
    refine ⟨fun s => (List.filter_eq_self.mpr fun e _ => rfl).symm, fun id' => ?_, rfl⟩
    by_cases he : id' = id
    · rw [if_pos he, he]
      exact hl
    · rw [if_neg he]
  | some t =>
    refine ⟨fun s => List.filter_congr fun e _ => decide_eq_decide.mpr (not_congr ?_),
      fun id' => ?_, rfl⟩
    · rw [Option.some_inj]
      exact eq_comm
    · by_cases he : id' = id
      · rw [if_pos he, he]
        exact AList.lookup_erase _ _
      · rw [if_neg he]
        exact AList.lookup_erase_ne he

/-- Some ids, one by one. -/
theorem cancels_spec (a : PriorityBook cap) (ids : List UInt64) :
    (∀ s, (a.cancels ids).queue s = (a.queue s).filter (spares a.index ids)) ∧
    (∀ id, (a.cancels ids).index.lookup id = if id ∈ ids then none else a.index.lookup id) ∧
    (a.cancels ids).sequence = a.sequence := by
  induction ids generalizing a with
  | nil => exact ⟨fun s => (List.filter_eq_self.mpr fun _ _ => rfl).symm, fun _ => rfl, rfl⟩
  | cons id ids ih =>
    obtain ⟨hqueue, hindex, hseq⟩ := ih (a.cancel id)
    have hcons : a.cancels (id :: ids) = (a.cancel id).cancels ids := rfl
    obtain ⟨hfirst, hone, hclock⟩ := a.cancel_spec id
    refine ⟨fun s => ?_, fun id' => ?_, by rw [hcons, hseq, hclock]⟩
    · rw [hcons, hqueue, hfirst, List.filter_filter]
      refine List.filter_congr fun e _ => ?_
      rw [Bool.eq_iff_iff, Bool.and_eq_true, spares_iff, spares_iff, List.forall_mem_cons,
        decide_eq_true_eq]
      constructor
      · rintro ⟨hrest, hid⟩
        refine ⟨hid, fun id' hid' => ?_⟩
        by_cases he : id' = id
        · rw [he]
          exact hid
        · have hlook := hrest id' hid'
          rwa [hone, if_neg he] at hlook
      · rintro ⟨hid, hrest⟩
        refine ⟨fun id' hid' => ?_, hid⟩
        rw [hone]
        split
        · simp
        · exact hrest id' hid'
    · rw [hcons, hindex, hone]
      by_cases h₁ : id' ∈ ids <;> by_cases h₂ : id' = id <;> simp [h₁, h₂]

/-- Where every order is indexed, the orders with these ids leave. -/
theorem Indexed.cancels (h : a.Indexed) (hwf : a.WF) (ids : List UInt64) :
    (a.cancels ids).Indexed ∧
      ∀ s, (a.cancels ids).queue s = (a.queue s).filter fun e => e.orderId ∉ ids := by
  induction ids generalizing a with
  | nil => exact ⟨h, fun s => (List.filter_eq_self.mpr fun e _ => by simp).symm⟩
  | cons id ids ih =>
    obtain ⟨hix, hqueue⟩ := ih (h.cancel hwf id) (hwf.cancel id)
    refine ⟨hix, fun s => (hqueue s).trans ?_⟩
    rw [h.cancel_queue hwf, List.filter_filter]
    refine List.filter_congr fun e _ => ?_
    simp only [List.mem_cons, not_or, Bool.decide_and, Bool.and_comm, ne_eq]

/-- In whichever order the ids are cancelled, the orders left and their places are the same. -/
theorem Relocated.cancels {π : Equiv.Perm (Fin cap)} {a' : PriorityBook cap}
    (h : Relocated π a a') (hids : ids.Perm ids') :
    Relocated π (a.cancels ids) (a'.cancels ids') := by
  obtain ⟨hqueue, hindex, hseq⟩ := a.cancels_spec ids
  obtain ⟨hqueue', hindex', hseq'⟩ := a'.cancels_spec ids'
  refine ⟨fun s => ?_, fun id => ?_, ?_⟩
  · rw [hqueue, hqueue', h.queue, List.filter_map]
    refine congrArg _ (List.filter_congr fun e _ => ?_)
    rw [Function.comp_apply, Bool.eq_iff_iff, spares_iff, spares_iff]
    have hone : ∀ id, a'.index.lookup id ≠ some (e.move π).slot ↔
        a.index.lookup id ≠ some e.slot := by
      intro id
      rw [h.index, Resting.move_slot, ← Option.map_some]
      exact (Option.map_injective π.injective).ne_iff
    simp only [hone, hids.mem_iff]
  · rw [hindex, hindex', h.index]
    simp only [hids.mem_iff]
    split <;> rfl
  · rw [hseq, hseq', h.sequence]

theorem Relocated.cancel {π : Equiv.Perm (Fin cap)} {a' : PriorityBook cap}
    (h : Relocated π a a') (id : UInt64) : Relocated π (a.cancel id) (a'.cancel id) :=
  h.cancels (List.Perm.refl [id])

end Cancels

end PriorityBook
end MarketMakerOps.Engine
