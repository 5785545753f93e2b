import MarketMakerOps.Lib.Priority
import MarketMakerOps.Engine.OrderBook

/-!
The book without pointers: on each side one list of resting orders in price-time
priority, the free slots as a stack, and the index.

* `sweep` is the match loop as a recursion on the opposite side's list;
* `PriorityBook.add`, `PriorityBook.cancel`: the two calls;
* `sweep_prefix`, `sweep_exit`: what a sweep takes off that list, and why it stops;
* `PriorityBook.WF`: the invariant of all runs, duplicate ids included;
* `WF.add`, `WF.cancel`: both calls keep it;
* `PriorityBook.Indexed`: with fresh ids, every resting order is indexed.
-/

namespace MarketMakerOps.Engine

open Priority Fallible

variable {cap : Nat}

/-- A resting order and the slot it lives in. -/
structure Resting (cap : Nat) where
  slot : Fin cap
  orderId : UInt64
  price : UInt32
  quantity : UInt32
  sequence : UInt64
  participantId : UInt64
  deriving DecidableEq, Repr

namespace Resting

/-- The slot's contents, links aside. -/
def order (e : Resting cap) (s : Side) : Order cap :=
  ⟨e.orderId, e.price, e.quantity, e.sequence, e.participantId, s, none, none⟩

def rank (s : Side) (e : Resting cap) : Nat := s.rank e.price

end Resting

/-- A trade of an incoming order against one resting on side `opp`. -/
def tradeOf (opp : Side) (incoming resting : UInt64) (price quantity : UInt32) : Trade :=
  match opp with
  | .sell => ⟨incoming, resting, price, quantity⟩
  | .buy => ⟨resting, incoming, price, quantity⟩

/-- What a sweep leaves behind. -/
structure SweepResult (cap : Nat) where
  trades : List Trade
  left : UInt32
  queue : List (Resting cap)
  filled : List (Resting cap)

/-- Match `inc`, with `q` still open, against the orders resting on side `opp`, best first. -/
def sweep (opp : Side) (inc : Resting cap) : UInt32 → List (Resting cap) → SweepResult cap
  | q, [] => ⟨[], q, [], []⟩
  | q, e :: P =>
    if q = 0 ∨ opp.rank e.price < opp.rank inc.price then ⟨[], q, e :: P, []⟩
    else if e.participantId = inc.participantId then ⟨[], 0, e :: P, []⟩
    else
      let t := tradeOf opp inc.orderId e.orderId e.price
      if q < e.quantity then
        ⟨[t q], 0, { e with quantity := e.quantity - q } :: P, []⟩
      else
        let r := sweep opp inc (q - e.quantity) P
        ⟨t e.quantity :: r.trades, r.left, r.queue, e :: r.filled⟩

/-- The number of price levels of one side. -/
def levelCount (P : List (Resting cap)) : Nat := (P.map Resting.price).dedup.length

/-- The assertion that fires when a side is out of level capacity. -/
def Side.levelsExceeded : Side → Fault
  | .buy => .bidLevelsExceeded
  | .sell => .askLevelsExceeded

/-- Room for the level of a price: it exists already, or the assertion passes. -/
def levelCheck (build : Build) (side : Side) (price : UInt32) (P : List (Resting cap)) :
    Except Fault Unit :=
  if price ∈ P.map Resting.price then pure ()
  else assertThat build (levelCount P < kDefaultMaxPriceLevels) side.levelsExceeded

/-- How an exhausted pool fails. -/
def Build.exhausted : Build → Fault
  | .ndebug => .nullDeref
  | _ => .freeListEmpty

structure PriorityBook (cap : Nat) where
  free : List (Fin cap)
  queue : Side → List (Resting cap)
  index : OrderIndex cap
  sequence : UInt64

namespace PriorityBook

def empty (cap : Nat) : PriorityBook cap := ⟨List.finRange cap, fun _ => [], ∅, 0⟩

/-- The index once the filled orders have left. -/
def eraseIds (index : OrderIndex cap) (filled : List (Resting cap)) : OrderIndex cap :=
  filled.foldl (fun m e => m.erase e.orderId) index

/-- The book after the sweep of an incoming order that took slot `s`. -/
def swept (a : PriorityBook cap) (free : List (Fin cap)) (opp : Side) (r : SweepResult cap) :
    PriorityBook cap :=
  { free := (r.filled.map Resting.slot).reverse ++ free
    queue := Function.update a.queue opp r.queue
    index := eraseIds a.index r.filled
    sequence := a.sequence + 1 }

/-- Rest the remainder `e` of an incoming order. -/
def rest (a : PriorityBook cap) (side : Side) (e : Resting cap) : PriorityBook cap :=
  { a with
    queue := Function.update a.queue side (insertLast (Resting.rank side) e (a.queue side))
    index := if e.orderId ∈ a.index then a.index else a.index.insert e.orderId e.slot }

def add (build : Build) (side : Side) (price quantity : UInt32) (id participantId : UInt64)
    (a : PriorityBook cap) : Except Fault (List Trade × PriorityBook cap) :=
  match a.free with
  | [] => .error build.exhausted
  | s :: free =>
    let inc : Resting cap := ⟨s, id, price, quantity, a.sequence, participantId⟩
    let r := sweep side.opposite inc quantity (a.queue side.opposite)
    let a := a.swept free side.opposite r
    if 0 < r.left then do
      levelCheck build side price (a.queue side)
      pure (r.trades, a.rest side { inc with quantity := r.left })
    else
      pure (r.trades, { a with free := s :: a.free })

def cancel (id : UInt64) (a : PriorityBook cap) : PriorityBook cap :=
  match a.index.lookup id with
  | none => a
  | some s =>
    { a with
      free := s :: a.free
      queue := fun side => (a.queue side).filter fun e => e.slot ≠ s
      index := a.index.erase id }

/-- All slots in use by resting orders. -/
def slots (a : PriorityBook cap) : List (Fin cap) :=
  (a.queue .buy).map Resting.slot ++ (a.queue .sell).map Resting.slot

/-- The invariant of every run. An id may rest twice, then only one entry is indexed. -/
structure WF (a : PriorityBook cap) : Prop where
  sorted : ∀ s, Sorted (Resting.rank s) (a.queue s)
  positive : ∀ s, ∀ e ∈ a.queue s, 0 < e.quantity
  slots : (a.free ++ a.slots).Perm (List.finRange cap)
  indexed : ∀ id s, a.index.lookup id = some s →
    ∃ side, ∃ e ∈ a.queue side, e.slot = s ∧ e.orderId = id
  uncrossed : ∀ e ∈ a.queue .buy, ∀ f ∈ a.queue .sell, e.price < f.price

end PriorityBook

/-! ## The sweep -/

/-- Everything about an entry but its open quantity. -/
def Resting.key (e : Resting cap) : Resting cap := { e with quantity := 0 }

section Sweep

variable (opp : Side) (inc : Resting cap)

/-- Equal keys agree on every field but the quantity. -/
theorem map_of_key {β : Type*} {f : Resting cap → β} (hf : ∀ e, f e.key = f e)
    {P R : List (Resting cap)} (h : P.map Resting.key = R.map Resting.key) :
    P.map f = R.map f := by
  have := congrArg (List.map f) h
  simpa only [List.map_map, Function.comp_def, hf] using this

theorem mem_of_key {P R : List (Resting cap)} (h : P.map Resting.key = R.map Resting.key)
    {e : Resting cap} (he : e ∈ P) : ∃ f ∈ R, f.key = e.key := by
  have hk := List.mem_map_of_mem (f := Resting.key) he
  rw [h] at hk
  exact List.mem_map.mp hk

/-- Orders leave from the front; what stays keeps all but its quantity. -/
theorem sweep_prefix (q : UInt32) (P : List (Resting cap)) :
    ∃ R, P = (sweep opp inc q P).filled ++ R ∧
      (sweep opp inc q P).queue.map Resting.key = R.map Resting.key := by
  induction P generalizing q with
  | nil => exact ⟨[], rfl, rfl⟩
  | cons e P ih =>
    simp only [sweep]
    split
    · exact ⟨e :: P, rfl, rfl⟩
    · split
      · exact ⟨e :: P, rfl, rfl⟩
      · split
        · exact ⟨e :: P, rfl, rfl⟩
        · obtain ⟨R, hP, hR⟩ := ih (q - e.quantity)
          exact ⟨R, congrArg (e :: ·) hP, hR⟩

theorem sweep_slots (q : UInt32) (P : List (Resting cap)) :
    ((sweep opp inc q P).filled ++ (sweep opp inc q P).queue).map Resting.slot =
      P.map Resting.slot := by
  obtain ⟨R, hP, hR⟩ := sweep_prefix opp inc q P
  conv_rhs => rw [hP]
  rw [List.map_append, List.map_append, map_of_key (fun _ => rfl) hR]

/-- A sweep keeps what holds between orders and does not depend on quantities. -/
theorem sweep_pairwise {S : Resting cap → Resting cap → Prop}
    (hS : ∀ e f, S e.key f.key ↔ S e f) {P : List (Resting cap)} (hs : P.Pairwise S) (q : UInt32) :
    (sweep opp inc q P).queue.Pairwise S := by
  obtain ⟨R, hP, hR⟩ := sweep_prefix opp inc q P
  have hsR : R.Pairwise S := hs.sublist (by
    conv_rhs => rw [hP]
    exact List.sublist_append_right _ _)
  have hkeys : ∀ Q : List (Resting cap), Q.Pairwise S ↔ (Q.map Resting.key).Pairwise S := by
    intro Q
    simp only [List.pairwise_map, hS]
  rw [hkeys, hR, ← hkeys]
  exact hsR

theorem sweep_sorted {P : List (Resting cap)} (hs : Sorted (Resting.rank opp) P) (q : UInt32) :
    Sorted (Resting.rank opp) (sweep opp inc q P).queue :=
  sweep_pairwise opp inc (fun _ _ => Iff.rfl) hs q

theorem sweep_positive {P : List (Resting cap)} (hP : ∀ e ∈ P, 0 < e.quantity) (q : UInt32) :
    ∀ e ∈ (sweep opp inc q P).queue, 0 < e.quantity := by
  induction P generalizing q with
  | nil => simp [sweep]
  | cons e P ih =>
    simp only [sweep]
    split
    · exact hP
    · split
      · exact hP
      · split
        · rename_i hqe
          intro x hx
          rcases List.mem_cons.mp hx with rfl | hx
          · simp only
            grind
          · exact hP x (List.mem_cons_of_mem _ hx)
        · exact ih (fun x hx => hP x (List.mem_cons_of_mem _ hx)) _

/-- A remainder is left only when nothing on the other side crosses the limit. -/
theorem sweep_exit {P : List (Resting cap)} (hs : Sorted (Resting.rank opp) P) {q : UInt32}
    (hleft : 0 < (sweep opp inc q P).left) :
    ∀ e ∈ (sweep opp inc q P).queue, opp.rank e.price < opp.rank inc.price := by
  induction P generalizing q with
  | nil => simp [sweep]
  | cons e P ih =>
    obtain ⟨he, hs'⟩ := List.pairwise_cons.mp hs
    simp only [sweep] at hleft ⊢
    split at hleft
    · rename_i hstop
      have hlt : opp.rank e.price < opp.rank inc.price :=
        hstop.resolve_left (UInt32.pos_iff_ne_zero.mp hleft)
      rw [if_pos hstop]
      intro x hx
      rcases List.mem_cons.mp hx with rfl | hx
      · exact hlt
      · exact lt_of_le_of_lt (he x hx) hlt
    · rename_i hstop
      rw [if_neg hstop]
      split at hleft
      · exact absurd hleft (UInt32.lt_irrefl _)
      · rename_i hself
        rw [if_neg hself]
        split at hleft
        · exact absurd hleft (UInt32.lt_irrefl _)
        · rename_i hqe
          rw [if_neg hqe]
          exact ih hs' hleft

end Sweep

/-! ## The invariant -/

/-- A list using every slot exactly once. -/
theorem perm_finRange_iff {l : List (Fin cap)} :
    l.Perm (List.finRange cap) ↔ l.Nodup ∧ ∀ s, s ∈ l := by
  constructor
  · intro h
    exact ⟨h.nodup_iff.mpr (List.nodup_finRange cap), fun s => h.mem_iff.mpr (List.mem_finRange s)⟩
  · rintro ⟨hnd, hall⟩
    exact (List.perm_ext_iff_of_nodup hnd (List.nodup_finRange cap)).mpr fun s => by simp [hall s]

/-- Both sides at once. -/
theorem forall_side {p : Side → Prop} (side : Side) (h₁ : p side) (h₂ : p side.opposite) :
    ∀ s, p s := by
  intro s
  rcases Side.eq_or_opposite s side with rfl | rfl
  · exact h₁
  · exact h₂

namespace PriorityBook

variable {a a' : PriorityBook cap} {build : Build} {side : Side}

/-- The slots of the two sides, in either order. -/
theorem slots_perm (a : PriorityBook cap) (side : Side) :
    a.slots.Perm ((a.queue side.opposite).map Resting.slot ++ (a.queue side).map Resting.slot) := by
  cases side with
  | buy => exact List.perm_append_comm
  | sell => exact List.Perm.refl _

theorem mem_slots {s : Fin cap} : s ∈ a.slots ↔ ∃ side, ∃ e ∈ a.queue side, e.slot = s := by
  simp only [slots, List.mem_append, List.mem_map]
  constructor
  · rintro (h | h)
    · exact ⟨.buy, h⟩
    · exact ⟨.sell, h⟩
  · rintro ⟨side, h⟩
    cases side with
    | buy => exact Or.inl h
    | sell => exact Or.inr h

/-- One slot holds one order. -/
theorem WF.slot_inj (h : a.WF) {s t : Side} {e f : Resting cap} (he : e ∈ a.queue s)
    (hf : f ∈ a.queue t) (hslot : e.slot = f.slot) : s = t ∧ e = f := by
  have hnd := (perm_finRange_iff.mp h.slots).1
  obtain ⟨hopp, hown, hdisj⟩ := List.nodup_append.mp
    ((slots_perm a s).nodup_iff.mp (List.nodup_append.mp hnd).2.1)
  rcases Side.eq_or_opposite t s with rfl | rfl
  · exact ⟨rfl, List.inj_on_of_nodup_map hown he hf hslot⟩
  · exact absurd hslot.symm (hdisj _ (List.mem_map_of_mem hf) _ (List.mem_map_of_mem he))

theorem WF.nodup (h : a.WF) (s : Side) : ((a.queue s).map Resting.slot).Nodup := by
  have hnd := (perm_finRange_iff.mp h.slots).1
  have hnd := (a.slots_perm s).nodup_iff.mp (List.nodup_append.mp hnd).2.1
  exact (List.nodup_append.mp hnd).2.1

theorem WF.empty : (empty cap).WF := by
  refine ⟨fun _ => List.Pairwise.nil, by simp [PriorityBook.empty], ?_,
    by simp [PriorityBook.empty], by simp [PriorityBook.empty]⟩
  simp [PriorityBook.empty, PriorityBook.slots]

/-- Looking up an id after erasing others. -/
theorem lookup_eraseIds {index : OrderIndex cap} {filled : List (Resting cap)} {id : UInt64}
    {s : Fin cap} : (eraseIds index filled).lookup id = some s ↔
      index.lookup id = some s ∧ ∀ e ∈ filled, e.orderId ≠ id := by
  induction filled generalizing index with
  | nil => simp [eraseIds]
  | cons e filled ih =>
    have := @ih (index.erase e.orderId)
    simp only [eraseIds, List.foldl_cons, List.forall_mem_cons] at this ⊢
    rw [this]
    by_cases he : e.orderId = id
    · subst he; simp
    · rw [AList.lookup_erase_ne (Ne.symm he)]; tauto

/-- No order rests on both sides of another's price. -/
theorem uncrossed_iff (side : Side) : (∀ e ∈ a.queue .buy, ∀ f ∈ a.queue .sell, e.price < f.price) ↔
    ∀ e ∈ a.queue side, ∀ f ∈ a.queue side.opposite,
      side.opposite.rank f.price < side.opposite.rank e.price := by
  have hsell : ∀ p q : UInt32, p < q ↔ Side.sell.rank q < Side.sell.rank p := by
    intro p q
    have hp := p.toNat_lt
    have hq := q.toNat_lt
    rw [UInt32.lt_iff_toNat_lt, Side.rank, Side.rank]
    omega
  cases side with
  | buy => simp only [Side.opposite, hsell]
  | sell =>
    simp only [Side.opposite, Side.rank, UInt32.lt_iff_toNat_lt]
    exact ⟨fun h e he f hf => h f hf e he, fun h e he f hf => h f hf e he⟩

/-- The state after a sweep, the incoming order's slot back on the free stack. -/
theorem WF.swept (h : a.WF) (side : Side) {s : Fin cap} {free : List (Fin cap)}
    (hfree : a.free = s :: free)
    (inc : Resting cap) (q : UInt32) {r : SweepResult cap}
    (hr : sweep side.opposite inc q (a.queue side.opposite) = r) :
    WF { a.swept free side.opposite r with free := s :: (a.swept free side.opposite r).free } := by
  subst hr
  set r := sweep side.opposite inc q (a.queue side.opposite) with hr
  obtain ⟨R, hP, hR⟩ := sweep_prefix side.opposite inc q (a.queue side.opposite)
  rw [← hr] at hP hR
  have hne := side.ne_opposite
  refine ⟨forall_side side ?_ ?_, forall_side side ?_ ?_, ?_, ?_, ?_⟩
  · simpa only [PriorityBook.swept, Function.update_of_ne hne] using h.sorted side
  · simpa only [PriorityBook.swept, Function.update_self] using sweep_sorted _ inc (h.sorted _) q
  · simpa only [PriorityBook.swept, Function.update_of_ne hne] using h.positive side
  · simpa only [PriorityBook.swept, Function.update_self]
      using sweep_positive _ inc (h.positive _) q
  · refine List.Perm.trans ?_ h.slots
    have hslots := sweep_slots side.opposite inc q (a.queue side.opposite)
    rw [← hr, List.map_append] at hslots
    rw [hfree]
    refine List.Perm.cons _ ?_
    refine (List.Perm.append_left _ (slots_perm _ side)).trans ?_
    refine List.Perm.trans ?_ (List.Perm.append_left _ (slots_perm _ side)).symm
    simp only [PriorityBook.swept, Function.update_self, Function.update_of_ne hne]
    rw [← hslots, ← List.append_assoc, ← List.append_assoc]
    refine List.Perm.append_right _ ?_
    rw [← List.append_assoc]
    refine List.Perm.append_right _ ?_
    exact List.perm_append_comm.trans (List.Perm.append_left _ (List.reverse_perm _))
  · intro id t ht
    obtain ⟨hlook, hnot⟩ := lookup_eraseIds.mp ht
    obtain ⟨side', e, he, hes, heid⟩ := h.indexed id t hlook
    rcases Side.eq_or_opposite side' side with rfl | rfl
    · exact ⟨side', e, by simpa only [PriorityBook.swept, Function.update_of_ne hne] using he,
        hes, heid⟩
    · rw [hP] at he
      rcases List.mem_append.mp he with he | he
      · exact absurd heid (hnot e he)
      · obtain ⟨f, hf, hfe⟩ := mem_of_key hR.symm he
        refine ⟨side.opposite, f, by simpa only [PriorityBook.swept, Function.update_self] using hf,
          ?_, ?_⟩
        · exact (congrArg Resting.slot hfe :).trans hes
        · exact (congrArg Resting.orderId hfe :).trans heid
  · rw [uncrossed_iff side]
    simp only [PriorityBook.swept, Function.update_self, Function.update_of_ne hne]
    intro e he f hf
    obtain ⟨g, hg, hgf⟩ := mem_of_key hR hf
    have hprice : g.price = f.price := (congrArg Resting.price hgf :)
    rw [← hprice]
    exact (uncrossed_iff side).mp h.uncrossed e he g (hP ▸ List.mem_append_right _ hg)

/-- Resting an order that crosses nothing. -/
theorem WF.rest {e : Resting cap} (h : WF { a with free := e.slot :: a.free })
    (hpos : 0 < e.quantity)
    (hexit : ∀ f ∈ a.queue side.opposite, side.opposite.rank f.price < side.opposite.rank e.price) :
    (a.rest side e).WF := by
  have hne := side.ne_opposite
  refine ⟨forall_side side ?_ ?_, forall_side side ?_ ?_, ?_, ?_, ?_⟩
  · simpa only [PriorityBook.rest, Function.update_self] using (h.sorted side).insertLast e
  · simpa only [PriorityBook.rest, Function.update_of_ne hne.symm] using h.sorted side.opposite
  · simp only [PriorityBook.rest, Function.update_self, mem_insertLast]
    rintro x (rfl | hx)
    · exact hpos
    · exact h.positive side x hx
  · simpa only [PriorityBook.rest, Function.update_of_ne hne.symm] using h.positive side.opposite
  · refine List.Perm.trans ?_ h.slots
    refine (List.Perm.append_left _ (slots_perm _ side)).trans ?_
    simp only [PriorityBook.rest, Function.update_self, Function.update_of_ne hne.symm]
    have hperm : (insertLast (Resting.rank side) e (a.queue side)).Perm (e :: a.queue side) :=
      insertLast_perm _ e _
    have hins := hperm.map Resting.slot
    refine (List.Perm.append_left _ (List.Perm.append_left _ hins)).trans ?_
    rw [List.map_cons]
    refine (List.Perm.append_left _ List.perm_middle).trans ?_
    refine List.perm_middle.trans (List.Perm.cons _ (List.Perm.append_left _ ?_))
    exact (slots_perm a side).symm
  · intro id t ht
    have hnew : e ∈ (a.rest side e).queue side := by
      simp [PriorityBook.rest]
    have hold : ∀ side', ∀ x ∈ a.queue side', x ∈ (a.rest side e).queue side' := by
      refine forall_side side ?_ ?_ <;> intro x hx
      · simp [PriorityBook.rest, hx]
      · simpa only [PriorityBook.rest, Function.update_of_ne hne.symm] using hx
    have hkeep : a.index.lookup id = some t →
        ∃ side', ∃ x ∈ (a.rest side e).queue side', x.slot = t ∧ x.orderId = id := by
      intro hl
      obtain ⟨side', x, hx, hxs⟩ := h.indexed id t hl
      exact ⟨side', x, hold side' x hx, hxs⟩
    simp only [PriorityBook.rest] at ht
    split at ht
    · exact hkeep ht
    · by_cases hid : id = e.orderId
      · subst hid
        rw [AList.lookup_insert, Option.some_inj] at ht
        exact ⟨side, e, hnew, ht, rfl⟩
      · rw [AList.lookup_insert_ne hid] at ht
        exact hkeep ht
  · rw [uncrossed_iff side]
    simp only [PriorityBook.rest, Function.update_self, Function.update_of_ne hne.symm,
      mem_insertLast]
    rintro x (rfl | hx) f hf
    · exact hexit f hf
    · exact (uncrossed_iff side).mp h.uncrossed x hx f hf

/-- What a successful call took, matched and rested. -/
theorem add_cases {price quantity : UInt32} {id participantId : UInt64} {ts : List Trade}
    (hadd : a.add build side price quantity id participantId = .ok (ts, a')) :
    ∃ s free r, a.free = s :: free ∧
      sweep side.opposite ⟨s, id, price, quantity, a.sequence, participantId⟩ quantity
        (a.queue side.opposite) = r ∧ ts = r.trades ∧
      ((0 < r.left ∧ a' = (a.swept free side.opposite r).rest side
          ⟨s, id, price, r.left, a.sequence, participantId⟩) ∨
        (r.left = 0 ∧ a' = { a.swept free side.opposite r with
          free := s :: (a.swept free side.opposite r).free })) := by
  cases hfree : a.free with
  | nil => simp [PriorityBook.add, hfree] at hadd
  | cons s free =>
    simp only [PriorityBook.add, hfree] at hadd
    refine ⟨s, free, _, rfl, rfl, ?_⟩
    split at hadd
    · next hleft =>
      obtain ⟨u, -, hadd⟩ := bind_eq_ok.mp hadd
      cases hadd
      exact ⟨rfl, Or.inl ⟨hleft, rfl⟩⟩
    · next hleft =>
      cases hadd
      exact ⟨rfl, Or.inr ⟨Decidable.not_not.mp (mt UInt32.pos_iff_ne_zero.mpr hleft), rfl⟩⟩

/-- Adding keeps the invariant. -/
theorem WF.add (h : a.WF) {price quantity : UInt32} {id participantId : UInt64} {ts : List Trade}
    (hadd : a.add build side price quantity id participantId = .ok (ts, a')) : a'.WF := by
  obtain ⟨s, free, r, hfree, hr, -, ⟨hleft, rfl⟩ | ⟨-, rfl⟩⟩ := add_cases hadd
  · refine WF.rest (h.swept side hfree _ quantity hr) hleft ?_
    simp only [PriorityBook.swept, Function.update_self]
    subst hr
    exact sweep_exit _ _ (h.sorted _) hleft
  · exact h.swept side hfree _ _ hr

/-- Cancelling keeps the invariant. -/
theorem WF.cancel (h : a.WF) (id : UInt64) : (a.cancel id).WF := by
  cases hlook : a.index.lookup id with
  | none => simpa [PriorityBook.cancel, hlook] using h
  | some s =>
    obtain ⟨hnd, hall⟩ := perm_finRange_iff.mp h.slots
    obtain ⟨hfree, hslots, hdisj⟩ := List.nodup_append.mp hnd
    obtain ⟨side, e, he, hes, heid⟩ := h.indexed id s hlook
    have hs : s ∈ a.slots := mem_slots.mpr ⟨side, e, he, hes⟩
    have hmem : ∀ t, t ∈ (a.cancel id).slots ↔ t ∈ a.slots ∧ t ≠ s := by
      intro t
      simp only [mem_slots, PriorityBook.cancel, hlook, List.mem_filter, decide_eq_true_eq]
      constructor
      · rintro ⟨side, x, ⟨hx, hne⟩, rfl⟩
        exact ⟨⟨side, x, hx, rfl⟩, hne⟩
      · rintro ⟨⟨side, x, hx, rfl⟩, hne⟩
        exact ⟨side, x, ⟨hx, hne⟩, rfl⟩
    have hsub : (a.cancel id).slots.Sublist a.slots := by
      simp only [PriorityBook.slots, PriorityBook.cancel, hlook]
      exact (List.filter_sublist.map _).append (List.filter_sublist.map _)
    have hq : ∀ t, (a.cancel id).queue t = (a.queue t).filter fun e => e.slot ≠ s := by
      simp [PriorityBook.cancel, hlook]
    refine ⟨?_, ?_, ?_, ?_, ?_⟩
    · intro t
      rw [hq]
      exact (h.sorted t).sublist List.filter_sublist
    · intro t x hx
      rw [hq] at hx
      exact h.positive t x (List.mem_filter.mp hx).1
    · rw [perm_finRange_iff]
      have hcf : (a.cancel id).free = s :: a.free := by simp [PriorityBook.cancel, hlook]
      rw [hcf]
      constructor
      · refine List.nodup_append.mpr ⟨List.nodup_cons.mpr ⟨fun hm => hdisj s hm s hs rfl, hfree⟩,
          hslots.sublist hsub, ?_⟩
        intro x hx y hy
        obtain ⟨hy, hys⟩ := (hmem y).mp hy
        rcases List.mem_cons.mp hx with rfl | hx
        · exact Ne.symm hys
        · exact hdisj x hx y hy
      · intro t
        by_cases hts : t = s
        · simp [hts]
        · rcases List.mem_append.mp (hall t) with ht | ht
          · simp [ht]
          · exact List.mem_append_right _ ((hmem t).mpr ⟨ht, hts⟩)
    · intro id' t ht
      simp only [PriorityBook.cancel, hlook] at ht
      have hid : id' ≠ id := by
        rintro rfl
        simp [AList.lookup_erase] at ht
      rw [AList.lookup_erase_ne hid] at ht
      obtain ⟨side', x, hx, hxt, hxid⟩ := h.indexed id' t ht
      refine ⟨side', x, ?_, hxt, hxid⟩
      rw [hq]
      refine List.mem_filter.mpr ⟨hx, ?_⟩
      -- one slot holds one order, so another id lives in another slot
      have hne : x.slot ≠ s := by
        intro hxs
        obtain ⟨-, hxe⟩ := h.slot_inj hx he (hxs.trans hes.symm)
        exact hid (hxid.symm.trans (hxe ▸ heid))
      simpa using hne
    · intro x hx y hy
      rw [hq] at hx hy
      exact h.uncrossed x (List.mem_filter.mp hx).1 y (List.mem_filter.mp hy).1

/-- Adding nothing only advances the clock. -/
theorem add_zero (h : a.free ≠ []) (build : Build) (side : Side) (price : UInt32)
    (id participantId : UInt64) : a.add build side price 0 id participantId =
      .ok ([], { a with sequence := a.sequence + 1 }) := by
  cases hfree : a.free with
  | nil => exact absurd hfree h
  | cons s free =>
    have hsweep : ∀ inc P, sweep side.opposite inc 0 P = (⟨[], 0, P, []⟩ : SweepResult cap) := by
      intro inc P
      cases P <;> simp [sweep]
    simp [PriorityBook.add, hfree, hsweep, PriorityBook.swept, eraseIds, pure, Except.pure]

/-! ### Fresh ids -/

/-- Every resting order is indexed, so no id rests twice. -/
def Indexed (a : PriorityBook cap) : Prop :=
  ∀ s, ∀ e ∈ a.queue s, a.index.lookup e.orderId = some e.slot

theorem Indexed.id_inj (h : a.Indexed) (hwf : a.WF) {s t : Side} {e f : Resting cap}
    (he : e ∈ a.queue s) (hf : f ∈ a.queue t) (hid : e.orderId = f.orderId) : s = t ∧ e = f := by
  refine hwf.slot_inj he hf (Option.some_inj.mp ?_)
  rw [← h s e he, ← h t f hf, hid]

theorem Indexed.swept (h : a.Indexed) (hwf : a.WF) (free : List (Fin cap)) (inc : Resting cap)
    (q : UInt32) : (a.swept free side.opposite
      (sweep side.opposite inc q (a.queue side.opposite))).Indexed := by
  obtain ⟨R, hP, hR⟩ := sweep_prefix side.opposite inc q (a.queue side.opposite)
  set r := sweep side.opposite inc q (a.queue side.opposite)
  have hne := side.ne_opposite
  have hfilled : ∀ f ∈ r.filled, f ∈ a.queue side.opposite := fun f hf => by
    rw [hP]; exact List.mem_append_left _ hf
  refine forall_side side ?_ ?_ <;> intro e he
  · simp only [PriorityBook.swept, Function.update_of_ne hne] at he
    refine lookup_eraseIds.mpr ⟨h side e he, fun f hf hid => ?_⟩
    exact hne (h.id_inj hwf he (hfilled f hf) hid.symm).1
  · simp only [PriorityBook.swept, Function.update_self] at he
    obtain ⟨g, hg, hge⟩ := mem_of_key hR he
    have hgP : g ∈ a.queue side.opposite := by rw [hP]; exact List.mem_append_right _ hg
    have hid : g.orderId = e.orderId := (congrArg Resting.orderId hge :)
    have hslot : g.slot = e.slot := (congrArg Resting.slot hge :)
    rw [← hid, ← hslot]
    refine lookup_eraseIds.mpr ⟨h side.opposite g hgP, fun f hf hid => ?_⟩
    -- a filled order and a remaining one are two entries of one list
    have hfg := (h.id_inj hwf (hfilled f hf) hgP hid).2
    have hnd := hwf.nodup side.opposite
    rw [hP, List.map_append] at hnd
    exact (List.nodup_append.mp hnd).2.2 _ (List.mem_map_of_mem hf) _
      (List.mem_map_of_mem (hfg ▸ hg)) rfl

theorem Indexed.add (h : a.Indexed) (hwf : a.WF) {price quantity : UInt32}
    {id participantId : UInt64} {ts : List Trade} (hfresh : ∀ s, ∀ e ∈ a.queue s, e.orderId ≠ id)
    (hadd : a.add build side price quantity id participantId = .ok (ts, a')) : a'.Indexed := by
  obtain ⟨s, free, r, hfree, hr, -, ha'⟩ := add_cases hadd
  have hs : (a.swept free side.opposite r).Indexed := hr ▸ h.swept hwf free _ quantity
  rcases ha' with ⟨-, rfl⟩ | ⟨-, rfl⟩
  · have hnot : id ∉ (a.swept free side.opposite r).index := by
      intro hm
      obtain ⟨t, ht⟩ := Option.isSome_iff_exists.mp (AList.lookup_isSome.mpr hm)
      obtain ⟨side', e, he, -, heid⟩ := hwf.indexed id t (lookup_eraseIds.mp ht).1
      exact hfresh side' e he heid
    have hold : ∀ t, ∀ e ∈ (a.swept free side.opposite r).queue t,
        ((a.swept free side.opposite r).index.insert id s).lookup e.orderId = some e.slot := by
      intro t e he
      have hne : e.orderId ≠ id := by
        intro hid
        refine hnot (AList.lookup_isSome.mp ?_)
        rw [← hid, hs t e he]
        rfl
      rw [AList.lookup_insert_ne hne]
      exact hs t e he
    refine forall_side side ?_ ?_ <;> intro e he
    · simp only [PriorityBook.rest, Function.update_self, mem_insertLast, if_neg hnot] at he ⊢
      rcases he with rfl | he
      · exact AList.lookup_insert _
      · exact hold side e he
    · simp only [PriorityBook.rest, Function.update_of_ne side.ne_opposite.symm,
        if_neg hnot] at he ⊢
      exact hold side.opposite e he
  · exact hs

theorem Indexed.cancel (h : a.Indexed) (hwf : a.WF) (id : UInt64) : (a.cancel id).Indexed := by
  cases hlook : a.index.lookup id with
  | none => simpa [PriorityBook.cancel, hlook] using h
  | some s =>
    obtain ⟨side, e, he, hes, heid⟩ := hwf.indexed id s hlook
    intro t x hx
    simp only [PriorityBook.cancel, hlook, List.mem_filter, decide_eq_true_eq] at hx ⊢
    have hne : x.orderId ≠ id := by
      intro hxid
      have := (h.id_inj hwf hx.1 he (hxid.trans heid.symm)).2
      exact hx.2 (this ▸ hes)
    rw [AList.lookup_erase_ne hne]
    exact h t x hx.1

/-- An indexed order is named by its slot and by its id alike. -/
theorem Indexed.cancel_queue (h : a.Indexed) (hwf : a.WF) (id : UInt64) (s : Side) :
    (a.cancel id).queue s = (a.queue s).filter fun e => e.orderId ≠ id := by
  cases hlook : a.index.lookup id with
  | none =>
    simp only [PriorityBook.cancel, hlook]
    refine (List.filter_eq_self.mpr fun e he => decide_eq_true ?_).symm
    intro hid
    rw [← hid, h s e he] at hlook
    cases hlook
  | some t =>
    obtain ⟨s', f, hf, rfl, rfl⟩ := hwf.indexed id t hlook
    simp only [PriorityBook.cancel, hlook]
    refine List.filter_congr fun e he =>
      decide_eq_decide.mpr (not_congr ⟨fun hs => ?_, fun hi => ?_⟩)
    · rw [(hwf.slot_inj he hf hs).2]
    · rw [(h.id_inj hwf he hf hi).2]

end PriorityBook

end MarketMakerOps.Engine
