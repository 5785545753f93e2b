import MarketMakerOps.Engine.Runs

/-!
The flat price-time-priority reference: one arrival-ordered list of resting
orders, and an incoming order that repeatedly takes the best crossing one.

* `RefBook.take`: what an incoming order does to the list;
* `Matches`: the two books hold the same orders on each side;
* `take_matches`: the sweep of the sorted list is the repeated search;
* `refines_reference`: every run with fresh ids and within capacity reports the
  reference's trades and holds its orders in its priority.
-/

namespace MarketMakerOps.Engine

open Priority Fallible

variable {cap : Nat}

structure RefOrder where
  id : UInt64
  side : Side
  price : UInt32
  remaining : UInt32
  participant : UInt64
  deriving DecidableEq, Repr

/-- The resting orders in order of arrival. -/
abbrev RefBook := List RefOrder

/-- An incoming order's limit reaches a resting price of the opposite side. -/
def crosses (side : Side) (limit price : UInt32) : Bool :=
  match side with
  | .buy => price ≤ limit
  | .sell => limit ≤ price

namespace RefBook

/-- The orders resting on one side, best price first, earliest arrival first. -/
def inPriority (A : RefBook) (s : Side) : List RefOrder :=
  byPriority (fun o => s.rank o.price) (A.filter fun o => o.side = s)

/-- The order an incoming one trades against next. -/
def bestCrossing (side : Side) (limit : UInt32) (A : RefBook) : Option RefOrder :=
  best (fun o => side.opposite.rank o.price)
    (A.filter fun o => o.side = side.opposite ∧ crosses side limit o.price)

/-- Remove an order. -/
def remove (id : UInt64) (A : RefBook) : RefBook := A.filter fun o => o.id ≠ id

/-- Lower an order's remaining quantity. -/
def reduce (id : UInt64) (n : UInt32) (A : RefBook) : RefBook :=
  A.map fun o => if o.id = id then { o with remaining := o.remaining - n } else o

/-- Trades, open quantity and book once the incoming order takes no more. -/
structure Taken where
  trades : List Trade
  left : UInt32
  book : RefBook

theorem mem_of_bestCrossing {side : Side} {limit : UInt32} {A : RefBook} {o : RefOrder}
    (h : A.bestCrossing side limit = some o) : o ∈ A := by
  rw [bestCrossing, best_eq_head?] at h
  exact (List.mem_filter.mp (mem_byPriority.mp (List.mem_of_head? h))).1

/-- The incoming order takes the best crossing order again and again. -/
def take (side : Side) (limit : UInt32) (id participant : UInt64) (q : UInt32) (A : RefBook) :
    Taken :=
  if q = 0 then ⟨[], 0, A⟩ else
  match h : A.bestCrossing side limit with
  | none => ⟨[], q, A⟩
  | some o =>
    -- cancelled without resting when the best order is the participant's own
    if o.participant = participant then ⟨[], 0, A⟩ else
    let n := min q o.remaining
    let t := tradeOf side.opposite id o.id o.price n
    if n < o.remaining then ⟨[t], q - n, A.reduce o.id n⟩
    else
      have : (A.remove o.id).length < A.length :=
        List.length_filter_lt_length_iff_exists.mpr ⟨o, mem_of_bestCrossing h, by simp⟩
      let r := take side limit id participant (q - n) (A.remove o.id)
      ⟨t :: r.trades, r.left, r.book⟩
termination_by A.length

/-- One call on the reference. -/
def call (s : List Trade × RefBook) : Call → List Trade × RefBook
  | .add side price quantity id participant =>
    let r := take side price id participant quantity s.2
    (s.1 ++ r.trades,
      if 0 < r.left then r.book ++ [⟨id, side, price, r.left, participant⟩] else r.book)
  | .cancel id => (s.1, remove id s.2)

section Take

variable {side : Side} {limit : UInt32} {id participant : UInt64} {q : UInt32} {A : RefBook}
  {o : RefOrder}

theorem take_zero : take side limit id participant 0 A = ⟨[], 0, A⟩ := by
  rw [take, if_pos rfl]

theorem take_none (h : A.bestCrossing side limit = none) :
    take side limit id participant q A = ⟨[], q, A⟩ := by
  rw [take]
  by_cases hq : q = 0
  · rw [if_pos hq, hq]
  · rw [if_neg hq]
    split
    · rfl
    · simp_all

/-- One round against the best crossing order. -/
theorem take_some (hq : q ≠ 0) (h : A.bestCrossing side limit = some o) :
    take side limit id participant q A =
      if o.participant = participant then ⟨[], 0, A⟩
      else if q < o.remaining then
        ⟨[tradeOf side.opposite id o.id o.price q], 0, A.reduce o.id q⟩
      else
        let r := take side limit id participant (q - o.remaining) (A.remove o.id)
        ⟨tradeOf side.opposite id o.id o.price o.remaining :: r.trades, r.left, r.book⟩ := by
  rw [take, if_neg hq]
  split
  · simp_all
  · rename_i o' h'
    obtain rfl : o' = o := Option.some_inj.mp (h'.symm.trans h)
    by_cases hp : o'.participant = participant
    · rw [if_pos hp, if_pos hp]
    · rw [if_neg hp, if_neg hp]
      by_cases hlt : q < o'.remaining
      · have hmin : min q o'.remaining = q := if_pos (UInt32.le_of_lt hlt)
        simp only [hmin, hlt, if_true, UInt32.sub_self]
      · have hmin : min q o'.remaining = o'.remaining := by
          show (if q ≤ o'.remaining then q else o'.remaining) = _
          split
          · exact UInt32.le_antisymm ‹_› (UInt32.not_lt.mp hlt)
          · rfl
        simp only [hmin, hlt, UInt32.lt_irrefl, if_false]

end Take

theorem inPriority_remove (A : RefBook) (id : UInt64) (s : Side) :
    (A.remove id).inPriority s = (A.inPriority s).filter fun o => o.id ≠ id := by
  rw [inPriority, inPriority, ← byPriority_filter, remove, List.filter_filter, List.filter_filter]
  simp only [Bool.and_comm]

theorem inPriority_reduce (A : RefBook) (id : UInt64) (n : UInt32) (s : Side) :
    (A.reduce id n).inPriority s = (A.inPriority s).map fun o =>
      if o.id = id then { o with remaining := o.remaining - n } else o := by
  set f : RefOrder → RefOrder := fun o =>
    if o.id = id then { o with remaining := o.remaining - n } else o with hf
  have hprice : ∀ o, (f o).price = o.price := fun o => by simp only [hf]; split <;> rfl
  have hside : ∀ o, (f o).side = o.side := fun o => by simp only [hf]; split <;> rfl
  rw [inPriority, inPriority, reduce, ← hf, List.filter_map]
  simp only [Function.comp_def, hside]
  exact byPriority_map (fun o => by rw [hprice]) _

theorem inPriority_concat (A : RefBook) (o : RefOrder) (s : Side) :
    inPriority (A ++ [o]) s = if o.side = s then
      insertLast (fun o => s.rank o.price) o (A.inPriority s) else A.inPriority s := by
  by_cases h : o.side = s
  · rw [if_pos h, inPriority, List.filter_append, List.filter_cons_of_pos (by simpa using h),
      List.filter_nil, byPriority_concat, inPriority]
  · rw [if_neg h, inPriority, List.filter_append, List.filter_cons_of_neg (by simpa using h),
      List.filter_nil, List.append_nil, inPriority]

theorem mem_inPriority {A : RefBook} {o : RefOrder} {s : Side} :
    o ∈ A.inPriority s ↔ o ∈ A ∧ o.side = s := by
  simp [inPriority]

theorem crosses_iff (side : Side) (limit price : UInt32) : crosses side limit price = true ↔
    ¬ side.opposite.rank price < side.opposite.rank limit := by
  have hp := price.toNat_lt
  have hl := limit.toNat_lt
  cases side <;>
    simp only [crosses, Side.opposite, Side.rank, decide_eq_true_eq, UInt32.le_iff_toNat_le] <;>
    omega

/-- The search looks at the opposite side in priority order. -/
theorem bestCrossing_eq (side : Side) (limit : UInt32) (A : RefBook) :
    A.bestCrossing side limit =
      ((A.inPriority side.opposite).filter fun o => crosses side limit o.price).head? := by
  rw [bestCrossing, best_eq_head?, inPriority, ← byPriority_filter, List.filter_filter]
  simp only [Bool.decide_and, Bool.decide_eq_true, Bool.and_comm]

end RefBook

/-- An entry as an order of the reference. -/
def Resting.toRef (s : Side) (e : Resting cap) : RefOrder :=
  ⟨e.orderId, s, e.price, e.quantity, e.participantId⟩

/-- Both books hold the same orders, in the same priority. -/
structure Matches (A : RefBook) (a : PriorityBook cap) : Prop where
  queue : ∀ s, (a.queue s).map (Resting.toRef s) = A.inPriority s
  nodup : (A.map RefOrder.id).Nodup

section Matching

variable {A : RefBook} {side : Side} {inc e : Resting cap} {P : List (Resting cap)} {q : UInt32}

theorem bestCrossing_nil (h : ([] : List (Resting cap)).map (Resting.toRef side.opposite) =
    A.inPriority side.opposite) (limit : UInt32) : A.bestCrossing side limit = none := by
  rw [RefBook.bestCrossing_eq, ← h]
  rfl

theorem bestCrossing_worse (h : (e :: P).map (Resting.toRef side.opposite) =
    A.inPriority side.opposite) (hs : Sorted (Resting.rank side.opposite) (e :: P))
    (hlt : side.opposite.rank e.price < side.opposite.rank inc.price) :
    A.bestCrossing side inc.price = none := by
  rw [RefBook.bestCrossing_eq, ← h, List.head?_eq_none_iff, List.filter_eq_nil_iff]
  intro o ho
  obtain ⟨x, hx, rfl⟩ := List.mem_map.mp ho
  rw [RefBook.crosses_iff, not_not]
  rcases List.mem_cons.mp hx with rfl | hx
  · exact hlt
  · exact lt_of_le_of_lt ((List.pairwise_cons.mp hs).1 x hx) hlt

theorem bestCrossing_head (h : (e :: P).map (Resting.toRef side.opposite) =
    A.inPriority side.opposite)
    (hlt : ¬ side.opposite.rank e.price < side.opposite.rank inc.price) :
    A.bestCrossing side inc.price = some (e.toRef side.opposite) := by
  have hc : crosses side inc.price (e.toRef side.opposite).price = true :=
    (RefBook.crosses_iff _ _ _).mpr hlt
  simp [RefBook.bestCrossing_eq, ← h, hc]

/-- The other side has no order with this id. -/
theorem inPriority_ids_own (hnd : (A.map RefOrder.id).Nodup) {o : RefOrder}
    (ho : o ∈ A.inPriority side.opposite) : ∀ x ∈ A.inPriority side, x.id ≠ o.id := by
  intro x hx hid
  obtain ⟨hxA, hxs⟩ := RefBook.mem_inPriority.mp hx
  obtain ⟨hoA, hos⟩ := RefBook.mem_inPriority.mp ho
  have := List.inj_on_of_nodup_map hnd hxA hoA hid
  exact side.ne_opposite (hxs.symm.trans (this ▸ hos))

theorem inPriority_ids_nodup (hnd : (A.map RefOrder.id).Nodup) (s : Side) :
    ((A.inPriority s).map RefOrder.id).Nodup := by
  have hp : (A.inPriority s).Perm (A.filter fun o => o.side = s) := perm_byPriority _
  exact (hp.map RefOrder.id).nodup_iff.mpr (hnd.sublist (List.filter_sublist.map _))

/-- The repeated search is the sweep of the sorted list. -/
theorem take_matches (inc : Resting cap) (q : UInt32)
    (hP : P.map (Resting.toRef side.opposite) = A.inPriority side.opposite)
    (hs : Sorted (Resting.rank side.opposite) P) (hnd : (A.map RefOrder.id).Nodup) :
    (RefBook.take side inc.price inc.orderId inc.participantId q A).trades =
        (sweep side.opposite inc q P).trades ∧
      (RefBook.take side inc.price inc.orderId inc.participantId q A).left =
        (sweep side.opposite inc q P).left ∧
      (sweep side.opposite inc q P).queue.map (Resting.toRef side.opposite) =
        (RefBook.take side inc.price inc.orderId inc.participantId q A).book.inPriority
          side.opposite ∧
      (RefBook.take side inc.price inc.orderId inc.participantId q A).book.inPriority side =
        A.inPriority side ∧
      ((RefBook.take side inc.price inc.orderId inc.participantId q A).book.map
        RefOrder.id).Sublist (A.map RefOrder.id) := by
  induction P generalizing A q with
  | nil =>
    rw [RefBook.take_none (bestCrossing_nil hP inc.price)]
    exact ⟨rfl, rfl, hP, rfl, List.Sublist.refl _⟩
  | cons e P ih =>
    by_cases hq : q = 0
    · subst hq
      rw [RefBook.take_zero]
      simp only [sweep, true_or, if_true]
      exact ⟨trivial, trivial, hP, trivial, List.Sublist.refl _⟩
    by_cases hlt : side.opposite.rank e.price < side.opposite.rank inc.price
    · rw [RefBook.take_none (bestCrossing_worse hP hs hlt), sweep_of_worse hlt]
      exact ⟨rfl, rfl, hP, rfl, List.Sublist.refl _⟩
    have hhead := bestCrossing_head hP hlt
    have hmem : e.toRef side.opposite ∈ A.inPriority side.opposite := by
      rw [← hP]; exact List.mem_cons_self
    have hown : ∀ x ∈ A.inPriority side, x.id ≠ e.orderId := inPriority_ids_own hnd hmem
    have hopp : ∀ x ∈ P.map (Resting.toRef side.opposite), x.id ≠ e.orderId := by
      have hnd' := inPriority_ids_nodup hnd side.opposite
      rw [← hP, List.map_cons, List.map_cons] at hnd'
      intro x hx hid
      exact (List.nodup_cons.mp hnd').1 (List.mem_map.mpr ⟨x, hx, hid⟩)
    rw [RefBook.take_some hq hhead]
    by_cases hself : e.participantId = inc.participantId
    · simp only [sweep, hq, hlt, hself, or_self, if_true, if_false, Resting.toRef]
      exact ⟨trivial, trivial, hP, trivial, List.Sublist.refl _⟩
    by_cases hqe : q < e.quantity
    · simp only [sweep, hq, hlt, hself, hqe, or_self, if_true, if_false, Resting.toRef]
      refine ⟨trivial, trivial, ?_, ?_, ?_⟩
      · rw [RefBook.inPriority_reduce, ← hP, List.map_cons, List.map_cons]
        refine congrArg₂ _ (by simp [Resting.toRef]) ?_
        conv_lhs => rw [← List.map_id (P.map _)]
        exact List.map_congr_left fun x hx => (if_neg (hopp x hx)).symm
      · rw [RefBook.inPriority_reduce]
        conv_rhs => rw [← List.map_id (A.inPriority side)]
        exact List.map_congr_left fun x hx => if_neg (hown x hx)
      · rw [RefBook.reduce, List.map_map]
        have : (RefOrder.id ∘ fun o => if o.id = e.orderId then
            { o with remaining := o.remaining - q } else o) = RefOrder.id := by
          funext o
          simp only [Function.comp]
          split <;> rfl
        rw [this]
    · have hP' : P.map (Resting.toRef side.opposite) =
          (A.remove e.orderId).inPriority side.opposite := by
        rw [RefBook.inPriority_remove, ← hP, List.map_cons,
          List.filter_cons_of_neg (by simp [Resting.toRef])]
        exact (List.filter_eq_self.mpr fun x hx => by simpa using hopp x hx).symm
      have hsub : ((A.remove e.orderId).map RefOrder.id).Sublist (A.map RefOrder.id) :=
        List.filter_sublist.map _
      obtain ⟨h₁, h₂, h₃, h₄, h₅⟩ := ih (q - e.quantity) hP'
        (List.pairwise_cons.mp hs).2 (hnd.sublist hsub)
      simp only [sweep, hq, hlt, hself, hqe, or_self, if_false, Resting.toRef]
      refine ⟨by rw [h₁], h₂, h₃, h₄.trans ?_, h₅.trans hsub⟩
      rw [RefBook.inPriority_remove]
      exact List.filter_eq_self.mpr fun x hx => by simpa using hown x hx

theorem insertLast_toRef (side : Side) (e : Resting cap) (P : List (Resting cap)) :
    (insertLast (Resting.rank side) e P).map (Resting.toRef side) =
      insertLast (fun o => side.rank o.price) (e.toRef side) (P.map (Resting.toRef side)) :=
  insertLast_map (f := Resting.toRef side) (k := fun o => side.rank o.price) (fun _ => rfl) e P

/-- An id rests in one book if it rests in the other. -/
theorem Matches.mem_ids {a : PriorityBook cap} (h : Matches A a) (id : UInt64) :
    id ∈ A.map RefOrder.id ↔ ∃ s, ∃ e ∈ a.queue s, e.orderId = id := by
  constructor
  · intro hid
    obtain ⟨o, ho, rfl⟩ := List.mem_map.mp hid
    have : o ∈ (a.queue o.side).map (Resting.toRef o.side) := by
      rw [h.queue]
      exact RefBook.mem_inPriority.mpr ⟨ho, rfl⟩
    obtain ⟨e, he, heo⟩ := List.mem_map.mp this
    exact ⟨o.side, e, he, congrArg RefOrder.id heo⟩
  · rintro ⟨s, e, he, rfl⟩
    have := List.mem_map_of_mem (f := Resting.toRef s) he
    rw [h.queue] at this
    exact List.mem_map.mpr ⟨_, (RefBook.mem_inPriority.mp this).1, rfl⟩

/-- Adding keeps the books matched and reports the reference's trades. -/
theorem Matches.add {a a' : PriorityBook cap} (h : Matches A a) (us : List Trade) (hwf : a.WF)
    {build : Build}
    {price quantity : UInt32} {id participantId : UInt64} {ts : List Trade}
    (hfresh : ∀ s, ∀ e ∈ a.queue s, e.orderId ≠ id)
    (hadd : a.add build side price quantity id participantId = .ok (ts, a')) :
    (RefBook.call (us, A) (.add side price quantity id participantId)).1 = us ++ ts ∧
      Matches (RefBook.call (us, A) (.add side price quantity id participantId)).2 a' := by
  obtain ⟨s, free, r, hfree, hr, rfl, ha'⟩ := PriorityBook.add_cases hadd
  set inc : Resting cap := ⟨s, id, price, quantity, a.sequence, participantId⟩
  obtain ⟨h₁, h₂, h₃, h₄, h₅⟩ := take_matches inc quantity (h.queue side.opposite) (hwf.sorted _)
    h.nodup
  rw [hr] at h₁ h₂ h₃
  set t := RefBook.take side price id participantId quantity A
  have hne := side.ne_opposite
  have hbook : Matches t.book (a.swept free side.opposite r) := by
    refine ⟨forall_side side ?_ ?_, h.nodup.sublist h₅⟩
    · simp only [PriorityBook.swept, Function.update_of_ne hne]
      exact (h.queue side).trans h₄.symm
    · simp only [PriorityBook.swept, Function.update_self]
      exact h₃
  simp only [RefBook.call]
  rcases ha' with ⟨hleft, rfl⟩ | ⟨hleft, rfl⟩
  · rw [if_pos (h₂ ▸ hleft)]
    refine ⟨by rw [h₁], forall_side side ?_ ?_, ?_⟩
    · rw [RefBook.inPriority_concat, if_pos rfl, ← hbook.queue]
      simp only [PriorityBook.rest, Function.update_self]
      rw [← h₂]
      exact insertLast_toRef side _ _
    · rw [RefBook.inPriority_concat, if_neg hne, ← hbook.queue]
      simp only [PriorityBook.rest, Function.update_of_ne hne.symm]
    · rw [List.map_append, List.map_singleton]
      refine List.nodup_append.mpr ⟨hbook.nodup, List.nodup_singleton _, ?_⟩
      intro x hx y hy hxy
      rw [List.mem_singleton.mp hy] at hxy
      obtain ⟨s', e, he, hid⟩ := (h.mem_ids x).mp (h₅.subset hx)
      exact hfresh s' e he (hid.trans hxy)
  · have h0 : ¬ 0 < t.left := by
      rw [h₂, hleft]
      exact UInt32.lt_irrefl 0
    rw [if_neg h0]
    exact ⟨by rw [h₁], hbook.queue, hbook.nodup⟩

/-- Cancelling keeps the books matched. -/
theorem Matches.cancel {a : PriorityBook cap} (h : Matches A a) (hwf : a.WF) (hix : a.Indexed)
    (id : UInt64) : Matches (A.remove id) (a.cancel id) := by
  refine ⟨fun s => ?_, h.nodup.sublist (List.filter_sublist.map _)⟩
  rw [RefBook.inPriority_remove, ← h.queue, List.filter_map, hix.cancel_queue hwf]
  rfl

end Matching

/-! ## Runs -/

/-- An order of the book as an order of the reference. -/
def Order.toRef (o : Order cap) : RefOrder :=
  ⟨o.orderId, o.side, o.price, o.quantity, o.participantId⟩

/-- The recorded trades agree and both books hold the same orders. -/
def Refines (x : List Trade × OrderBook cap) (z : List Trade × RefBook) : Prop :=
  x.1 = z.1 ∧ ∃ a : PriorityBook cap, x.2.Rep a ∧ a.WF ∧ a.Indexed ∧ Matches z.2 a

section Runs

variable {x x' : List Trade × OrderBook cap} {z : List Trade × RefBook}

theorem Refines.resting (h : Refines x z) (s : Side) :
    (x.2.resting s).map Order.toRef = z.2.inPriority s := by
  obtain ⟨-, a, hrep, hwf, -, hm⟩ := h
  rw [hrep.map_resting Order.toRef (fun _ => rfl) hwf, ← hm.queue]
  rfl

theorem Refines.call {build : Build} {c : Call} (h : Refines x z) (hfresh : c.Fresh x.2)
    (hc : OrderBook.call build x c = .ok x') : Refines x' (RefBook.call z c) := by
  obtain ⟨hts, a, hrep, hwf, hix, hm⟩ := h
  obtain ⟨y', hy', hts', hrep', hwf'⟩ :=
    (call_sim (y := (x.1, a)) build ⟨rfl, hrep, hwf⟩ c).of_ok_left hc
  cases c with
  | cancel id =>
    cases hy'
    exact ⟨hts'.trans hts, a.cancel id, hrep', hwf', hix.cancel hwf id, hm.cancel hwf hix id⟩
  | add side price quantity id participantId =>
    obtain ⟨⟨ts, a'⟩, hadd, hy'⟩ := bind_eq_ok.mp hy'
    cases hy'
    have hnew : ∀ s, ∀ e ∈ a.queue s, e.orderId ≠ id := fun s e he hid =>
      hfresh ((hrep.hasResting hwf id).mpr ⟨s, e, he, hid⟩)
    obtain ⟨htrades, hm'⟩ := hm.add z.1 hwf hnew hadd
    exact ⟨hts'.trans (hts ▸ htrades.symm), a', hrep', hwf', hix.add hwf hnew hadd, hm'⟩

theorem Refines.run {calls : List Call} (h : Refines x z)
    (hok : Allowed (OrderBook.call .ndebug) (fun x c => c.Fits x.2 ∧ c.Fresh x.2) x calls) :
    ∃ x', run (OrderBook.call .ndebug) x calls = .ok x' ∧
      Refines x' (calls.foldl RefBook.call z) := by
  induction calls generalizing x z with
  | nil => exact ⟨x, rfl, h⟩
  | cons c calls ih =>
    obtain ⟨⟨hfit, hfresh⟩, hrest⟩ := hok
    have hsound : x.2.Sound := h.2.imp fun _ ha => ⟨ha.1, ha.2.1⟩
    obtain ⟨x₁, hx₁⟩ := call_succeeds hsound hfit
    obtain ⟨x', hx', hfin⟩ := ih (h.call hfresh hx₁) (hrest x₁ hx₁)
    exact ⟨x', by rw [run_cons, hx₁]; exact hx', hfin⟩

theorem Refines.new {b₀ : OrderBook cap} (h : OrderBook.new cap = .ok b₀) :
    Refines (([], b₀) : List Trade × OrderBook cap) ([], []) := by
  obtain ⟨-, hrep, hwf⟩ := new_agree h
  exact ⟨rfl, _, hrep, hwf, by simp [PriorityBook.Indexed, PriorityBook.empty], fun _ => rfl,
    List.nodup_nil⟩

end Runs

/-- After any calls with fresh ids and within capacity, the trades reported and the resting orders
of each side in priority order are those of the reference. -/
theorem refines_reference {b₀ : OrderBook cap} (hnew : OrderBook.new cap = .ok b₀)
    {calls : List Call}
    (hok : Allowed (OrderBook.call .ndebug) (fun x c => c.Fits x.2 ∧ c.Fresh x.2) ([], b₀) calls) :
    ∃ ts b, run (OrderBook.call .ndebug) ([], b₀) calls = .ok (ts, b) ∧
      ts = (calls.foldl RefBook.call ([], [])).1 ∧
      ∀ s, (b.resting s).map Order.toRef = (calls.foldl RefBook.call ([], [])).2.inPriority s := by
  obtain ⟨x, hx, href⟩ := (Refines.new hnew).run hok
  exact ⟨x.1, x.2, hx, href.1, href.resting⟩

/-- A buyer sweeps two levels, the better one in order of arrival. -/
def sweepCalls : List Call :=
  [.add .sell 10 2 1 1, .add .sell 9 3 2 1, .add .sell 9 1 3 3, .add .buy 10 5 4 2, .cancel 1]

theorem refines_reference_sweep : ∃ b₀, OrderBook.new 4 = .ok b₀ ∧ ∃ ts b,
    run (OrderBook.call .ndebug) ([], b₀) sweepCalls = .ok (ts, b) ∧
    ts = (sweepCalls.foldl RefBook.call ([], [])).1 ∧
    ∀ s, (b.resting s).map Order.toRef =
      (sweepCalls.foldl RefBook.call ([], [])).2.inPriority s :=
  ⟨_, rfl, refines_reference rfl (by decide)⟩

end MarketMakerOps.Engine
