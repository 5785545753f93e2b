import MarketMakerOps.Engine.Runs

/-!
Buying and selling are mirror images: sides swap and a price `p` becomes
`2 ^ 32 - 1 - p`.

* `OrderBook.view`: one side's level vector with the queue of every level;
* `sweep_mirror`, `call_mirror`: the mirrored call does the mirrored work;
* `mirror_image`: a mirrored run of calls reports the mirrored trades and leaves
  the mirrored book.
-/

namespace MarketMakerOps.Engine

open LinkedQueue Priority Fallible

variable {cap : Nat}

def mirrorPrice (p : UInt32) : UInt32 := 0xFFFFFFFF - p

def Order.mirror (o : Order cap) : Order cap :=
  { o with price := mirrorPrice o.price, side := o.side.opposite }

def Trade.mirror (t : Trade) : Trade :=
  ⟨t.sellOrderId, t.buyOrderId, mirrorPrice t.price, t.quantity⟩

def Call.mirror : Call → Call
  | .add side price quantity id participantId =>
    .add side.opposite (mirrorPrice price) quantity id participantId
  | .cancel id => .cancel id

/-- What a stored level shows: its price, its counter and its queue, links aside. -/
structure LevelView (cap : Nat) where
  price : UInt32
  totalQuantity : UInt32
  orders : List (Order cap)

def LevelView.mirror (v : LevelView cap) : LevelView cap :=
  ⟨mirrorPrice v.price, v.totalQuantity, v.orders.map Order.mirror⟩

def PriceLevel.view (mem : Orders cap) (pl : PriceLevel cap) : LevelView cap :=
  ⟨pl.price, pl.totalQuantity,
    (walk mem.links.next cap pl.head).map fun o => (mem o).unlinked⟩

/-- The level vector of one side, worst price first, as stored. -/
def OrderBook.view (b : OrderBook cap) (s : Side) : List (LevelView cap) :=
  (b.levels s).map (PriceLevel.view b.pool.orders)

/-! ## Prices -/

theorem toNat_mirrorPrice (p : UInt32) : (mirrorPrice p).toNat = 2 ^ 32 - 1 - p.toNat := by
  have hp := p.toNat_lt
  have hle : p ≤ 0xFFFFFFFF := by
    rw [UInt32.le_iff_toNat_le]
    show p.toNat ≤ 4294967295
    omega
  rw [mirrorPrice, UInt32.toNat_sub_of_le _ _ hle]
  exact congrArg (· - p.toNat) (by decide)

@[simp] theorem rank_mirrorPrice (s : Side) (p : UInt32) :
    s.opposite.rank (mirrorPrice p) = s.rank p := by
  have hp := p.toNat_lt
  cases s with
  | buy =>
    simp only [Side.opposite, Side.rank, toNat_mirrorPrice]
    omega
  | sell => simp only [Side.opposite, Side.rank, toNat_mirrorPrice]

theorem mirrorPrice_inj {p q : UInt32} : mirrorPrice p = mirrorPrice q ↔ p = q := by
  have h := Side.rank_inj (s := Side.buy.opposite) (p := mirrorPrice p) (q := mirrorPrice q)
  rw [← h, rank_mirrorPrice, rank_mirrorPrice, Side.rank_inj]

/-! ## The priority book -/

namespace Resting

def mirror (e : Resting cap) : Resting cap := { e with price := mirrorPrice e.price }

section Fields

variable (e : Resting cap)

@[simp] theorem mirror_slot : e.mirror.slot = e.slot := by cases e; rfl

@[simp] theorem mirror_orderId : e.mirror.orderId = e.orderId := by cases e; rfl

@[simp] theorem mirror_price : e.mirror.price = mirrorPrice e.price := by cases e; rfl

@[simp] theorem mirror_quantity : e.mirror.quantity = e.quantity := by cases e; rfl

@[simp] theorem mirror_participantId : e.mirror.participantId = e.participantId := by cases e; rfl

theorem mirror_setQuantity (q : UInt32) :
    { e.mirror with quantity := q } = { e with quantity := q }.mirror := by cases e; rfl

theorem order_mirror (s : Side) : e.mirror.order s.opposite = (e.order s).mirror := by cases e; rfl

end Fields

@[simp] theorem rank_mirror (s : Side) (e : Resting cap) :
    e.mirror.rank s.opposite = e.rank s := by
  rw [rank, rank, mirror_price, rank_mirrorPrice]

end Resting

def SweepResult.mirror (r : SweepResult cap) : SweepResult cap :=
  ⟨r.trades.map Trade.mirror, r.left, r.queue.map Resting.mirror, r.filled.map Resting.mirror⟩

theorem tradeOf_mirror (opp : Side) (incoming resting : UInt64) (price quantity : UInt32) :
    tradeOf opp.opposite incoming resting (mirrorPrice price) quantity =
      (tradeOf opp incoming resting price quantity).mirror := by
  cases opp <;> rfl

/-- Matching against the mirrored queue. -/
theorem sweep_mirror (opp : Side) (inc : Resting cap) (q : UInt32) (P : List (Resting cap)) :
    sweep opp.opposite inc.mirror q (P.map Resting.mirror) = (sweep opp inc q P).mirror := by
  induction P generalizing q with
  | nil => rfl
  | cons e P ih =>
    rw [List.map_cons]
    simp only [sweep, Resting.mirror_setQuantity]
    simp only [Resting.mirror_price, rank_mirrorPrice, Resting.mirror_participantId,
      Resting.mirror_orderId, tradeOf_mirror, Resting.mirror_quantity]
    split
    · simp only [SweepResult.mirror, List.map_nil, List.map_cons]
    · split
      · simp only [SweepResult.mirror, List.map_nil, List.map_cons]
      · split
        · simp only [SweepResult.mirror, List.map_nil, List.map_cons]
        · simp only [ih, SweepResult.mirror, List.map_cons]

theorem levelCheck_mirror {build : Build} {side : Side} {price : UInt32} {P : List (Resting cap)}
    (h : levelCheck build side price P = .ok ()) :
    levelCheck build side.opposite (mirrorPrice price) (P.map Resting.mirror) = .ok () := by
  have hprices :
      (P.map Resting.mirror).map Resting.price = (P.map Resting.price).map mirrorPrice := by
    simp
  have hinj : Function.Injective mirrorPrice := fun _ _ => mirrorPrice_inj.mp
  have hcount : levelCount (P.map Resting.mirror) = levelCount P := by
    rw [levelCount, hprices, List.dedup_map_of_injective hinj, List.length_map]
    rfl
  have hmem : mirrorPrice price ∈ (P.map Resting.price).map mirrorPrice ↔
      price ∈ P.map Resting.price := List.mem_map_of_injective hinj
  simp only [levelCheck, hprices, hmem, hcount] at h ⊢
  split at h
  · next hp => rw [if_pos hp]; rfl
  · next hp =>
    rw [if_neg hp]
    -- the reserve's assertion is compiled in or out alike on both sides
    cases build with
    | debug =>
      simp only [assertThat] at h ⊢
      split at h
      · next hroom => rw [if_pos hroom]
      · cases h
    | ndebug => rfl
    | growing =>
      cases side <;> simp [assertThat, Side.opposite, Side.levelsExceeded, Fault.isLevels]

namespace PriorityBook

variable {a a' : PriorityBook cap} {build : Build} {side : Side}

def mirror (a : PriorityBook cap) : PriorityBook cap :=
  { a with queue := fun s => (a.queue s.opposite).map Resting.mirror }

theorem eraseIds_mirror (index : OrderIndex cap) (filled : List (Resting cap)) :
    eraseIds index (filled.map Resting.mirror) = eraseIds index filled := by
  simp only [eraseIds, List.foldl_map, Resting.mirror_orderId]

theorem update_mirror (queue : Side → List (Resting cap)) (s : Side) (P : List (Resting cap)) :
    Function.update (fun t : Side => (queue t.opposite).map Resting.mirror) s.opposite
        (P.map Resting.mirror) =
      fun t => (Function.update queue s P t.opposite).map Resting.mirror := by
  funext t
  rcases Side.eq_or_opposite t s with rfl | rfl
  · simp [t.ne_opposite, t.ne_opposite.symm]
  · simp

theorem swept_mirror (a : PriorityBook cap) (free : List (Fin cap)) (opp : Side)
    (r : SweepResult cap) :
    a.mirror.swept free opp.opposite r.mirror = (a.swept free opp r).mirror := by
  have hslots : (r.filled.map Resting.mirror).map Resting.slot = r.filled.map Resting.slot := by
    simp
  simp only [swept, mirror, SweepResult.mirror, hslots, eraseIds_mirror, update_mirror]

theorem rest_mirror (a : PriorityBook cap) (side : Side) (e : Resting cap) :
    a.mirror.rest side.opposite e.mirror = (a.rest side e).mirror := by
  have hins : insertLast (Resting.rank side.opposite) e.mirror ((a.queue side).map Resting.mirror) =
      (insertLast (Resting.rank side) e (a.queue side)).map Resting.mirror :=
    (insertLast_map (f := Resting.mirror) (k := Resting.rank side.opposite)
      (fun e => e.rank_mirror side) e (a.queue side)).symm
  simp only [rest, mirror, Side.opposite_opposite, hins, update_mirror, Resting.mirror_orderId,
    Resting.mirror_slot]

/-- A successful call, mirrored. -/
theorem add_mirror {price quantity : UInt32} {id participantId : UInt64} {ts : List Trade}
    (h : a.add build side price quantity id participantId = .ok (ts, a')) :
    a.mirror.add build side.opposite (mirrorPrice price) quantity id participantId =
      .ok (ts.map Trade.mirror, a'.mirror) := by
  cases hfree : a.free with
  | nil =>
    rw [add, hfree] at h
    cases h
  | cons s free =>
    have hsweep := sweep_mirror side.opposite
      (⟨s, id, price, quantity, a.sequence, participantId⟩ : Resting cap) quantity
      (a.queue side.opposite)
    have hmfree : a.mirror.free = s :: free := hfree
    have hmqueue : a.mirror.queue side.opposite.opposite =
        (a.queue side.opposite).map Resting.mirror := by
      simp [mirror]
    simp only [add, hfree] at h
    simp only [add, hmfree, hmqueue]
    have hinc : ∀ q,
        (⟨s, id, mirrorPrice price, q, a.mirror.sequence, participantId⟩ : Resting cap) =
      Resting.mirror ⟨s, id, price, q, a.sequence, participantId⟩ := fun _ => rfl
    rw [hinc, hsweep]
    generalize sweep side.opposite
      (⟨s, id, price, quantity, a.sequence, participantId⟩ : Resting cap) quantity
      (a.queue side.opposite) = r at h ⊢
    rw [swept_mirror]
    by_cases hleft : 0 < r.left
    · rw [if_pos hleft] at h
      rw [if_pos (show 0 < r.mirror.left from hleft)]
      obtain ⟨⟨⟩, hcheck, h⟩ := bind_eq_ok.mp h
      cases h
      have hqueue : (a.swept free side.opposite r).mirror.queue side.opposite =
          ((a.swept free side.opposite r).queue side).map Resting.mirror := by
        simp [mirror]
      rw [hqueue, levelCheck_mirror hcheck, ok_bind, ← rest_mirror]
      rfl
    · rw [if_neg hleft] at h
      rw [if_neg (show ¬ 0 < r.mirror.left from hleft)]
      cases h
      rfl

theorem cancel_mirror (a : PriorityBook cap) (id : UInt64) :
    a.mirror.cancel id = (a.cancel id).mirror := by
  have hindex : a.mirror.index = a.index := rfl
  unfold cancel
  rw [hindex]
  cases a.index.lookup id with
  | none => rfl
  | some s =>
    have hqueue : ∀ t, ((a.queue t).map Resting.mirror).filter (fun e => e.slot ≠ s) =
        ((a.queue t).filter fun e => e.slot ≠ s).map Resting.mirror := by
      intro t
      simp only [List.filter_map, Function.comp_def, Resting.mirror_slot]
    simp only [mirror, hqueue]

theorem call_mirror {c : Call} {ts ts' : List Trade} (h : call build (ts, a) c = .ok (ts', a')) :
    call build (ts.map Trade.mirror, a.mirror) c.mirror =
      .ok (ts'.map Trade.mirror, a'.mirror) := by
  cases c with
  | cancel id =>
    cases h
    simp only [call, Call.mirror, cancel_mirror]
  | add side price quantity id participantId =>
    obtain ⟨⟨us, b⟩, hadd, h⟩ := bind_eq_ok.mp h
    cases h
    simp only [call, Call.mirror, add_mirror hadd, ok_bind, List.map_append]
    rfl

theorem run_mirror {calls : List Call} {ts ts' : List Trade}
    (h : run (call build) (ts, a) calls = .ok (ts', a')) :
    run (call build) (ts.map Trade.mirror, a.mirror) (calls.map Call.mirror) =
      .ok (ts'.map Trade.mirror, a'.mirror) := by
  induction calls generalizing ts a with
  | nil => cases h; rfl
  | cons c calls ih =>
    obtain ⟨⟨us, b⟩, hcall, h⟩ := bind_eq_ok.mp h
    rw [List.map_cons, run_cons, call_mirror hcall]
    exact ih h

end PriorityBook

/-! ## The level vectors -/

section Views

variable {mem mem' : Orders cap} {s : Side} {L L' : List (PriceLevel cap)} {P : List (Resting cap)}

theorem LevelRep.view_eq {pl : PriceLevel cap} {q : List (Resting cap)} (h : LevelRep mem s pl q)
    (hnd : (q.map Resting.slot).Nodup) :
    pl.view mem = ⟨pl.price, (q.map Resting.quantity).sum, q.map fun e => e.order s⟩ := by
  rw [PriceLevel.view, h.walk_eq hnd, h.total, List.map_map]
  exact congrArg _ (List.map_congr_left fun e he => h.holds e he)

/-- Vectors of mirrored lists show mirrored levels. -/
theorem LevelsRep.view_mirror (h : LevelsRep mem s L P)
    (h' : LevelsRep mem' s.opposite L' (P.map Resting.mirror))
    (hnd : (P.map Resting.slot).Nodup) :
    L'.map (PriceLevel.view mem') = (L.map (PriceLevel.view mem)).map LevelView.mirror := by
  induction L generalizing L' P with
  | nil =>
    rw [show P = [] from h] at h'
    rw [h'.eq_nil_iff.mpr rfl]
    rfl
  | cons pl L ih =>
    cases L' with
    | nil =>
      have hP : P = [] := by simpa using h'.eq_nil_iff.mp rfl
      exact absurd (h.eq_nil_iff.mpr hP) (List.cons_ne_nil _ _)
    | cons pl' L' =>
      obtain ⟨hl, hL, hlast⟩ := h.cons_filter
      obtain ⟨hl', hL', hlast'⟩ := h'.cons_filter
      have hprice : pl'.price = mirrorPrice pl.price := by
        rw [List.getLast?_map, Option.map_map] at hlast'
        obtain ⟨e, he, hep⟩ := Option.map_eq_some_iff.mp hlast
        rw [he, Option.map_some, Function.comp_apply, Resting.mirror_price, hep] at hlast'
        exact (Option.some_inj.mp hlast').symm
      have hsame : ∀ e : Resting cap, e.mirror.price = mirrorPrice pl.price ↔ e.price = pl.price :=
        fun e => by rw [Resting.mirror_price, mirrorPrice_inj]
      have hq : (P.map Resting.mirror).filter (fun e => e.price = pl'.price) =
          (P.filter fun e => e.price = pl.price).map Resting.mirror := by
        simp only [List.filter_map, Function.comp_def, hprice, hsame]
      have hP' : (P.map Resting.mirror).filter (fun e => e.price ≠ pl'.price) =
          (P.filter fun e => e.price ≠ pl.price).map Resting.mirror := by
        simp only [List.filter_map, Function.comp_def, hprice, ne_eq, hsame]
      rw [hq] at hl'
      rw [hP'] at hL'
      have hslot : ∀ Q : List (Resting cap), (Q.map Resting.mirror).map Resting.slot =
          Q.map Resting.slot := fun Q => by simp
      have hndq := hnd.sublist ((List.filter_sublist (p := fun e => e.price = pl.price)).map _)
      have hndP := hnd.sublist ((List.filter_sublist (p := fun e => e.price ≠ pl.price)).map _)
      rw [List.map_cons, List.map_cons, List.map_cons, ih hL hL' hndP,
        hl'.view_eq (by rw [hslot]; exact hndq), hl.view_eq hndq, hprice]
      simp only [LevelView.mirror, List.map_map, Function.comp_def, Resting.mirror_quantity,
        Resting.order_mirror]

end Views

/-- After any calls, the mirrored calls have reported the mirrored trades and their book shows, on
each side, the mirrored levels of the other; within capacity the calls succeed. -/
theorem mirror_image {b₀ : OrderBook cap} (hnew : OrderBook.new cap = .ok b₀) (calls : List Call) :
    (∀ build ts b, run (OrderBook.call build) ([], b₀) calls = .ok (ts, b) →
      ∃ b', run (OrderBook.call build) ([], b₀) (calls.map Call.mirror) =
          .ok (ts.map Trade.mirror, b') ∧
        ∀ s, b'.view s.opposite = (b.view s).map LevelView.mirror) ∧
    (Allowed (OrderBook.call .ndebug) (fun x c => c.Fits x.2) ([], b₀) calls →
      ∃ x, run (OrderBook.call .ndebug) ([], b₀) calls = .ok x) := by
  have hagree := new_agree hnew
  constructor
  · intro build ts b hrun
    obtain ⟨⟨us, a⟩, ha, rfl, hrep, hwf⟩ := (run_sim build hagree calls).of_ok_left hrun
    have hempty : (PriorityBook.empty cap).mirror = PriorityBook.empty cap := rfl
    have hmirror := PriorityBook.run_mirror ha
    rw [hempty] at hmirror
    obtain ⟨⟨us', b'⟩, hb', rfl, hrep', hwf'⟩ :=
      (run_sim build hagree (calls.map Call.mirror)).of_ok_right hmirror
    refine ⟨b', hb', fun s => ?_⟩
    have hlevels := hrep'.levels s.opposite
    simp only [PriorityBook.mirror, Side.opposite_opposite] at hlevels
    exact (hrep.levels s).view_mirror hlevels (hwf.nodup s)
  · intro hok
    have h₀ : b₀.Sound := ⟨_, hagree.2⟩
    have hstep : ∀ (x : List Trade × OrderBook cap) (c : Call), x.2.Sound → c.Fits x.2 →
        ∃ x', OrderBook.call .ndebug x c = .ok x' ∧ x'.2.Sound := fun x c hs hfit => by
      obtain ⟨x', hx'⟩ := call_succeeds hs hfit
      exact ⟨x', hx', call_sound hs hx'⟩
    obtain ⟨x, hx, -⟩ := run_total hstep h₀ hok
    exact ⟨x, hx⟩

/-- A sweep through two asks that rests its remainder, then a cancel. -/
def twoLevelCalls : List Call :=
  [.add .sell 11 2 1 1, .add .sell 10 3 2 1, .add .buy 11 4 3 2, .add .buy 9 6 4 2, .cancel 1]

theorem mirror_image_two_levels : ∃ b₀, OrderBook.new 4 = .ok b₀ ∧
    (∀ build ts b, run (OrderBook.call build) ([], b₀) twoLevelCalls = .ok (ts, b) →
      ∃ b', run (OrderBook.call build) ([], b₀) (twoLevelCalls.map Call.mirror) =
          .ok (ts.map Trade.mirror, b') ∧
        ∀ s, b'.view s.opposite = (b.view s).map LevelView.mirror) ∧
    ∃ x, run (OrderBook.call .ndebug) ([], b₀) twoLevelCalls = .ok x :=
  ⟨_, rfl, (mirror_image rfl twoLevelCalls).1, (mirror_image rfl twoLevelCalls).2 (by decide)⟩

end MarketMakerOps.Engine
