import MarketMakerOps.Exchange.Runs

/-!
After `2 ^ 64` accepted orders the engine id counter is back at its start, while
an order it numbered may still rest.

* `Stands`: the venue by its tables, its next engine id and its priority book;
* `Stands.accept`, `Stands.drop`: one call on it;
* `Parked.round`, `Parked.wrap`: orders that come and go move the counter on;
* `exists_wrapped`: an offer parked under id 1, and id 1 about to be issued again;
* `exists_reissued`: id 1 issued again, to another connection's bid.
-/

namespace MarketMakerOps.Exchange

open Decimal Engine Fallible

variable {cap softCap : Nat} {build : Build}

/-- What the next calls depend on. -/
structure Stands (s : Session cap) (softCap : Nat) (T : Tables) (id : UInt64)
    (a : PriorityBook cap) : Prop where
  soft : s.venue.softCap = softCap
  tables : s.venue.cleared.tables = T
  clock : s.venue.nextEngineId = id
  rep : s.venue.book.Rep a
  wf : a.WF

section Steps

variable {s : Session cap} {T T' : Tables} {id : UInt64} {a a' : PriorityBook cap} {conn : ConnId}
  {payload cid : Bytes} {side : OrderSide} {p q : UInt32} {ts : List Trade}

theorem Stands.cleared_eq (h : Stands s softCap T id a) :
    s.venue.cleared = ⟨softCap, id, T, s.venue.book⟩ := by
  rw [← h.soft, ← h.clock, ← h.tables]
  rfl

/-- The guards, read off the tables. -/
theorem Stands.accepts (h : Stands s softCap T id a) (conn : ConnId)
    (hnew : IsNewOrder payload cid side p q)
    (hq : q ≠ 0) (hfresh : T.record conn cid = none) (hroom : T.byEngineId.keys.length < softCap)
    (hself : T.wouldSelfCross conn side p = false) :
    Accepts s.venue.cleared conn payload cid side p q := by
  rw [h.cleared_eq]
  exact ⟨hnew, hq, hfresh, hroom, hself⟩

/-- An accepted order, its insertion worked out on the priority book. -/
theorem Stands.accept (h : Stands s softCap T id a) (T' : Tables)
    (hacc : Accepts s.venue.cleared conn payload cid side p q)
    (hadd : a.add build side p q id conn = .ok (ts, a'))
    (hT : ∀ b : OrderBook cap,
      (Venue.entered ⟨softCap, id, T, b⟩ conn cid side p q).afterTrades ts = T') :
    ∃ s', s.step build (.line conn payload) = .ok s' ∧
      s'.history = s.history ++ [(.line conn payload, T'.sent)] ∧
      Stands s' softCap { T' with sent := [] } (id + 1) a' := by
  obtain ⟨⟨T₁, b⟩, hb, hT₁, hrep⟩ := (addLimitOrder_sim build side Tables.onTrade p q id conn
    (Venue.entered ⟨softCap, id, T, s.venue.book⟩ conn cid side p q) h.rep
    (perm_finRange_iff.mp h.wf.slots).1).of_ok_right hadd
  have hT₁ : T₁ = T' := hT₁.trans (hT s.venue.book)
  subst hT₁
  refine ⟨⟨s.history ++ [(.line conn payload, T₁.sent)], ⟨softCap, id + 1, T₁, b⟩⟩,
    Session.step_eq_ok.mpr ⟨⟨softCap, id + 1, T₁, b⟩, ?_, rfl⟩, rfl, rfl, rfl, rfl, hrep,
    h.wf.add hadd⟩
  rw [hacc.handle, h.cleared_eq, Venue.submit]
  simp only [hb]
  rfl

theorem Stands.sent (h : Stands s softCap T id a) : T.sent = [] := by
  rw [← h.tables]
  rfl

/-- An accepted order that makes one trade: its ACK, and a FILL for each leg. -/
theorem Stands.accept_trade (h : Stands s softCap T id a) {t : Trade} {b o : LiveOrder}
    (hacc : Accepts s.venue.cleared conn payload cid side p q)
    (hadd : a.add build side p q id conn = .ok ([t], a'))
    (hfill : (Venue.entered ⟨softCap, id, T, s.venue.book⟩ conn cid side p q).Fillable t b o) :
    ∃ s', s.step build (.line conn payload) = .ok s' ∧
      s'.messages = s.messages ++ [(conn, .ack cid (exchangeId id)), b.fill t, o.fill t] := by
  obtain ⟨T', hT'⟩ : ∃ T', Venue.entered ⟨softCap, id, T, s.venue.book⟩ conn cid side p q = T' :=
    ⟨_, rfl⟩
  have hbook : ∀ b : OrderBook cap,
      (Venue.entered ⟨softCap, id, T, b⟩ conn cid side p q).afterTrades
      [t] = T'.afterTrades [t] := by
    intro b
    rw [← hT']
    simp only [Venue.entered]
  obtain ⟨s', hs', hH, -⟩ := h.accept (T'.afterTrades [t]) hacc hadd hbook
  refine ⟨s', hs', ?_⟩
  have hsent : (T'.afterTrades [t]).sent =
      [(conn, .ack cid (exchangeId id)), b.fill t, o.fill t] := by
    show (T'.onTrade t).sent = _
    rw [hT'] at hfill
    rw [Tables.onTrade_sent hfill, ← hT', entered_sent, h.sent]
    rfl
  rw [Session.messages_append hH, hsent]

/-- An accepted order the priority book cannot take. -/
theorem Stands.accept_error (h : Stands s softCap T id a)
    (hacc : Accepts s.venue.cleared conn payload cid side p q) {f : Fault}
    (hadd : a.add build side p q id conn = .error f) :
    s.step build (.line conn payload) = .error f := by
  have hsim := addLimitOrder_sim build side Tables.onTrade p q id conn
    (Venue.entered ⟨softCap, id, T, s.venue.book⟩ conn cid side p q) h.rep
    (perm_finRange_iff.mp h.wf.slots).1
  rw [Session.step, hacc.handle, h.cleared_eq, Venue.submit, hsim.of_error_right hadd]
  rfl

/-- A connection leaves with its only order. -/
theorem Stands.drop (h : Stands s softCap T id a) (build : Build) {eid : UInt64}
    (howned : ∀ b : OrderBook cap, Venue.owned ⟨softCap, id, T, b⟩ conn = [eid]) :
    ∃ s', s.step build (.drop conn) = .ok s' ∧
      s'.history = s.history ++ [(.drop conn, T.sent)] ∧
      Stands s' softCap { T with
        byEngineId := T.byEngineId.erase eid, byConn := T.byConn.erase conn, sent := [] } id
        (a.cancel eid) := by
  obtain ⟨b, hb, hrep⟩ := cancelOrder_sim build h.rep h.wf eid
  set v' : Venue cap := ⟨softCap, id, { T with
    byEngineId := T.byEngineId.erase eid, byConn := T.byConn.erase conn }, b⟩
  refine ⟨⟨s.history ++ [(.drop conn, T.sent)], v'⟩, Session.step_eq_ok.mpr ⟨v', ?_, rfl⟩, rfl, rfl,
    rfl, rfl, hrep, h.wf.cancel eid⟩
  simp only [h.cleared_eq, Venue.handle, Venue.dropConnection, howned, Venue.dropOwned, hb, ok_bind]
  rfl

end Steps

/-- Erasing what was just inserted. -/
theorem erase_insert_of_notMem {κ ν : Type*} [DecidableEq κ] {m : AList fun _ : κ => ν} {k : κ}
    (h : k ∉ m) (x : ν) : (m.insert k x).erase k = m := by
  apply AList.ext
  show List.kerase k (m.insert k x).entries = m.entries
  rw [AList.entries_insert_of_notMem h]
  exact List.kerase_cons_eq rfl

section Books

variable {a a' : PriorityBook cap}

theorem book_ext (hfree : a.free = a'.free) (hqueue : ∀ s, a.queue s = a'.queue s)
    (hindex : a.index = a'.index) (hseq : a.sequence = a'.sequence) : a = a' := by
  cases a
  cases a'
  have := funext hqueue
  simp_all

/-- An order that trades nothing rests whole. -/
theorem add_rests {side : Side} {p q : UInt32} {id pid : UInt64} (s : Fin cap)
    (free : List (Fin cap)) (hfree : a.free = s :: free)
    (hsweep : sweep side.opposite ⟨s, id, p, q, a.sequence, pid⟩ q (a.queue side.opposite) =
      ⟨[], q, a.queue side.opposite, []⟩)
    (hq : 0 < q) (hlevel : levelCheck build side p (a.queue side) = .ok ())
    (ha' : PriorityBook.rest { a with free := free, sequence := a.sequence + 1 } side
      ⟨s, id, p, q, a.sequence, pid⟩ = a') : a.add build side p q id pid = .ok ([], a') := by
  have hswept : a.swept free side.opposite ⟨[], q, a.queue side.opposite, []⟩ =
      { a with free := free, sequence := a.sequence + 1 } := by
    simp [PriorityBook.swept, PriorityBook.eraseIds]
  simp only [PriorityBook.add, hfree, hsweep, hq, if_true, hswept, hlevel, ok_bind, ha']
  rfl

end Books

/-- The line of an order at a price in cents. -/
theorem isNewOrder_line (cid ts : Text) (side : OrderSide) (cents : Int) (qty : Nat) (p q : UInt32)
    (hp : ticks? cents = some p) (hq : toUint32? qty = some q) :
    IsNewOrder (newOrderLine cid side cents qty ts) cid.bytes side p q := by
  have h := parseInbound_newOrder cid side cents qty ts
  exact ⟨by rw [h], by rw [h], by rw [h], by rw [h]; rfl, by rw [h], by rw [h]; exact hp,
    by rw [h]; exact hq⟩

/-! ## Rounds -/

/-- Connection 2 bids one at 50, and leaves. -/
def bidAndLeave : List Event := [.line 2 (newOrderLine idA .buy 50 1 idA), .drop 2]

def bidsAndLeaves (n : Nat) : List Event := (List.replicate n bidAndLeave).flatten

/-- Tables and book in which connection 2 can do so without a trace. -/
structure Idle (softCap : Nat) (T : Tables) (a : PriorityBook cap) : Prop where
  silent : T.sent = []
  room : T.byEngineId.keys.length < softCap
  absent : T.byConn.lookup 2 = none
  unowned : ∀ e ∈ T.byEngineId.entries, e.2.owner ≠ 2
  bids : a.queue .buy = []
  asks : ∀ e ∈ a.queue .sell, 50 < e.price
  free : a.free ≠ []

/-- An id that neither the table nor the index holds. -/
def Unused (T : Tables) (a : PriorityBook cap) (id : UInt64) : Prop :=
  id ∉ T.byEngineId ∧ id ∉ a.index

/-- The venue stands at `T` and `a`, whatever the sequence number, and nothing but acknowledgements
was said, to connections 1 and 2. -/
def Parked (s : Session cap) (softCap : Nat) (T : Tables) (a : PriorityBook cap) (id : UInt64) :
    Prop :=
  (∃ sequence, Stands s softCap T id { a with sequence := sequence }) ∧
  ∀ m ∈ s.messages, m.2.isAck = true ∧ (m.1 = 1 ∨ m.1 = 2)

section Rounds

variable {s : Session cap} {T : Tables} {id : UInt64} {a : PriorityBook cap}

/-- The tables while the bid rests. -/
def bidTables (T : Tables) (id : UInt64) : Tables :=
  { T with
    byEngineId := T.byEngineId.insert id ⟨2, idA.bytes, exchangeId id, .buy, 50, 1⟩
    byConn := T.byConn.insert 2 (AList.insert idA.bytes ⟨.resting, exchangeId id, id⟩ ∅)
    sent := [(2, .ack idA.bytes (exchangeId id))] }

theorem Idle.noCross (h : Idle softCap T a) : T.wouldSelfCross 2 .buy 50 = false := by
  refine List.any_eq_false.mpr fun e he => ?_
  simp [h.unowned e he]

theorem Idle.entered (h : Idle softCap T a) (b : OrderBook cap) :
    Venue.entered ⟨softCap, id, T, b⟩ 2 idA.bytes .buy 50 1 = bidTables T id := by
  simp only [Venue.entered, h.absent, Tables.send, h.silent]
  rfl

/-- The bid meets no offer. -/
theorem Idle.sweep_eq (h : Idle softCap T a) (inc : Resting cap) (hp : inc.price = 50) :
    sweep .sell inc 1 (a.queue .sell) = ⟨[], 1, a.queue .sell, []⟩ := by
  have hasks := h.asks
  cases hP : a.queue .sell with
  | nil => rfl
  | cons e P =>
    rw [hP] at hasks
    refine sweep_of_worse ?_
    have hlt := UInt32.lt_iff_toNat_lt.mp (hasks e List.mem_cons_self)
    have he := e.price.toNat_lt
    rw [hp]
    simp only [Side.rank]
    omega

/-- Resting an order and cancelling it moves the sequence number only. -/
theorem cancel_rest {s : Fin cap} {free : List (Fin cap)} (hwf : a.WF) (hfree : a.free = s :: free)
    (hbids : a.queue .buy = []) (hid : id ∉ a.index) (p q : UInt32) (pid : UInt64) :
    (PriorityBook.rest { a with free := free, sequence := a.sequence + 1 } .buy
      ⟨s, id, p, q, a.sequence, pid⟩).cancel id = { a with sequence := a.sequence + 1 } := by
  have hslot : ∀ e ∈ a.queue .sell, e.slot ≠ s := by
    intro e he heq
    have hnd := (perm_finRange_iff.mp hwf.slots).1
    rw [hfree, List.cons_append, List.nodup_cons] at hnd
    exact hnd.1 (List.mem_append_right _ (PriorityBook.mem_slots.mpr ⟨_, e, he, heq⟩))
  have hlook : (if id ∈ a.index then a.index else a.index.insert id s).lookup id = some s := by
    rw [if_neg hid, AList.lookup_insert]
  simp only [PriorityBook.rest, PriorityBook.cancel, hlook]
  refine book_ext hfree.symm (fun t => ?_) ?_ rfl
  · cases t with
    | buy => simp [hbids, Priority.insertLast]
    | sell =>
      show (a.queue .sell).filter _ = a.queue .sell
      exact List.filter_eq_self.mpr fun e he => by simpa using hslot e he
  · show (if id ∈ a.index then a.index else a.index.insert id s).erase id = a.index
    rw [if_neg hid]
    exact erase_insert_of_notMem hid s

/-- After the bid and its withdrawal only the clocks have moved. -/
theorem Parked.round (h : Parked s softCap T a id) (build : Build) (hidle : Idle softCap T a)
    (hid : Unused T a id) :
    ∃ s', run (Session.step build) s bidAndLeave = .ok s' ∧ Parked s' softCap T a (id + 1) := by
  obtain ⟨⟨sequence, h⟩, hconns⟩ := h
  set a₀ : PriorityBook cap := { a with sequence := sequence }
  obtain ⟨slot, free, hfree⟩ := List.exists_cons_of_ne_nil hidle.free
  have hacc := h.accepts 2
    (isNewOrder_line idA idA .buy 50 1 50 1 rfl rfl)
    (by decide) (by simp [Tables.record, hidle.absent]) hidle.room hidle.noCross
  have hadd : a₀.add build .buy 50 1 id 2 = .ok ([], PriorityBook.rest
      { a₀ with free := free, sequence := a₀.sequence + 1 } .buy
      ⟨slot, id, 50, 1, a₀.sequence, 2⟩) := by
    refine add_rests slot free hfree (hidle.sweep_eq _ rfl) (by decide) ?_ rfl
    show levelCheck build .buy 50 (a.queue .buy) = _
    rw [hidle.bids]
    cases build <;> rfl
  obtain ⟨s₁, hs₁, hH₁, h₁⟩ := h.accept (bidTables T id) hacc hadd fun b => hidle.entered b
  have howned : ∀ b : OrderBook cap,
      Venue.owned ⟨softCap, id + 1, { bidTables T id with sent := [] }, b⟩ 2 = [id] := by
    intro b
    have hnone : T.byEngineId.entries.filter (fun e => e.2.owner = 2) = [] := by
      refine List.filter_eq_nil_iff.mpr fun e he => ?_
      simpa using hidle.unowned e he
    simp only [Venue.owned, bidTables, AList.entries_insert_of_notMem hid.1]
    rw [List.filter_cons_of_pos (by simp), hnone]
    rfl
  obtain ⟨s₂, hs₂, hH₂, h₂⟩ := h₁.drop build howned
  have hcancel := cancel_rest h.wf hfree hidle.bids hid.2 50 1 2
  have hT : ({ bidTables T id with
      byEngineId := (bidTables T id).byEngineId.erase id
      byConn := (bidTables T id).byConn.erase 2
      sent := [] } : Tables) = T := by
    have h2 : (2 : ConnId) ∉ T.byConn := AList.lookup_eq_none.mp hidle.absent
    simp only [bidTables, erase_insert_of_notMem hid.1, erase_insert_of_notMem h2, ← hidle.silent]
  rw [hcancel] at h₂
  refine ⟨s₂, ?_, ⟨a₀.sequence + 1, hT ▸ h₂⟩, ?_⟩
  · rw [bidAndLeave, run_cons, hs₁, ok_bind, run_cons, hs₂]
    rfl
  · intro m hm
    rw [Session.messages, hH₂, hH₁, List.append_assoc, List.flatMap_append, List.mem_append] at hm
    rcases hm with hm | hm
    · exact hconns m hm
    · rw [List.mem_singleton.mp hm]
      exact ⟨rfl, Or.inr rfl⟩

theorem Parked.rounds (h : Parked s softCap T a id) (build : Build) (hidle : Idle softCap T a)
    (n : Nat)
    (hid : ∀ k < n, Unused T a (id + UInt64.ofNat k)) :
    ∃ s', run (Session.step build) s (bidsAndLeaves n) = .ok s' ∧
      Parked s' softCap T a (id + UInt64.ofNat n) := by
  induction n generalizing s id with
  | zero => exact ⟨s, rfl, by simpa using h⟩
  | succ n ih =>
    obtain ⟨s₁, hs₁, h₁⟩ := h.round build hidle (by simpa using hid 0 (Nat.succ_pos n))
    have hnext : ∀ k, id + 1 + UInt64.ofNat k = id + UInt64.ofNat (k + 1) := by
      intro k
      rw [UInt64.ofNat_add, UInt64.add_assoc, UInt64.add_comm 1]
      rfl
    obtain ⟨s₂, hs₂, h₂⟩ := ih h₁ fun k hk => hnext k ▸ hid (k + 1) (Nat.succ_lt_succ hk)
    refine ⟨s₂, ?_, hnext n ▸ h₂⟩
    rw [bidsAndLeaves, List.replicate_succ, List.flatten_cons, run_append, hs₁]
    exact hs₂

/-- The counter runs from `m + 1` up to its end, and on to 1 again, past the ids in use. -/
theorem Parked.wrap (build : Build) {m : Nat} (hm : 1 ≤ m) (hm64 : m + 1 < 2 ^ 64)
    (h : Parked s softCap T a (UInt64.ofNat (m + 1))) (hidle : Idle softCap T a)
    (hused : ∀ id, id.toNat = 0 ∨ m < id.toNat → Unused T a id) :
    ∃ events s', run (Session.step build) s events = .ok s' ∧ Parked s' softCap T a 1 := by
  obtain ⟨n, hn⟩ : ∃ n, m + 1 + n = 2 ^ 64 + 1 := ⟨2 ^ 64 - m, by omega⟩
  have hval : ∀ k ≤ n, (UInt64.ofNat (m + 1) + UInt64.ofNat k).toNat = (m + 1 + k) % 2 ^ 64 := by
    intro k hk
    have hk64 : k < 2 ^ 64 := by omega
    rw [UInt64.toNat_add, UInt64.toNat_ofNat_of_lt' hk64, UInt64.toNat_ofNat_of_lt' hm64]
  obtain ⟨s', hs', h'⟩ := h.rounds build hidle n fun k hk => by
    apply hused
    rw [hval k hk.le]
    omega
  have hlast : UInt64.ofNat (m + 1) + UInt64.ofNat n = 1 := by
    rw [← UInt64.toNat_inj, hval n le_rfl, show (1 : UInt64).toNat = 1 from rfl]
    omega
  exact ⟨bidsAndLeaves n, s', hs', hlast ▸ h'⟩

end Rounds

/-! ## The parked offer -/

theorem new_stands {v₀ : Venue cap} (h : Venue.new cap softCap = .ok v₀) :
    Stands (Session.start v₀) softCap ⟨false, 0, ∅, ∅, []⟩ 1 (PriorityBook.empty cap) := by
  obtain ⟨hsoft, hsync⟩ := Venue.new_eq_ok h
  refine ⟨hsoft, ?_, hsync.clock, hsync.rep, hsync.wf⟩
  obtain ⟨b, -, hv⟩ := bind_eq_ok.mp h
  cases hv
  rfl

/-- Connection 1 offers five at 100. -/
def parkOffer : Event := .line 1 (newOrderLine idA .sell 100 5 idA)

def parkedTables : Tables :=
  ⟨false, 0, AList.insert 1 ⟨1, idA.bytes, exchangeId 1, .sell, 100, 5⟩ ∅,
    AList.insert 1 (AList.insert idA.bytes ⟨.resting, exchangeId 1, 1⟩ ∅) ∅, []⟩

/-- A slot of a pool of four. -/
def slot (k : Nat) : Fin 4 := Fin.ofNat 4 k

def parkedBook (sequence : UInt64) : PriorityBook 4 where
  free := [slot 1, slot 2, slot 3]
  queue
    | .buy => []
    | .sell => [⟨slot 0, 1, 100, 5, 0, 1⟩]
  index := AList.insert 1 (slot 0) ∅
  sequence := sequence

theorem parked_first (build : Build) : ∃ s, session build 4 3 [parkOffer] = .ok s ∧
    Parked s 3 parkedTables (parkedBook 0) 2 := by
  obtain ⟨v₀, hv₀⟩ : ∃ v₀ : Venue 4, Venue.new 4 3 = .ok v₀ := ⟨_, rfl⟩
  have hstands := new_stands hv₀
  have hacc := hstands.accepts 1
    (isNewOrder_line idA idA .sell 100 5 100 5 rfl rfl)
    (by decide) rfl (by decide) rfl
  have hadd : (PriorityBook.empty 4).add build .sell 100 5 1 1 = .ok ([], parkedBook 1) := by
    refine add_rests 0 [1, 2, 3] rfl rfl (by decide) (by cases build <;> rfl) ?_
    exact book_ext rfl (fun s => by cases s <;> rfl) rfl rfl
  obtain ⟨s, hs, hH, hst⟩ := hstands.accept ({ parkedTables with
    sent := [(1, .ack idA.bytes (exchangeId 1))] }) hacc hadd fun _ => rfl
  refine ⟨s, ?_, ⟨1, hst⟩, ?_⟩
  · rw [session, hv₀, ok_bind, run_cons, parkOffer, hs]
    rfl
  · intro m hm
    rw [Session.messages, hH] at hm
    rw [List.mem_singleton.mp hm]
    exact ⟨rfl, Or.inl rfl⟩

theorem notMem_insert_empty {ν : Type*} {x : ν} {id : UInt64} (h : id ≠ 1) :
    id ∉ (AList.insert 1 x ∅ : AList fun _ : UInt64 => ν) := by
  rw [AList.mem_insert]
  rintro (h1 | h1)
  · exact h h1
  · exact AList.notMem_empty _ h1

/-- The offer of connection 1 rests under id 1, and 1 is the next id. -/
theorem exists_wrapped (build : Build) : ∃ events s, session build 4 3 events = .ok s ∧
    Parked s 3 parkedTables (parkedBook 0) 1 := by
  obtain ⟨s, hs, h⟩ := parked_first build
  have hidle : Idle 3 parkedTables (parkedBook 0) :=
    ⟨rfl, by decide, rfl, by decide, rfl, by decide, by decide⟩
  obtain ⟨events, s', hs', h'⟩ := Parked.wrap build (m := 1) le_rfl (by omega) h hidle
    fun id hid => by
      have hne : id ≠ 1 := by
        rintro rfl
        exact absurd hid (by decide)
      exact ⟨notMem_insert_empty hne, notMem_insert_empty hne⟩
  refine ⟨parkOffer :: events, s', ?_, h'⟩
  obtain ⟨v, hv, hrun⟩ := bind_eq_ok.mp hs
  rw [session, hv, ok_bind, ← List.singleton_append, run_append, hrun]
  exact hs'

/-! ## Id 1 issued again -/

/-- Connection 3 bids below the parked offer. -/
def bidBelow : Event := .line 3 (newOrderLine idA .buy 50 1 idA)

/-- The entry of connection 3 takes the place of the parked one. -/
def bidBelowTables : Tables :=
  { parkedTables with
    byEngineId := parkedTables.byEngineId.insert 1 ⟨3, idA.bytes, exchangeId 1, .buy, 50, 1⟩
    byConn := parkedTables.byConn.insert 3 (AList.insert idA.bytes ⟨.resting, exchangeId 1, 1⟩ ∅)
    sent := [(3, .ack idA.bytes (exchangeId 1))] }

def bidBelowBook (sequence : UInt64) : PriorityBook 4 where
  free := [slot 2, slot 3]
  queue
    | .buy => [⟨slot 1, 1, 50, 1, sequence, 3⟩]
    | .sell => [⟨slot 0, 1, 100, 5, 0, 1⟩]
  index := AList.insert 1 (slot 0) ∅
  sequence := sequence + 1

/-- The bid of connection 3 gets id 1 as well. -/
theorem exists_reissued (build : Build) : ∃ events, ∃ s s₁ : Session 4, ∃ sequence,
    session build 4 3 events = .ok s ∧
    (∀ m ∈ s.messages, m.2.isAck = true ∧ (m.1 = 1 ∨ m.1 = 2)) ∧
    s.step build bidBelow = .ok s₁ ∧
    s₁.history = s.history ++ [(bidBelow, bidBelowTables.sent)] ∧
    Stands s₁ 3 { bidBelowTables with sent := [] } 2 (bidBelowBook sequence) := by
  obtain ⟨events, s, hs, ⟨sequence, h⟩, hacks⟩ := exists_wrapped build
  have hacc := h.accepts 3
    (isNewOrder_line idA idA .buy 50 1 50 1 rfl rfl)
    (by decide) rfl (by decide) rfl
  have hadd : (parkedBook sequence).add build .buy 50 1 1 3 =
      .ok ([], bidBelowBook sequence) := by
    refine add_rests 1 [2, 3] rfl rfl (by decide) (by cases build <;> rfl) ?_
    exact book_ext rfl (fun s => by cases s <;> rfl) rfl rfl
  obtain ⟨s₁, hs₁, hH₁, h₁⟩ := h.accept bidBelowTables hacc hadd fun _ => rfl
  exact ⟨events, s, s₁, sequence, hs, hacks, hs₁, hH₁, h₁⟩

end MarketMakerOps.Exchange
