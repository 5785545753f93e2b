import MarketMakerOps.Exchange.Wrap

/-!
How full the venue can get.

* `session_size`: the table of live orders never exceeds the soft cap;
* `Synced.handle_error`: the only assertion a call can fail is that of the level
  reserve, with `kDefaultMaxPriceLevels` orders on one side;
* `pool_never_exhausted`: the order pool is safe, as long as no engine id comes
  round again;
* `pool_exhausted_after_wrap`: afterwards it is not.
-/

namespace MarketMakerOps.Exchange

open Decimal Engine Fallible

variable {cap softCap : Nat} {build : Build}

/-! ## The table of live orders -/

theorem keys_length_le {κ ν : Type*} [DecidableEq κ] {l : List κ} {m : AList fun _ : κ => ν}
    (h : ∀ k ∈ m, k ∈ l) : m.keys.length ≤ l.length :=
  (List.subperm_of_subset m.keys_nodup fun k hk => h k (AList.mem_keys.mpr hk)).length_le

namespace Tables

theorem mem_of_routeFill {T : Tables} {id id' : UInt64} {p q : UInt32}
    (h : id' ∈ (T.routeFill id p q).byEngineId) : id' ∈ T.byEngineId := by
  cases hl : T.live id with
  | none => rwa [routeFill_of_none hl] at h
  | some lo =>
    obtain ⟨lo', hlo'⟩ := Option.isSome_iff_exists.mp (AList.lookup_isSome.mpr h)
    have hlive := (routeFill_spec (p := p) (q := q) hl).1 id'
    rw [Tables.live, hlo'] at hlive
    by_cases hid : id' = id
    · rw [hid]
      exact AList.lookup_isSome.mp (Option.isSome_iff_exists.mpr ⟨lo, hl⟩)
    · rw [if_neg hid] at hlive
      exact AList.lookup_isSome.mp (Option.isSome_iff_exists.mpr ⟨lo', hlive.symm⟩)

/-- The callback enters nothing. -/
theorem mem_of_afterTrades {T : Tables} {ts : List Trade} {id : UInt64}
    (h : id ∈ (T.afterTrades ts).byEngineId) : id ∈ T.byEngineId := by
  induction ts generalizing T with
  | nil => exact h
  | cons t ts ih =>
    have hone := ih (T := T.onTrade t) h
    unfold onTrade at hone
    exact mem_of_routeFill (T := { T with lastTradeTicks := t.price, hasLastTrade := true })
      (mem_of_routeFill hone)

end Tables

section Size

variable {v v' : Venue cap} {ev : Event}

/-- Whatever the tables say, a call keeps the book sound and the table within the soft cap. -/
theorem handle_size (hsound : v.book.Sound) (hsize : v.tables.byEngineId.keys.length ≤ v.softCap)
    (hv : v.handle build ev = .ok v') :
    v'.book.Sound ∧ v'.tables.byEngineId.keys.length ≤ v'.softCap := by
  rw [handle_softCap hv]
  obtain ⟨a, hrep, hwf⟩ := hsound
  cases handled_ok hv with
  | quiet result msgs book _ _ live =>
    cases result
    rw [book, live]
    exact ⟨⟨a, hrep, hwf⟩, hsize⟩
  | @accept conn payload cid side p q _ accepts result =>
    obtain ⟨ts, a', hadd, hrep', hT, -⟩ := submit_spec hrep hwf result.symm
    refine ⟨⟨a', hrep', hwf.add hadd⟩, ?_⟩
    have hroom := accepts.room
    have hle : v'.tables.byEngineId.keys.length ≤
        (v.nextEngineId :: v.tables.byEngineId.keys).length := by
      refine keys_length_le fun id hid => ?_
      rw [hT] at hid
      have hid : id ∈ v.tables.byEngineId.insert v.nextEngineId _ := Tables.mem_of_afterTrades hid
      rcases (AList.mem_insert _).mp hid with rfl | hid
      · exact List.mem_cons_self
      · exact List.mem_cons_of_mem _ (AList.mem_keys.mp hid)
    rw [List.length_cons] at hle
    omega
  | @cancel conn payload cid r _ _ _ _ result =>
    obtain ⟨book, hbook, hv'⟩ := bind_eq_ok.mp result.symm
    cases hv'
    obtain ⟨b', hb', hrep'⟩ := cancelOrder_sim build hrep hwf r.engineId
    rw [hbook] at hb'
    cases hb'
    refine ⟨⟨_, hrep', hwf.cancel _⟩, le_trans (keys_length_le fun id hid => ?_) hsize⟩
    exact AList.mem_keys.mp (AList.mem_erase.mp hid).2
  | @drop conn _ result =>
    obtain ⟨v₁, hv₁, hrep', hlive, -⟩ := dropOwned_spec build (v.owned conn) v hrep hwf
    rw [Venue.dropConnection, hv₁] at result
    cases result
    refine ⟨⟨_, hrep', hwf.cancels _⟩, le_trans (keys_length_le fun id hid => ?_) hsize⟩
    obtain ⟨lo, hlo⟩ := Option.isSome_iff_exists.mp (AList.lookup_isSome.mpr hid)
    have hl := hlive id
    rw [Tables.live, hlo] at hl
    split at hl
    · cases hl
    · exact AList.mem_keys.mp (AList.lookup_isSome.mp (Option.isSome_iff_exists.mpr ⟨lo, hl.symm⟩))

/-- In every run the table of live orders stays within the soft cap. -/
theorem session_size {events : List Event} {s : Session cap}
    (h : session build cap softCap events = .ok s) :
    s.venue.book.Sound ∧ s.venue.tables.byEngineId.keys.length ≤ softCap := by
  have hinv : s.venue.book.Sound ∧ s.venue.tables.byEngineId.keys.length ≤ s.venue.softCap := by
    refine session_inv (fun s => s.venue.book.Sound ∧
      s.venue.tables.byEngineId.keys.length ≤ s.venue.softCap) (fun v hv => ?_)
      (fun s ev s' hs hstep => ?_) h
    · have hnew := (Venue.new_eq_ok hv).2
      refine ⟨⟨_, hnew.rep, hnew.wf⟩, ?_⟩
      obtain ⟨b, -, hv⟩ := bind_eq_ok.mp hv
      cases hv
      exact Nat.zero_le _
    · obtain ⟨v', hv', rfl⟩ := Session.step_eq_ok.mp hstep
      exact handle_size (v := s.venue.cleared) hs.1 hs.2 hv'
  rwa [session_softCap h] at hinv

end Size

/-! ## Failing calls -/

section Errors

variable {v : Venue cap} {a : PriorityBook cap} {n : Nat} {ev : Event} {f : Fault}

/-- Only a debug build checks the level reserve. -/
theorem levelCheck_error {side : Side} {p : UInt32} {P : List (Resting cap)}
    (h : levelCheck build side p P = .error f) :
    build = .debug ∧ f = side.levelsExceeded ∧ kDefaultMaxPriceLevels ≤ P.length := by
  unfold levelCheck at h
  split at h
  · cases h
  · cases build with
    | debug =>
      rw [assertThat] at h
      split at h
      · cases h
      · next hfull =>
        cases h
        have hcount : levelCount P ≤ P.length := by
          rw [levelCount, ← List.length_map (f := Resting.price)]
          exact (List.dedup_sublist _).length_le
        have hfull := not_lt.mp (by simpa using hfull)
        exact ⟨rfl, rfl, le_trans hfull hcount⟩
    | ndebug => cases h
    | growing =>
      have hlevels : side.levelsExceeded.isLevels = true := by cases side <;> rfl
      simp [assertThat, hlevels] at h

/-- A call on a venue in step fails in a debug build alone, on the level reserve, with as many live
orders as the reserve has levels. -/
theorem Synced.handle_error (h : Synced n v a) (hcap : v.softCap < cap)
    (hv : v.handle build ev = .error f) : build = .debug ∧ f.isLevels = true ∧
      kDefaultMaxPriceLevels < v.softCap := by
  cases handled build v ev with
  | quiet result =>
    rw [hv] at result
    cases result
  | @accept conn payload cid side p q _ accepts result =>
    rw [hv, Venue.submit] at result
    have hfree := h.rep.free_ne_nil h.wf (h.restingCount_lt accepts.room hcap)
    obtain ⟨slot, free, hfree⟩ := List.exists_cons_of_ne_nil hfree
    have hsim := addLimitOrder_sim build side Tables.onTrade p q v.nextEngineId conn
      (v.entered conn cid side p q) h.rep (perm_finRange_iff.mp h.wf.slots).1
    cases hadd : a.add build side p q v.nextEngineId conn with
    | ok y =>
      obtain ⟨x, hx, -⟩ := hsim.of_ok_right hadd
      rw [hx] at result
      cases result
    | error g =>
      rw [hsim.of_error_right hadd] at result
      cases result
      simp only [PriorityBook.add, hfree] at hadd
      split at hadd
      · have hown : ∀ r : SweepResult cap, (a.swept free side.opposite r).queue side =
            a.queue side :=
          fun r => Function.update_of_ne side.ne_opposite _ _
        rw [hown] at hadd
        cases hlevel : levelCheck build side p (a.queue side) with
        | ok u =>
          rw [hlevel] at hadd
          cases hadd
        | error g' =>
          rw [hlevel] at hadd
          cases hadd
          obtain ⟨hbuild, hf, hlen⟩ := levelCheck_error hlevel
          refine ⟨hbuild, by rw [hf]; cases side <;> rfl, lt_of_le_of_lt ?_ accepts.room⟩
          have hkeys := h.keys_perm.length_eq
          have hqueue := fun s => congrArg List.length (h.rep.resting_eq h.wf s)
          simp only [List.length_map, List.length_append] at hkeys hqueue
          rw [hqueue, hqueue] at hkeys
          cases side <;> omega
      · cases hadd
  | cancel _ _ _ result =>
    obtain ⟨b', hb', -⟩ := cancelOrder_sim build h.rep h.wf _
    rw [hv, hb'] at result
    cases result
  | drop result =>
    obtain ⟨v', hv', -⟩ := h.drop build _
    rw [hv, hv'] at result
    cases result

end Errors

/-- The table of live orders stays within the soft cap in every run. With fewer than `2 ^ 64`
accepted orders a call fails at most on the level reserve of a debug build: the assertions of the
pool never fail, nor is a null slot taken where they are compiled out. -/
theorem pool_never_exhausted (hcap : softCap < cap) {events : List Event} {s : Session cap}
    (h : session build cap softCap events = .ok s) :
    s.venue.tables.byEngineId.keys.length ≤ softCap ∧
    (s.accepted < 2 ^ 64 → ∀ ev f, s.step build ev = .error f →
      build = .debug ∧ f.isLevels = true) := by
  refine ⟨(session_size h).2, fun hlt ev f hstep => ?_⟩
  obtain ⟨a, hs⟩ := session_synced h hlt
  cases hv : s.venue.cleared.handle build ev with
  | ok v' =>
    rw [Session.step, hv] at hstep
    cases hstep
  | error g =>
    rw [Session.step, hv] at hstep
    cases hstep
    have hsoft : s.venue.cleared.softCap < cap := (session_softCap h).symm ▸ hcap
    obtain ⟨hbuild, hf, -⟩ := hs.cleared.handle_error hsoft hv
    exact ⟨hbuild, hf⟩

theorem pool_never_exhausted_partial_fill : ∃ s : Session 3,
    session .growing 3 2 partialFill = .ok s ∧ s.venue.tables.byEngineId.keys.length ≤ 2 ∧
    ∀ ev f, s.step .growing ev ≠ .error f := by
  obtain ⟨s, hs, hlt⟩ : ∃ s : Session 3, session .growing 3 2 partialFill = .ok s ∧
      decide (s.accepted < 2 ^ 64) = true := exists_session (by decide +kernel)
  obtain ⟨hsize, hpool⟩ := pool_never_exhausted (by decide) hs
  refine ⟨s, hs, hsize, fun ev f hf => ?_⟩
  cases (hpool (of_decide_eq_true hlt) ev f hf).1

/-! ## The pool after the counter has wrapped -/

/-- Two offers of connection 1. -/
def parkTwo : List Event :=
  [.line 1 (newOrderLine idA .sell 100 5 idA), .line 1 (newOrderLine idB .sell 100 5 idA)]

def twoTables : Tables :=
  { parkedTables with
    byEngineId := parkedTables.byEngineId.insert 2 ⟨1, idB.bytes, exchangeId 2, .sell, 100, 5⟩
    byConn := parkedTables.byConn.insert 1 (AList.insert idB.bytes ⟨.resting, exchangeId 2, 2⟩
      (AList.insert idA.bytes ⟨.resting, exchangeId 1, 1⟩ ∅)) }

/-- The first entry overwritten. -/
def threeTables : Tables :=
  { twoTables with
    byEngineId := twoTables.byEngineId.insert 1 ⟨3, idA.bytes, exchangeId 1, .buy, 50, 1⟩
    byConn := twoTables.byConn.insert 3 (AList.insert idA.bytes ⟨.resting, exchangeId 1, 1⟩ ∅) }

/-- Both entries overwritten. -/
def fourTables : Tables :=
  { threeTables with
    byEngineId := threeTables.byEngineId.insert 2 ⟨3, idB.bytes, exchangeId 2, .buy, 50, 1⟩
    byConn := threeTables.byConn.insert 3 (AList.insert idB.bytes ⟨.resting, exchangeId 2, 2⟩
      (AList.insert idA.bytes ⟨.resting, exchangeId 1, 1⟩ ∅)) }

def twoBook (sequence : UInt64) : PriorityBook 4 where
  free := [slot 2, slot 3]
  queue
    | .buy => []
    | .sell => [⟨slot 0, 1, 100, 5, 0, 1⟩, ⟨slot 1, 2, 100, 5, 1, 1⟩]
  index := AList.insert 2 (slot 1) (AList.insert 1 (slot 0) ∅)
  sequence := sequence

def threeBook (sequence : UInt64) : PriorityBook 4 :=
  { twoBook (sequence + 1) with
    free := [slot 3]
    queue := fun
      | .buy => [⟨slot 2, 1, 50, 1, sequence, 3⟩]
      | .sell => [⟨slot 0, 1, 100, 5, 0, 1⟩, ⟨slot 1, 2, 100, 5, 1, 1⟩] }

def fourBook (sequence : UInt64) : PriorityBook 4 :=
  { twoBook (sequence + 2) with
    free := []
    queue := fun
      | .buy => [⟨slot 2, 1, 50, 1, sequence, 3⟩, ⟨slot 3, 2, 50, 1, sequence + 1, 3⟩]
      | .sell => [⟨slot 0, 1, 100, 5, 0, 1⟩, ⟨slot 1, 2, 100, 5, 1, 1⟩] }

theorem parkTwo_stands (build : Build) : ∃ s, session build 4 3 parkTwo = .ok s ∧
    Parked s 3 twoTables (twoBook 0) 3 := by
  obtain ⟨v₀, hv₀⟩ : ∃ v₀ : Venue 4, Venue.new 4 3 = .ok v₀ := ⟨_, rfl⟩
  have h := new_stands hv₀
  have hacc := h.accepts 1
    (isNewOrder_line idA idA .sell 100 5 100 5 rfl rfl)
    (by decide) rfl (by decide) rfl
  have hadd : (PriorityBook.empty 4).add build .sell 100 5 1 1 = .ok ([], parkedBook 1) := by
    refine add_rests 0 [1, 2, 3] rfl rfl (by decide) (by cases build <;> rfl) ?_
    exact book_ext rfl (fun s => by cases s <;> rfl) rfl rfl
  obtain ⟨s₁, hs₁, hH₁, h₁⟩ := h.accept ({ parkedTables with
    sent := [(1, .ack idA.bytes (exchangeId 1))] }) hacc hadd fun _ => rfl
  have hacc₁ := h₁.accepts 1
    (isNewOrder_line idB idA .sell 100 5 100 5 rfl rfl)
    (by decide) (by decide +kernel) (by decide) rfl
  have hadd₁ : (parkedBook 1).add build .sell 100 5 2 1 = .ok ([], twoBook 2) := by
    refine add_rests 1 [2, 3] rfl rfl (by decide) (by cases build <;> rfl) ?_
    exact book_ext rfl (fun s => by cases s <;> rfl) rfl rfl
  obtain ⟨s₂, hs₂, hH₂, h₂⟩ := h₁.accept ({ twoTables with
    sent := [(1, .ack idB.bytes (exchangeId 2))] }) hacc₁ hadd₁ fun _ => rfl
  refine ⟨s₂, ?_, ⟨2, h₂⟩, ?_⟩
  · rw [session, hv₀, ok_bind, parkTwo, run_cons, hs₁, ok_bind, run_cons, hs₂]
    rfl
  · intro m hm
    rw [Session.messages, hH₂, hH₁, List.append_assoc, List.flatMap_append, List.mem_append] at hm
    rcases hm with hm | hm
    · cases hm
    · simp only [List.cons_append, List.nil_append, List.flatMap_cons, List.flatMap_nil,
        List.mem_cons, List.not_mem_nil, or_false] at hm
      rcases hm with rfl | rfl
      · exact ⟨rfl, Or.inl rfl⟩
      · exact ⟨rfl, Or.inl rfl⟩

/-- Two bids take the ids of two parked offers; then two orders are live and no slot is free. -/
theorem pool_exhausted_after_wrap : ∃ events, ∃ s : Session 4,
    session .debug 4 3 events = .ok s ∧ s.venue.tables.byEngineId.keys.length = 2 ∧
    ∃ ev, s.step .debug ev = .error .freeListEmpty := by
  obtain ⟨s, hs, hpark⟩ := parkTwo_stands .debug
  have hidle : Idle 3 twoTables (twoBook 0) :=
    ⟨rfl, by decide, rfl, by decide, rfl, by decide, by decide⟩
  obtain ⟨events, s', hs', ⟨sequence, h⟩, -⟩ := Parked.wrap .debug (m := 2) (by omega)
    (by omega) hpark hidle fun id hid => by
      have h1 : id ≠ 1 := by
        rintro rfl
        exact absurd hid (by decide)
      have h2 : id ≠ 2 := by
        rintro rfl
        exact absurd hid (by decide)
      constructor
      · exact fun hm => ((AList.mem_insert _).mp hm).elim h2 (notMem_insert_empty h1)
      · exact fun hm => ((AList.mem_insert _).mp hm).elim h2 (notMem_insert_empty h1)
  have hacc := h.accepts 3
    (isNewOrder_line idA idA .buy 50 1 50 1 rfl rfl)
    (by decide) rfl (by decide) rfl
  have hadd : (twoBook sequence).add .debug .buy 50 1 1 3 = .ok ([], threeBook sequence) := by
    refine add_rests 2 [3] rfl rfl (by decide) rfl ?_
    exact book_ext rfl (fun s => by cases s <;> rfl) rfl rfl
  obtain ⟨s₁, hs₁, -, h₁⟩ := h.accept ({ threeTables with
    sent := [(3, .ack idA.bytes (exchangeId 1))] }) hacc hadd fun _ => rfl
  have hacc₁ := h₁.accepts 3
    (isNewOrder_line idB idA .buy 50 1 50 1 rfl rfl)
    (by decide) (by decide +kernel) (by decide) rfl
  have hadd₁ : (threeBook sequence).add .debug .buy 50 1 2 3 = .ok ([], fourBook sequence) := by
    refine add_rests 3 [] rfl rfl (by decide) rfl ?_
    refine book_ext rfl (fun s => by cases s <;> rfl) rfl ?_
    show sequence + 1 + 1 = sequence + 2
    rw [UInt64.add_assoc]
    rfl
  obtain ⟨s₂, hs₂, -, h₂⟩ := h₁.accept ({ fourTables with
    sent := [(3, .ack idB.bytes (exchangeId 2))] }) hacc₁ hadd₁ fun _ => rfl
  have hacc₂ := h₂.accepts 4
    (isNewOrder_line idA idA .buy 50 1 50 1 rfl rfl)
    (by decide) rfl (by decide) rfl
  obtain ⟨v, hv, hrun⟩ := bind_eq_ok.mp hs
  have hall : session .debug 4 3 (parkTwo ++ events) = .ok s' := by
    rw [session, hv, ok_bind, run_append, hrun]
    exact hs'
  refine ⟨_, s₂, session_snoc (session_snoc hall hs₁) hs₂, ?_, _, h₂.accept_error hacc₂ rfl⟩
  have htables := congrArg Tables.byEngineId h₂.tables
  have hkeys : s₂.venue.tables.byEngineId = fourTables.byEngineId := htables
  rw [hkeys]
  decide +kernel

end MarketMakerOps.Exchange
