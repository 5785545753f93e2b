import MarketMakerOps.Exchange.Renaming
import MarketMakerOps.Exchange.Wrap

/-!
A client that disconnects takes its own orders along, and nothing else.

* `Reached`: the venues some calls lead to, hash tables enumerated anyhow;
* `Reached.synced`: tables and core are in step in all of them, until the engine
  ids come round;
* `drop_affects_one`: what a dropped connection changes, and that the order in
  which its orders are cancelled never shows;
* `drop_after_wrap`: once the ids have come round, it may take along another
  client's order.
-/

namespace MarketMakerOps.Exchange

open Decimal Engine Fallible

variable {cap softCap n : Nat} {build : Build}

/-- What some calls on a new venue lead to, after `n` accepted orders. -/
inductive Reached (build : Build) (cap softCap : Nat) : Nat → Venue cap → Prop
  | new {v : Venue cap} (result : Venue.new cap softCap = .ok v) : Reached build cap softCap 0 v
  | call {n : Nat} {v v' : Venue cap} (reached : Reached build cap softCap n v) (o : Enumeration)
      (ev : Event) (result : v.cleared.handleIn build o ev = .ok v') :
      Reached build cap softCap (n + acks v'.tables.sent) v'

/-- `v'` is `v` without the orders and records of `c`. -/
structure Venue.Without (v : Venue cap) (c : ConnId) (v' : Venue cap) : Prop where
  live : ∀ id, v'.tables.live id = (v.tables.live id).filter fun lo => lo.owner ≠ c
  record : ∀ c' cid, v'.tables.record c' cid = if c' = c then none else v.tables.record c' cid
  book : ∀ side, (v'.book.resting side).map Order.unlinked =
    ((v.book.resting side).filter fun o => o.participantId ≠ c).map Order.unlinked

/-- Links do not matter where orders are told apart by their participants. -/
theorem unlinked_filter (p : UInt64 → Prop) [DecidablePred p] (os : List (Order cap)) :
    (os.filter fun o => p o.participantId).map Order.unlinked =
      (os.map Order.unlinked).filter fun o => p o.participantId := by
  rw [List.filter_map]
  rfl

section Calls

variable {v v' : Venue cap} {a : PriorityBook cap} {o : Enumeration} {ev : Event}

theorem handleIn_sound (h : v.book.Sound) (hv : v.handleIn build o ev = .ok v') :
    v'.book.Sound := by
  have hrefl : v.Renamed (Renaming.none fun _ => true) v := .refl h
  have hsim : Sim (Venue.Renamed (Renaming.none fun _ => true)) (v.handleIn build o ev)
    (v.handleIn build o ev) := hrefl.handleIn o o (ev.renamed_none _)
  rw [hv] at hsim
  have hself : v'.Renamed (Renaming.none fun _ => true) v' := hsim
  obtain ⟨-, a, -, hrep, -, hwf, -⟩ := hself.books
  exact ⟨a, hrep, hwf⟩

theorem Synced.handleIn (h : Synced n v a) (hsent : v.tables.sent = [])
    (hv : v.handleIn build o ev = .ok v') (hlt : n + acks v'.tables.sent < 2 ^ 64) :
    ∃ a', Synced (n + acks v'.tables.sent) v' a' := by
  cases ev with
  | line c payload =>
    have hv : v.handle build (.line c payload) = .ok v' := hv
    exact h.handle hsent hv hlt
  | drop c =>
    obtain ⟨a', hs, -, -, -, hnone, -⟩ := post_of_ok (h.dropIn build c fun id =>
      (o.perm (v.owned c)).mem_iff) hv
    rw [hnone, hsent]
    exact ⟨a', hs⟩

end Calls

section Reached

variable {v : Venue cap}

theorem Reached.sound (h : Reached build cap softCap n v) : v.book.Sound := by
  induction h with
  | new result =>
    obtain ⟨-, hs⟩ := Venue.new_eq_ok result
    exact ⟨_, hs.rep, hs.wf⟩
  | @call n v v' _ o ev result ih => exact handleIn_sound (v := v.cleared) ih result

theorem Reached.synced (h : Reached build cap softCap n v) (hn : n < 2 ^ 64) :
    ∃ a, Synced n v a := by
  induction h with
  | new result => exact ⟨_, (Venue.new_eq_ok result).2⟩
  | call _ o ev result ih =>
    obtain ⟨a, hs⟩ := ih (lt_of_le_of_lt (Nat.le_add_right _ _) hn)
    exact hs.cleared.handleIn rfl result hn

theorem session_reached {events : List Event} {s : Session cap}
    (h : session build cap softCap events = .ok s) :
    Reached build cap softCap s.accepted s.venue := by
  refine session_inv (fun s => Reached build cap softCap s.accepted s.venue)
    (fun v hv => .new hv) (fun s ev s' hs hstep => ?_) h
  obtain ⟨v', hv', rfl⟩ := Session.step_eq_ok.mp hstep
  rw [Session.accepted_concat]
  exact .call hs .stored ev (by rw [← handle_eq_handleIn]; exact hv')

/-- The orders of `c` leave the book, the others keep their places. -/
theorem Synced.without {a : PriorityBook cap} (h : Synced n v a) (o : Enumeration) (c : ConnId)
    {v' : Venue cap} (hv : v.cleared.handleIn build o (.drop c) = .ok v') : v.Without c v' := by
  obtain ⟨a', hs, hqueue, hlive, hrecord, -⟩ := post_of_ok (h.cleared.dropIn build c fun id =>
    (o.perm (v.cleared.owned c)).mem_iff) hv
  refine ⟨hlive, hrecord, fun side => ?_⟩
  rw [unlinked_filter fun id => id ≠ c, hs.rep.resting_eq hs.wf, h.rep.resting_eq h.wf, hqueue,
    List.filter_map]
  rfl

end Reached

/-- Dropping a connection cancels its orders, and sends nothing; until the engine ids come round, it
takes its own orders and records along and leaves every other order in its place. The order in which
its orders are cancelled shows in no later message and no later top of the book. -/
theorem drop_affects_one {v : Venue cap} (h : Reached build cap softCap n v) (c : ConnId) :
    (∀ o : Enumeration, ∃ v', v.cleared.handleIn build o (.drop c) = .ok v' ∧
      v'.tables.sent = [] ∧ (n < 2 ^ 64 → v.Without c v')) ∧
    ∀ (o₁ o₂ : Enumeration) (v₁ v₂ : Venue cap),
      v.cleared.handleIn build o₁ (.drop c) = .ok v₁ →
      v.cleared.handleIn build o₂ (.drop c) = .ok v₂ →
      v₁.currentTop = v₂.currentTop ∧
      ∀ calls₁ calls₂ : List (Event × Enumeration), calls₁.map Prod.fst = calls₂.map Prod.fst →
        v₁.watched build (fun _ => true) calls₁ = v₂.watched build (fun _ => true) calls₂ := by
  obtain ⟨a, hrep, hwf⟩ := h.sound
  constructor
  · intro o
    obtain ⟨v', hv', -, -, -, hsent, -⟩ := dropIn_spec (v := v.cleared) build c
      (o.order (v.cleared.owned c)) hrep hwf
    refine ⟨v', hv', hsent, fun hn => ?_⟩
    obtain ⟨a', hs⟩ := h.synced hn
    exact hs.without o c hv'
  · intro o₁ o₂ v₁ v₂ h₁ h₂
    -- a venue is its own renaming, and the two drops keep it so
    have hself : v.cleared.Renamed (Renaming.none fun _ => true) v.cleared := .refl ⟨a, hrep, hwf⟩
    have hsim : Sim (Venue.Renamed (Renaming.none fun _ => true))
      (v.cleared.handleIn build o₂ (.drop c)) (v.cleared.handleIn build o₁ (.drop c)) :=
        hself.handleIn o₂ o₁ .drop
    rw [h₁, h₂] at hsim
    have hren : v₂.Renamed (Renaming.none fun _ => true) v₁ := hsim
    refine ⟨hren.top, fun calls₁ calls₂ hcalls => hren.watched ?_⟩
    have hsame : List.Forall₂ Eq (calls₂.map Prod.fst) (calls₁.map Prod.fst) := by
      rw [List.forall₂_eq_eq_eq]
      exact hcalls.symm
    rw [List.forall₂_map_left_iff, List.forall₂_map_right_iff] at hsame
    exact hsame.imp fun x y hxy => by
      rw [← hxy]
      exact x.1.renamed_none _

/-- The bid of `partialFill`, filled in part, leaves with its owner. -/
theorem drop_affects_one_partial_fill : ∃ v v' : Venue 3, Reached .ndebug 3 2 2 v ∧
    v.cleared.handleIn .ndebug .stored (.drop 1) = .ok v' ∧ v'.tables.sent = [] ∧
    v.Without 1 v' := by
  obtain ⟨s, hs, hacc⟩ : ∃ s : Session 3, session .ndebug 3 2 partialFill = .ok s ∧
      decide (s.accepted = 2) = true := exists_session (by decide +kernel)
  have hreached := session_reached hs
  rw [of_decide_eq_true hacc] at hreached
  obtain ⟨v', hv', hsent, hwithout⟩ := (drop_affects_one hreached 1).1 .stored
  exact ⟨s.venue, v', hreached, hv', hsent, hwithout (by decide)⟩

/-- After the counter has wrapped, connection 3 leaves behind its own bid and takes along the offer
of connection 1. -/
theorem drop_after_wrap : ∃ n, ∃ v v' : Venue 4, Reached .ndebug 4 3 n v ∧
    v.cleared.handleIn .ndebug .stored (.drop 3) = .ok v' ∧
    (v.book.resting .sell).map Order.participantId = [1] ∧ v'.book.resting .sell = [] ∧
    (v'.book.resting .buy).map Order.participantId = [3] := by
  obtain ⟨events, s, s₁, sequence, hs, -, hs₁, -, h₁⟩ := exists_reissued .ndebug
  have howned : ∀ b : OrderBook 4,
      Venue.owned ⟨3, 2, { bidBelowTables with sent := [] }, b⟩ 3 = [1] := fun _ => rfl
  obtain ⟨s₂, hs₂, -, h₂⟩ := h₁.drop .ndebug howned
  obtain ⟨v', hv', rfl⟩ := Session.step_eq_ok.mp hs₂
  have hids := fun side => h₁.rep.map_resting Order.participantId (fun _ => rfl) h₁.wf side
  have hids' := fun side => h₂.rep.map_resting Order.participantId (fun _ => rfl) h₂.wf side
  refine ⟨_, s₁.venue, v', session_reached (session_snoc hs hs₁), ?_, hids .sell, ?_, hids' .buy⟩
  · rw [← handle_eq_handleIn]
    exact hv'
  · exact List.map_eq_nil_iff.mp (hids' .sell)

end MarketMakerOps.Exchange
