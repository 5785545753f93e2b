import MarketMakerOps.Engine.PriorityBook

/-!
Level vectors as priority lists. `LevelsRep mem s levels P`: the vector, worst
price first, and the queues threaded through `mem` hold the orders `P` of side
`s`, best first.

* `levelsRep_append`: a split vector is a split list;
* `lowerBound_split`: where a sorted vector is cut by the binary search;
* `addAt_spec`, `removeAt_spec`: what the vector operations do to the list, and
  which slots they leave alone.
-/

namespace MarketMakerOps.Engine

open LinkedQueue Priority

variable {cap : Nat}

/-- One level holds the queue `q`, possibly none. -/
structure LevelQueue (mem : Orders cap) (s : Side) (pl : PriceLevel cap) (q : List (Resting cap)) :
    Prop where
  queue : Queue mem.links pl.ends (q.map Resting.slot)
  price : ∀ e ∈ q, e.price = pl.price
  holds : ∀ e ∈ q, (mem e.slot).unlinked = e.order s
  total : pl.totalQuantity = (q.map Resting.quantity).sum

/-- A stored level is never empty. -/
structure LevelRep (mem : Orders cap) (s : Side) (pl : PriceLevel cap) (q : List (Resting cap)) :
    Prop extends LevelQueue mem s pl q where
  ne : q ≠ []

/-- The vector holds `P`: no empty level, prices strictly improving towards the back. -/
def LevelsRep (mem : Orders cap) (s : Side) : List (PriceLevel cap) → List (Resting cap) → Prop
  | [], P => P = []
  | pl :: L, P => ∃ q P', P = P' ++ q ∧ LevelRep mem s pl q ∧
      (∀ y ∈ L, s.rank pl.price < s.rank y.price) ∧ LevelsRep mem s L P'

section Representation

variable {mem mem' : Orders cap} {s : Side} {pl : PriceLevel cap} {L L₁ L₂ : List (PriceLevel cap)}
  {P q : List (Resting cap)}

theorem levelsRep_append : LevelsRep mem s (L₁ ++ L₂) P ↔
    ∃ P₁ P₂, P = P₂ ++ P₁ ∧ LevelsRep mem s L₁ P₁ ∧ LevelsRep mem s L₂ P₂ ∧
      ∀ x ∈ L₁, ∀ y ∈ L₂, s.rank x.price < s.rank y.price := by
  induction L₁ generalizing P with
  | nil => simp [LevelsRep]
  | cons pl L₁ ih =>
    simp only [List.cons_append, LevelsRep, ih]
    constructor
    · rintro ⟨q, P', rfl, hl, hlt, P₁, P₂, rfl, h₁, h₂, hc⟩
      refine ⟨P₁ ++ q, P₂, by simp, ⟨q, P₁, rfl, hl, fun y hy => hlt y (by simp [hy]), h₁⟩, h₂, ?_⟩
      intro x hx y hy
      rcases List.mem_cons.mp hx with rfl | hx
      · exact hlt y (by simp [hy])
      · exact hc x hx y hy
    · rintro ⟨P₁, P₂, rfl, ⟨q, P', rfl, hl, hlt, h₁⟩, h₂, hc⟩
      refine ⟨q, P₂ ++ P', by simp, hl, ?_, P', P₂, rfl, h₁, h₂, fun x hx => hc x (by simp [hx])⟩
      intro y hy
      rcases List.mem_append.mp hy with hy | hy
      · exact hlt y hy
      · exact hc pl (by simp) y hy

theorem levelsRep_singleton : LevelsRep mem s [pl] P ↔ LevelRep mem s pl P := by
  constructor
  · rintro ⟨q, P', rfl, hl, -, h⟩
    have hP' : P' = [] := h
    rw [hP', List.nil_append]
    exact hl
  · intro h
    exact ⟨P, [], by simp, h, by simp, rfl⟩

theorem LevelQueue.isEmpty_iff (h : LevelQueue mem s pl q) : pl.isEmpty = true ↔ q = [] := by
  have hh : pl.head = none ↔ q.map Resting.slot = [] := h.queue.head_eq_none
  rw [PriceLevel.isEmpty, Option.isNone_iff_eq_none, hh, List.map_eq_nil_iff]

/-- Only the slots of the queued orders matter. -/
theorem LevelQueue.frame (h : LevelQueue mem s pl q) (hm : ∀ e ∈ q, mem' e.slot = mem e.slot) :
    LevelQueue mem' s pl q := by
  refine ⟨h.queue.frame ?_, h.price, fun e he => by rw [hm e he]; exact h.holds e he, h.total⟩
  intro a ha
  obtain ⟨e, he, rfl⟩ := List.mem_map.mp ha
  simp [Links.AgreeAt, Orders.links, hm e he]

theorem LevelsRep.frame (h : LevelsRep mem s L P) (hm : ∀ e ∈ P, mem' e.slot = mem e.slot) :
    LevelsRep mem' s L P := by
  induction L generalizing P with
  | nil => exact h
  | cons pl L ih =>
    obtain ⟨q, P', rfl, hl, hlt, h⟩ := h
    exact ⟨q, P', rfl, ⟨hl.toLevelQueue.frame fun e he => hm e (by simp [he]), hl.ne⟩, hlt,
      ih h fun e he => hm e (by simp [he])⟩

theorem LevelsRep.mem_price (h : LevelsRep mem s L P) (p : UInt32) :
    p ∈ P.map Resting.price ↔ p ∈ L.map PriceLevel.price := by
  induction L generalizing P with
  | nil => rw [show P = [] from h]; simp
  | cons pl L ih =>
    obtain ⟨q, P', rfl, hl, -, h⟩ := h
    have hq : p ∈ q.map Resting.price ↔ p = pl.price := by
      constructor
      · intro hp
        obtain ⟨e, he, rfl⟩ := List.mem_map.mp hp
        exact hl.price e he
      · rintro rfl
        obtain ⟨e, he⟩ := List.exists_mem_of_ne_nil _ hl.ne
        exact List.mem_map.mpr ⟨e, he, hl.price e he⟩
    rw [List.map_append, List.mem_append, ih h, hq, List.map_cons, List.mem_cons]
    exact or_comm

theorem LevelsRep.pairwise (h : LevelsRep mem s L P) :
    L.Pairwise fun x y => s.rank x.price < s.rank y.price := by
  induction L generalizing P with
  | nil => exact List.Pairwise.nil
  | cons pl L ih =>
    obtain ⟨q, P', rfl, -, hlt, h⟩ := h
    exact List.pairwise_cons.mpr ⟨hlt, ih h⟩

/-- One level per distinct price. -/
theorem LevelsRep.length_eq (h : LevelsRep mem s L P) : L.length = levelCount P := by
  have hnd : (L.map PriceLevel.price).Nodup := by
    refine List.pairwise_map.mpr (h.pairwise.imp fun hlt e => ?_)
    rw [e] at hlt
    exact lt_irrefl _ hlt
  have hp : (P.map Resting.price).dedup.Perm (L.map PriceLevel.price) :=
    (List.perm_ext_iff_of_nodup (List.nodup_dedup _) hnd).mpr fun p => by
      rw [List.mem_dedup, h.mem_price]
  rw [levelCount, hp.length_eq, List.length_map]

theorem LevelsRep.eq_nil_iff (h : LevelsRep mem s L P) : L = [] ↔ P = [] := by
  cases L with
  | nil =>
    have hP : P = [] := h
    simp [hP]
  | cons pl L =>
    obtain ⟨q, P', rfl, hl, -, -⟩ := h
    simp [hl.ne]

/-- The head of the priority list is the head of the last level's queue. -/
theorem LevelsRep.last {e : Resting cap} (h : LevelsRep mem s L (e :: P)) :
    ∃ L' pl q P', L = L' ++ [pl] ∧ P = q ++ P' ∧ LevelRep mem s pl (e :: q) ∧
      LevelsRep mem s L' P' ∧ ∀ x ∈ L', s.rank x.price < s.rank pl.price := by
  rcases L.eq_nil_or_concat with rfl | ⟨L', pl, rfl⟩
  · exact absurd h (by simp [LevelsRep])
  · rw [List.concat_eq_append] at *
    obtain ⟨P₁, P₂, hP, h₁, h₂, hlt⟩ := levelsRep_append.mp h
    have hl := levelsRep_singleton.mp h₂
    cases P₂ with
    | nil => exact absurd rfl hl.ne
    | cons e' q =>
      obtain ⟨rfl, rfl⟩ := List.cons.inj hP
      exact ⟨L', pl, q, P₁, rfl, rfl, hl, h₁, fun x hx => hlt x hx pl (by simp)⟩

theorem LevelsRep.concat (h : LevelsRep mem s L P) (hl : LevelRep mem s pl q)
    (hlt : ∀ x ∈ L, s.rank x.price < s.rank pl.price) : LevelsRep mem s (L ++ [pl]) (q ++ P) :=
  levelsRep_append.mpr ⟨P, q, rfl, h, levelsRep_singleton.mpr hl, by simpa using hlt⟩

/-- Every entry is the content of its slot. -/
theorem LevelsRep.holds (h : LevelsRep mem s L P) {e : Resting cap} (he : e ∈ P) :
    (mem e.slot).unlinked = e.order s := by
  induction L generalizing P with
  | nil => rw [show P = [] from h] at he; cases he
  | cons pl L ih =>
    obtain ⟨q, P', rfl, hl, -, h⟩ := h
    rcases List.mem_append.mp he with he | he
    · exact ih h he
    · exact hl.holds e he

end Representation

/-! ## Searching a sorted vector -/

/-- The search of side `s` compares by `rank`. -/
def Before (s : Side) (before : UInt32 → UInt32 → Bool) : Prop :=
  ∀ p q, before p q = true ↔ s.rank p < s.rank q

theorem before_buy : Before .buy fun p q => p < q := by
  intro p q
  simp [Side.rank, UInt32.lt_iff_toNat_lt]

theorem before_sell : Before .sell fun p q => p > q := by
  intro p q
  have hp := p.toNat_lt
  have hq := q.toNat_lt
  simp only [decide_eq_true_eq, gt_iff_lt, Side.rank, UInt32.lt_iff_toNat_lt]
  omega

/-- The search cuts a sorted vector into the worse levels and the rest. -/
theorem lowerBound_split {s : Side} {before : UInt32 → UInt32 → Bool} (hb : Before s before)
    {L : List (PriceLevel cap)} (hs : L.Pairwise fun x y => s.rank x.price < s.rank y.price)
    (p : UInt32) : ∃ L₁ L₂, L = L₁ ++ L₂ ∧ lowerBound before L p = L₁.length ∧
      (∀ x ∈ L₁, s.rank x.price < s.rank p) ∧ ∀ y ∈ L₂, s.rank p ≤ s.rank y.price := by
  induction L with
  | nil => exact ⟨[], [], rfl, rfl, by simp, by simp⟩
  | cons pl L ih =>
    obtain ⟨hlt, hs⟩ := List.pairwise_cons.mp hs
    by_cases hpl : s.rank pl.price < s.rank p
    · obtain ⟨L₁, L₂, rfl, hlen, h₁, h₂⟩ := ih hs
      refine ⟨pl :: L₁, L₂, rfl, ?_, ?_, h₂⟩
      · have : before pl.price p = true := (hb _ _).mpr hpl
        simp only [lowerBound] at hlen
        simp [lowerBound, List.findIdx_cons, this, hlen]
      · intro x hx
        rcases List.mem_cons.mp hx with rfl | hx
        · exact hpl
        · exact h₁ x hx
    · refine ⟨[], pl :: L, rfl, ?_, by simp, ?_⟩
      · have : before pl.price p = false := by
          rw [Bool.eq_false_iff]; exact fun h => hpl ((hb _ _).mp h)
        simp [lowerBound, List.findIdx_cons, this]
      · intro y hy
        rcases List.mem_cons.mp hy with rfl | hy
        · exact not_lt.mp hpl
        · exact (not_lt.mp hpl).trans (hlt y hy).le

theorem lowerBound_found {s : Side} {before : UInt32 → UInt32 → Bool} (hb : Before s before)
    {L : List (PriceLevel cap)} (hs : L.Pairwise fun x y => s.rank x.price < s.rank y.price)
    {p : UInt32} (hp : p ∈ L.map PriceLevel.price) :
    ∃ A pl B, L = A ++ pl :: B ∧ lowerBound before L p = A.length ∧ pl.price = p := by
  obtain ⟨A, B, rfl, hlen, hA, hB⟩ := lowerBound_split hb hs p
  obtain ⟨x, hx, rfl⟩ := List.mem_map.mp hp
  have hxB : x ∈ B := (List.mem_append.mp hx).resolve_left fun h => lt_irrefl _ (hA x h)
  cases B with
  | nil => cases hxB
  | cons pl B =>
    refine ⟨A, pl, B, rfl, hlen, ?_⟩
    rcases List.mem_cons.mp hxB with rfl | hxB
    · rfl
    · -- the first level at least as good as `x` is at most `x`
      have hlt := (List.pairwise_cons.mp (List.pairwise_append.mp hs).2.1).1 x hxB
      exact absurd (hB pl List.mem_cons_self) (not_le.mpr hlt)

/-! ## What the vector operations do -/

theorem insertIdx_append_length {α : Type*} (A B : List α) (x : α) :
    (A ++ B).insertIdx A.length x = A ++ x :: B := by
  induction A with
  | nil => simp
  | cons a A ih => simp [List.insertIdx_succ_cons, ih]

/-- Deleting by slot in a list that uses each slot once. -/
theorem filter_slot_ne {X Y : List (Resting cap)} {e : Resting cap}
    (hnd : ((X ++ e :: Y).map Resting.slot).Nodup) :
    ((X ++ e :: Y).filter fun x => x.slot ≠ e.slot) = X ++ Y := by
  have hmid := hnd
  rw [List.map_append, List.map_cons, List.nodup_middle] at hmid
  have hnot := (List.nodup_cons.mp hmid).1
  rw [List.filter_append, List.filter_cons_of_neg (by simp)]
  congr 1 <;> rw [List.filter_eq_self] <;> intro x hx <;>
    simp only [decide_eq_true_eq] <;> intro hxe <;> apply hnot <;> rw [← hxe] <;>
    simp only [List.mem_append]
  · exact Or.inl (List.mem_map_of_mem hx)
  · exact Or.inr (List.mem_map_of_mem hx)

section Operations

variable {mem : Orders cap} {s : Side} {L : List (PriceLevel cap)} {P : List (Resting cap)}
  {before : UInt32 → UInt32 → Bool}

theorem LevelsRep.rank_lt_of_forall {e : Resting cap} {r : Nat} (h : LevelsRep mem s L P)
    (hL : ∀ x ∈ L, s.rank x.price < r) (he : e ∈ P) : s.rank e.price < r := by
  obtain ⟨x, hx, hxe⟩ := List.mem_map.mp ((h.mem_price e.price).mp (List.mem_map_of_mem he))
  rw [← hxe]
  exact hL x hx

theorem LevelsRep.lt_rank_of_forall {e : Resting cap} {r : Nat} (h : LevelsRep mem s L P)
    (hL : ∀ x ∈ L, r < s.rank x.price) (he : e ∈ P) : r < s.rank e.price := by
  obtain ⟨x, hx, hxe⟩ := List.mem_map.mp ((h.mem_price e.price).mp (List.mem_map_of_mem he))
  rw [← hxe]
  exact hL x hx

/-- The worst level holds the orders at its price, and it alone. -/
theorem LevelsRep.cons_filter {pl : PriceLevel cap} (h : LevelsRep mem s (pl :: L) P) :
    LevelRep mem s pl (P.filter fun e => e.price = pl.price) ∧
      LevelsRep mem s L (P.filter fun e => e.price ≠ pl.price) ∧
      P.getLast?.map Resting.price = some pl.price := by
  obtain ⟨q, P', rfl, hl, hlt, h⟩ := h
  have hq : ∀ e ∈ q, e.price = pl.price := hl.price
  have hP' : ∀ e ∈ P', e.price ≠ pl.price := by
    intro e he heq
    have := h.lt_rank_of_forall hlt he
    rw [heq] at this
    exact lt_irrefl _ this
  have h₁ : (P' ++ q).filter (fun e => e.price = pl.price) = q := by
    rw [List.filter_append, List.filter_eq_nil_iff.mpr (by simpa using hP'),
      List.filter_eq_self.mpr (by simpa using hq), List.nil_append]
  have h₂ : (P' ++ q).filter (fun e => e.price ≠ pl.price) = P' := by
    rw [List.filter_append, List.filter_eq_self.mpr (by simpa using hP'),
      List.filter_eq_nil_iff.mpr (by simpa using hq), List.append_nil]
  rw [h₁, h₂, List.getLast?_append_of_ne_nil _ hl.ne]
  refine ⟨hl, h, ?_⟩
  obtain ⟨e, he⟩ := Option.ne_none_iff_exists'.mp (mt List.getLast?_eq_none_iff.mp hl.ne)
  rw [he, Option.map_some, hq e (List.mem_of_getLast? he)]

/-- Every stored level holds the orders at its price. -/
theorem LevelsRep.level_of_mem (h : LevelsRep mem s L P) {pl : PriceLevel cap} (hpl : pl ∈ L) :
    LevelRep mem s pl (P.filter fun e => e.price = pl.price) := by
  induction L generalizing P with
  | nil => cases hpl
  | cons pl' L ih =>
    obtain ⟨hl, hL, -⟩ := h.cons_filter
    rcases List.mem_cons.mp hpl with rfl | hpl
    · exact hl
    · have hne : pl.price ≠ pl'.price := by
        intro heq
        have hlt := (List.pairwise_cons.mp h.pairwise).1 pl hpl
        rw [heq] at hlt
        exact lt_irrefl _ hlt
      have hfilter : (P.filter fun e => e.price ≠ pl'.price).filter (fun e => e.price = pl.price) =
          P.filter fun e => e.price = pl.price := by
        rw [List.filter_filter]
        refine List.filter_congr fun e _ => ?_
        by_cases he : e.price = pl.price
        · simp [he, hne]
        · simp [he]
      rw [← hfilter]
      exact ih hL hpl

/-- The vector around the level for a price: better and worse levels, and a queue at the price. -/
structure Opened (mem : Orders cap) (s : Side) (p : UInt32) (A : List (PriceLevel cap))
    (pl : PriceLevel cap) (B : List (PriceLevel cap)) (PA q PB : List (Resting cap)) : Prop where
  price : pl.price = p
  worse : LevelsRep mem s A PA
  level : LevelQueue mem s pl q
  better : LevelsRep mem s B PB
  lt_worse : ∀ x ∈ A, s.rank x.price < s.rank p
  lt_better : ∀ y ∈ B, s.rank p < s.rank y.price

/-- Splitting a vector at one of its levels. -/
theorem LevelsRep.opened {A B : List (PriceLevel cap)} {pl : PriceLevel cap}
    (h : LevelsRep mem s (A ++ pl :: B) P) : ∃ PA q PB, P = PB ++ q ++ PA ∧ q ≠ [] ∧
      Opened mem s pl.price A pl B PA q PB := by
  obtain ⟨PA, P₂, rfl, hA, ⟨q, PB, rfl, hl, hlt, hB⟩, hc⟩ := levelsRep_append.mp h
  exact ⟨PA, q, PB, rfl, hl.ne, rfl, hA, hl.toLevelQueue, hB, fun x hx => hc x hx pl (by simp), hlt⟩

/-- Closing the vector again over a nonempty level. -/
theorem Opened.close {p : UInt32} {A B : List (PriceLevel cap)} {pl : PriceLevel cap}
    {PA q PB : List (Resting cap)} (h : Opened mem s p A pl B PA q PB) (hq : q ≠ []) :
    LevelsRep mem s (A ++ pl :: B) (PB ++ q ++ PA) := by
  obtain ⟨rfl, hA, hl, hB, hlt₁, hlt₂⟩ := h
  refine levelsRep_append.mpr ⟨PA, PB ++ q, rfl, hA, ⟨q, PB, rfl, ⟨hl, hq⟩, hlt₂, hB⟩, ?_⟩
  intro x hx y hy
  rcases List.mem_cons.mp hy with rfl | hy
  · exact hlt₁ x hx
  · exact (hlt₁ x hx).trans (hlt₂ y hy)

/-- Closing the vector without the level. -/
theorem Opened.drop {p : UInt32} {A B : List (PriceLevel cap)} {pl : PriceLevel cap}
    {PA q PB : List (Resting cap)} (h : Opened mem s p A pl B PA q PB) :
    LevelsRep mem s (A ++ B) (PB ++ PA) :=
  levelsRep_append.mpr ⟨PA, PB, rfl, h.worse, h.better, fun x hx y hy =>
    (h.lt_worse x hx).trans (h.lt_better y hy)⟩

/-- A newcomer at the opened price goes behind that level's queue. -/
theorem Opened.insertLast_eq {p : UInt32} {A B : List (PriceLevel cap)} {pl : PriceLevel cap}
    {PA q PB : List (Resting cap)} (h : Opened mem s p A pl B PA q PB) {e : Resting cap}
    (he : e.price = p) :
    insertLast (Resting.rank s) e (PB ++ q ++ PA) = PB ++ (q ++ [e]) ++ PA := by
  subst he
  rw [insertLast_append]
  · simp
  · intro b hb
    rcases List.mem_append.mp hb with hb | hb
    · exact (h.better.lt_rank_of_forall h.lt_better hb).le
    · have := (h.level.price b hb).trans h.price
      simp only [Resting.rank, this, le_refl]
  · exact fun b hb => h.worse.rank_lt_of_forall h.lt_worse hb

/-- Finding or creating the level for a price opens the vector at it. -/
theorem findOrCreateLevel_spec (hb : Before s before) (h : LevelsRep mem s L P) (full : Fault)
    (build : Build) (p : UInt32)
    (hok : p ∈ P.map Resting.price ∨
      assertThat build (levelCount P < kDefaultMaxPriceLevels) full = .ok ()) :
    ∃ A pl B PA q PB, findOrCreateLevel before full build L p = .ok (A.length, A ++ pl :: B) ∧
      P = PB ++ q ++ PA ∧ Opened mem s p A pl B PA q PB := by
  by_cases hp : p ∈ P.map Resting.price
  · obtain ⟨A, pl, B, rfl, hlen, hpl⟩ := lowerBound_found hb h.pairwise ((h.mem_price p).mp hp)
    obtain ⟨PA, q, PB, rfl, -, ho⟩ := h.opened
    refine ⟨A, pl, B, PA, q, PB, ?_, rfl, hpl ▸ ho⟩
    simp [findOrCreateLevel, hlen, hpl]
  · obtain ⟨A, B, rfl, hlen, hA, hB⟩ := lowerBound_split hb h.pairwise p
    have hp' := fun hm => hp ((h.mem_price p).mpr hm)
    have hne : ∀ y ∈ B, y.price ≠ p := fun y hy e => hp' (e ▸ List.mem_map_of_mem (by simp [hy]))
    have hlen' := h.length_eq
    obtain ⟨PA, PB, rfl, h₁, h₂, -⟩ := levelsRep_append.mp h
    refine ⟨A, ⟨p, 0, none, none⟩, B, PA, [], PB, ?_, by simp, rfl, h₁, ?_, h₂, hA, ?_⟩
    · have hnone : ((A ++ B)[A.length]?.any fun pl => pl.price == p) = false := by
        cases B with
        | nil => simp
        | cons y B => simpa using hne y List.mem_cons_self
      simp only [findOrCreateLevel, hlen, hnone, hlen', hok.resolve_left hp, Bool.false_eq_true,
        if_false, Fallible.ok_bind]
      rw [insertIdx_append_length]
    · exact ⟨Queue.empty _, by simp, by simp, rfl⟩
    · intro y hy
      exact lt_of_le_of_ne (hB y hy) fun e => hne y hy (Side.rank_inj.mp e).symm

/-- With a new price and no room for a level, the assertion fails. -/
theorem findOrCreateLevel_full (h : LevelsRep mem s L P) {full : Fault}
    {build : Build} {p : UInt32} {f : Fault} (hp : p ∉ P.map Resting.price)
    (hf : assertThat build (levelCount P < kDefaultMaxPriceLevels) full = .error f) :
    findOrCreateLevel before full build L p = .error f := by
  have hnone : (L[lowerBound before L p]?.any fun pl => pl.price == p) = false := by
    cases hL : L[lowerBound before L p]? with
    | none => rfl
    | some pl =>
      have hmem : pl.price ∈ L.map PriceLevel.price :=
        List.mem_map_of_mem (List.mem_of_getElem? hL)
      have hne : pl.price ≠ p := fun e => hp ((h.mem_price p).mpr (e ▸ hmem))
      simpa using hne
  simp only [findOrCreateLevel, hnone, h.length_eq, hf, Bool.false_eq_true, if_false,
    Fallible.error_bind]

/-- Removing an order from one level's queue. -/
theorem LevelQueue.remove {pl : PriceLevel cap} {l r : List (Resting cap)} {e : Resting cap}
    (h : LevelQueue mem s pl (l ++ e :: r)) (hnd : ((l ++ e :: r).map Resting.slot).Nodup) :
    LevelQueue (pl.remove mem e.slot).2 s (pl.remove mem e.slot).1 (l ++ r) ∧
      (pl.remove mem e.slot).1.price = pl.price ∧ mem.SameData (pl.remove mem e.slot).2 ∧
      ∀ a, a ∉ (l ++ e :: r).map Resting.slot → (pl.remove mem e.slot).2 a = mem a := by
  have hqty : (mem e.slot).quantity = e.quantity :=
    congrArg Order.quantity (h.holds e (by simp))
  have hqueue : Queue mem.links pl.ends (l.map Resting.slot ++ e.slot :: r.map Resting.slot) := by
    simpa using h.queue
  obtain ⟨hq, hprice, htotal, hdata, hframe⟩ := pl.remove_spec hqueue (by simpa using hnd)
  refine ⟨⟨by simpa using hq, ?_, ?_, ?_⟩, hprice, hdata, by simpa using hframe⟩
  · intro x hx
    rw [hprice]
    exact h.price x (by simp only [List.mem_append, List.mem_cons] at hx ⊢; tauto)
  · intro x hx
    rw [hdata]
    exact h.holds x (by simp only [List.mem_append, List.mem_cons] at hx ⊢; tauto)
  · rw [htotal, h.total, hqty]
    simp only [List.map_append, List.map_cons, List.sum_append, List.sum_cons]
    grind

/-- A fill lowers the head's quantity and the level's counter alike. -/
theorem LevelQueue.fillHead {pl : PriceLevel cap} {q : List (Resting cap)} {e : Resting cap}
    (h : LevelQueue mem s pl (e :: q)) (hnd : ((e :: q).map Resting.slot).Nodup) (f : UInt32) :
    LevelQueue (mem.setQuantity e.slot (e.quantity - f)) s
      { pl with totalQuantity := pl.totalQuantity - f }
      ({ e with quantity := e.quantity - f } :: q) := by
  have hne : ∀ x ∈ q, x.slot ≠ e.slot := fun x hx he =>
    (List.nodup_cons.mp hnd).1 (he ▸ List.mem_map_of_mem hx)
  refine ⟨?_, ?_, ?_, ?_⟩
  · rw [Orders.links_setQuantity]
    exact h.queue
  · intro x hx
    rcases List.mem_cons.mp hx with rfl | hx
    · exact h.price e List.mem_cons_self
    · exact h.price x (List.mem_cons_of_mem _ hx)
  · intro x hx
    rcases List.mem_cons.mp hx with rfl | hx
    · have he := h.holds e List.mem_cons_self
      rw [Orders.setQuantity_self]
      exact congrArg (fun o : Order cap => { o with quantity := e.quantity - f }) he
    · rw [Orders.setQuantity_of_ne _ _ _ _ (hne x hx)]
      exact h.holds x (List.mem_cons_of_mem _ hx)
  · simp only [h.total, List.map_cons, List.sum_cons]
    grind

variable {pool : OrderPool cap}

/-- Adding the order of a fresh slot at its opened level inserts it into the priority list. -/
theorem addAt_spec {A B : List (PriceLevel cap)} {pl : PriceLevel cap}
    {PA q PB : List (Resting cap)} {e : Resting cap}
    (h : Opened pool.orders s e.price A pl B PA q PB)
    (he : (pool.orders e.slot).unlinked = e.order s)
    (hnd : ((PB ++ q ++ PA).map Resting.slot).Nodup)
    (hfresh : e.slot ∉ (PB ++ q ++ PA).map Resting.slot) :
    ∃ L' orders', OrderBook.addAt (A ++ pl :: B) A.length pool e.slot =
        .ok (L', { pool with orders := orders' }) ∧
      LevelsRep orders' s L' (insertLast (Resting.rank s) e (PB ++ q ++ PA)) ∧
      ∀ a, a ≠ e.slot → a ∉ (PB ++ q ++ PA).map Resting.slot → orders' a = pool.orders a := by
  simp only [List.map_append, List.mem_append, not_or] at hfresh
  obtain ⟨⟨hfB, hfq⟩, hfA⟩ := hfresh
  simp only [List.map_append] at hnd
  obtain ⟨hndBq, -, hdA⟩ := List.nodup_append.mp hnd
  obtain ⟨-, hndq, hdB⟩ := List.nodup_append.mp hndBq
  obtain ⟨pl', orders', hadd, hq, hprice, htotal, hdata, hframe⟩ :=
    pl.addToTail_spec h.level.queue hndq hfq
  have hAq : ∀ x ∈ PA, orders' x.slot = pool.orders x.slot := fun x hx =>
    hframe _ (fun e => hfA (e ▸ List.mem_map_of_mem hx)) fun hm =>
      hdA _ (List.mem_append_right _ hm) _ (List.mem_map_of_mem hx) rfl
  have hBq : ∀ x ∈ PB, orders' x.slot = pool.orders x.slot := fun x hx =>
    hframe _ (fun e => hfB (e ▸ List.mem_map_of_mem hx)) fun hm =>
      hdB _ (List.mem_map_of_mem hx) _ hm rfl
  have hqty : (pool.orders e.slot).quantity = e.quantity := congrArg Order.quantity he
  have ho : Opened orders' s e.price A pl' B PA (q ++ [e]) PB := by
    refine ⟨hprice.trans h.price, h.worse.frame hAq, ⟨by simpa using hq, ?_, ?_, ?_⟩,
      h.better.frame hBq, h.lt_worse, h.lt_better⟩
    · intro x hx
      rcases List.mem_append.mp hx with hx | hx
      · exact (h.level.price x hx).trans hprice.symm
      · rw [List.mem_singleton.mp hx, hprice, h.price]
    · intro x hx
      rw [hdata]
      rcases List.mem_append.mp hx with hx | hx
      · exact h.level.holds x hx
      · rw [List.mem_singleton.mp hx]; exact he
    · rw [htotal, h.level.total, hqty]; simp
  refine ⟨A ++ pl' :: B, orders', ?_, ?_, ?_⟩
  · simp [OrderBook.addAt, hadd, pure, Except.pure]
  · rw [h.insertLast_eq rfl]
    exact ho.close (by simp)
  · intro a hae ha
    exact hframe a hae fun hm => ha (by simp only [List.map_append, List.mem_append]; tauto)

/-- Removing a queued order and closing an emptied level deletes it from the priority list. -/
theorem removeAt_spec (hb : Before s before) (build : Build) (h : LevelsRep pool.orders s L P)
    (hnd : (P.map Resting.slot).Nodup) {e : Resting cap} (he : e ∈ P) :
    ∃ L' orders', OrderBook.removeAt build L (lowerBound before L e.price) pool e.slot =
        .ok (L', { pool with orders := orders' }) ∧
      LevelsRep orders' s L' (P.filter fun x => x.slot ≠ e.slot) ∧
      ∀ a, a ∉ P.map Resting.slot → orders' a = pool.orders a := by
  obtain ⟨A, pl, B, rfl, hlen, hpl⟩ := lowerBound_found hb h.pairwise
    ((h.mem_price e.price).mp (List.mem_map_of_mem he))
  have hheld : (pool.orders e.slot).unlinked = e.order s := h.holds he
  have hprice : (pool.orders e.slot).price = e.price := congrArg Order.price hheld
  obtain ⟨PA, q, PB, rfl, -, ho⟩ := h.opened
  -- the order sits in the opened level: the other levels have other prices
  have heq : e ∈ q := by
    rcases List.mem_append.mp he with he | he
    · rcases List.mem_append.mp he with he | he
      · exact absurd (ho.better.lt_rank_of_forall ho.lt_better he) (by rw [hpl]; exact lt_irrefl _)
      · exact he
    · exact absurd (ho.worse.rank_lt_of_forall ho.lt_worse he) (by rw [hpl]; exact lt_irrefl _)
  obtain ⟨l, r, rfl⟩ := List.append_of_mem heq
  have hfilter : ((PB ++ (l ++ e :: r) ++ PA).filter fun x => x.slot ≠ e.slot) =
      PB ++ (l ++ r) ++ PA := by
    have hnd' : ((PB ++ l ++ e :: (r ++ PA)).map Resting.slot).Nodup := by simpa using hnd
    simpa using filter_slot_ne hnd'
  simp only [List.map_append] at hnd
  obtain ⟨hndBq, -, hdA⟩ := List.nodup_append.mp hnd
  obtain ⟨-, hndq, hdB⟩ := List.nodup_append.mp hndBq
  obtain ⟨hl, hprice', -, hframe⟩ := ho.level.remove (by simpa using hndq)
  set pl' := (pl.remove pool.orders e.slot).1
  set orders' := (pl.remove pool.orders e.slot).2
  simp only [List.map_append] at hframe
  have hAq : ∀ x ∈ PA, orders' x.slot = pool.orders x.slot := fun x hx =>
    hframe _ fun hm => hdA _ (List.mem_append_right _ hm) _ (List.mem_map_of_mem hx) rfl
  have hBq : ∀ x ∈ PB, orders' x.slot = pool.orders x.slot := fun x hx =>
    hframe _ fun hm => hdB _ (List.mem_map_of_mem hx) _ hm rfl
  have ho' : Opened orders' s pl.price A pl' B PA (l ++ r) PB :=
    ⟨hprice', ho.worse.frame hAq, hl, ho.better.frame hBq, ho.lt_worse, ho.lt_better⟩
  refine ⟨if pl'.isEmpty then A ++ B else A ++ pl' :: B, orders', ?_, ?_, ?_⟩
  · simp only [OrderBook.removeAt, hlen, hprice]
    simp only [pure, Except.pure, List.getElem?_append_right le_rfl, Nat.sub_self,
      List.getElem?_cons_zero, Option.any_some, hpl, beq_self_eq_true, assertThat_true,
      Fallible.ok_bind, List.eraseIdx_append_of_length_le le_rfl, List.eraseIdx_cons_zero,
      List.set_append_right _ _ le_rfl, List.set_cons_zero]
    rfl
  · rw [hfilter]
    by_cases hlr : l ++ r = []
    · rw [if_pos (ho'.level.isEmpty_iff.mpr hlr), hlr, List.append_nil]
      exact ho'.drop
    · rw [if_neg fun e => hlr (ho'.level.isEmpty_iff.mp e)]
      exact ho'.close hlr
  · intro a ha
    refine hframe a fun hm => ha ?_
    simp only [List.map_append, List.mem_append] at hm ⊢
    exact Or.inl (Or.inr hm)

end Operations

end MarketMakerOps.Engine
