import Mathlib.Data.List.Sort
import Mathlib.Order.Defs.LinearOrder

/-!
# Price-time priority as a stable sort

Elements carry a key in a linear order; larger keys come first, and among equal
keys the earlier arrival comes first.

* `byPriority key l`: the arrival-ordered list `l` in priority order;
* `insertLast key a l`: `a` behind everything at least as good, the place of a
  newcomer (`byPriority_concat`);
* `best key l`: the earliest of the best elements, the head of the priority
  order (`best_eq_head?`);
* `Precedes key num`: larger keys first, smaller numbers among equals, the order
  a list numbered by arrival is put in (`byPriority_precedes`).
-/

namespace Priority

variable {α β κ : Type*} [LinearOrder κ] (key : α → κ)

/-- Larger keys first. -/
def Sorted (l : List α) : Prop := l.Pairwise fun a b => key b ≤ key a

/-- A newcomer goes behind everything at least as good. -/
def insertLast (a : α) (l : List α) : List α := l.orderedInsert (fun a b => key b < key a) a

/-- The arrival-ordered list `l` in priority order. -/
def byPriority (l : List α) : List α := l.insertionSort fun a b => key b ≤ key a

/-- The earliest of the best elements. -/
def best : List α → Option α
  | [] => none
  | a :: l => match best l with
    | none => some a
    | some b => if key a < key b then some b else some a

variable {key}

@[simp] theorem mem_insertLast {a b : α} {l : List α} :
    b ∈ insertLast key a l ↔ b = a ∨ b ∈ l := List.mem_orderedInsert _

theorem insertLast_perm (key : α → κ) (a : α) (l : List α) : (insertLast key a l).Perm (a :: l) :=
  List.perm_orderedInsert _ _ _

theorem insertLast_map {f : α → β} {k : β → κ} (hf : ∀ a, k (f a) = key a) (a : α)
    (l : List α) : (insertLast key a l).map f = insertLast k (f a) (l.map f) :=
  List.map_orderedInsert _ _ f l a (fun _ _ => by simp only [hf]) fun _ _ => by simp only [hf]

theorem insertLast_append {a : α} {l₁ l₂ : List α} (h₁ : ∀ b ∈ l₁, key a ≤ key b)
    (h₂ : ∀ b ∈ l₂, key b < key a) : insertLast key a (l₁ ++ l₂) = l₁ ++ a :: l₂ := by
  induction l₁ with
  | nil =>
    cases l₂ with
    | nil => rfl
    | cons b l => simp [insertLast, h₂ b]
  | cons b l ih =>
    have hb : ¬ key b < key a := not_lt.mpr (h₁ b List.mem_cons_self)
    have := ih fun c hc => h₁ c (List.mem_cons_of_mem _ hc)
    simp only [insertLast] at this
    simp [insertLast, hb, this]

/-- Every insertion point splits the list. -/
theorem insertLast_split (a : α) {l : List α} (h : Sorted key l) :
    ∃ l₁ l₂, l = l₁ ++ l₂ ∧ (∀ b ∈ l₁, key a ≤ key b) ∧ (∀ b ∈ l₂, key b < key a) ∧
      insertLast key a l = l₁ ++ a :: l₂ := by
  induction l with
  | nil => exact ⟨[], [], rfl, by simp, by simp, rfl⟩
  | cons b l ih =>
    obtain ⟨hb, hl⟩ := List.pairwise_cons.mp h
    by_cases hab : key b < key a
    · refine ⟨[], b :: l, rfl, by simp, ?_, by simp [insertLast, hab]⟩
      intro c hc
      rcases List.mem_cons.mp hc with rfl | hc
      · exact hab
      · exact lt_of_le_of_lt (hb c hc) hab
    · obtain ⟨l₁, l₂, rfl, h₁, h₂, he⟩ := ih hl
      refine ⟨b :: l₁, l₂, rfl, ?_, h₂, ?_⟩
      · intro c hc
        rcases List.mem_cons.mp hc with rfl | hc
        · exact not_lt.mp hab
        · exact h₁ c hc
      · simp only [insertLast] at he
        simp [insertLast, hab, he]

theorem Sorted.insertLast {l : List α} (h : Sorted key l) (a : α) :
    Sorted key (insertLast key a l) := by
  obtain ⟨l₁, l₂, rfl, h₁, h₂, he⟩ := insertLast_split a h
  rw [he]
  obtain ⟨hs₁, hs₂, hs⟩ := List.pairwise_append.mp h
  refine List.pairwise_append.mpr ⟨hs₁, List.pairwise_cons.mpr ⟨fun b hb => (h₂ b hb).le, hs₂⟩, ?_⟩
  intro b hb c hc
  rcases List.mem_cons.mp hc with rfl | hc
  · exact h₁ b hb
  · exact hs b hb c hc

theorem Sorted.sublist {l l' : List α} (h : Sorted key l) (hs : l'.Sublist l) : Sorted key l' :=
  List.Pairwise.sublist hs h

theorem sorted_byPriority (l : List α) : Sorted key (byPriority key l) := by
  have : IsTrans α fun a b => key b ≤ key a := ⟨fun _ _ _ h h' => h'.trans h⟩
  have : Std.Total fun a b : α => key b ≤ key a := ⟨fun a b => le_total (key b) (key a)⟩
  exact List.pairwise_insertionSort _ l

theorem perm_byPriority (l : List α) : (byPriority key l).Perm l := List.perm_insertionSort _ l

@[simp] theorem mem_byPriority {a : α} {l : List α} : a ∈ byPriority key l ↔ a ∈ l :=
  (perm_byPriority l).mem_iff

/-- Inserting an early and a late arrival commutes. -/
theorem insertLast_orderedInsert (a b : α) {l : List α} (h : Sorted key l) :
    insertLast key b (l.orderedInsert (fun x y => key y ≤ key x) a) =
      (insertLast key b l).orderedInsert (fun x y => key y ≤ key x) a := by
  induction l with
  | nil =>
    by_cases hab : key b ≤ key a
    · simp [insertLast, hab, not_lt.mpr hab]
    · simp [insertLast, hab, not_le.mp hab]
  | cons c l ih =>
    obtain ⟨hc, hl⟩ := List.pairwise_cons.mp h
    have ih := ih hl
    simp only [insertLast] at ih ⊢
    by_cases hca : key c ≤ key a <;> by_cases hcb : key c < key b <;>
      by_cases hba : key b ≤ key a <;> simp [hca, hcb, hba, not_lt.mpr, not_le.mp, ih]
    all_goals first
      | exact absurd (hcb.le.trans hba) hca
      | exact absurd ((not_lt.mp hcb).trans hca) hba

/-- A newcomer joins the priority order behind its equals. -/
theorem byPriority_concat (l : List α) (a : α) :
    byPriority key (l ++ [a]) = insertLast key a (byPriority key l) := by
  induction l with
  | nil => rfl
  | cons b l ih =>
    have hs : Sorted key (byPriority key l) := sorted_byPriority l
    have := insertLast_orderedInsert b a hs
    simp only [byPriority, List.cons_append, List.insertionSort_cons] at ih this ⊢
    rw [ih, this]

theorem best_eq_head? (l : List α) : best key l = (byPriority key l).head? := by
  induction l with
  | nil => rfl
  | cons a l ih =>
    simp only [best, ih, byPriority, List.insertionSort_cons]
    cases hs : l.insertionSort (fun a b => key b ≤ key a) with
    | nil => rfl
    | cons b t =>
      by_cases hab : key a < key b
      · simp [hab, not_le.mpr hab]
      · simp [hab, not_lt.mp hab]

theorem byPriority_map {f : α → β} {keyβ : β → κ} (hf : ∀ a, keyβ (f a) = key a) (l : List α) :
    byPriority keyβ (l.map f) = (byPriority key l).map f :=
  (List.map_insertionSort _ _ f l fun a _ b _ => by simp only [hf]).symm

theorem filter_orderedInsert (p : α → Bool) (a : α) {l : List α} (h : Sorted key l) :
    (l.orderedInsert (fun x y => key y ≤ key x) a).filter p =
      if p a then (l.filter p).orderedInsert (fun x y => key y ≤ key x) a else l.filter p := by
  induction l with
  | nil => by_cases hp : p a <;> simp [hp]
  | cons b l ih =>
    obtain ⟨hb, hl⟩ := List.pairwise_cons.mp h
    by_cases hba : key b ≤ key a
    · by_cases hp : p a
      · -- everything behind `b` is no better than `a` either
        have hall : ∀ c ∈ (b :: l).filter p, key c ≤ key a := by
          intro c hc
          rcases List.mem_cons.mp (List.mem_filter.mp hc).1 with rfl | hc
          · exact hba
          · exact (hb c hc).trans hba
        have hins : ((b :: l).filter p).orderedInsert (fun x y => key y ≤ key x) a =
            a :: (b :: l).filter p := by
          cases hf : (b :: l).filter p with
          | nil => rfl
          | cons c t => simp [hall c (hf ▸ List.mem_cons_self)]
        rw [if_pos hp, hins, List.orderedInsert_cons, if_pos hba, List.filter_cons_of_pos hp]
      · simp [hba, hp]
    · have ih := ih hl
      by_cases hpb : p b <;> by_cases hp : p a <;>
        simp only [hp, if_true, Bool.false_eq_true, if_false] at ih <;>
        simp [hba, hpb, hp, ih]

theorem byPriority_filter (p : α → Bool) (l : List α) :
    byPriority key (l.filter p) = (byPriority key l).filter p := by
  induction l with
  | nil => rfl
  | cons a l ih =>
    have hl : Sorted key (byPriority key l) := sorted_byPriority l
    have hs := filter_orderedInsert p a hl
    simp only [byPriority, List.insertionSort_cons] at ih hs ⊢
    rw [hs, ← ih]
    by_cases hp : p a <;> simp [hp]

/-! ## Precedence among numbered arrivals -/

/-- A larger key, or the same key and a smaller number. -/
def Precedes (key : α → κ) (num : α → ℕ) (a b : α) : Prop :=
  key b < key a ∨ key a = key b ∧ num a < num b

instance (key : α → κ) (num : α → ℕ) : DecidableRel (Precedes key num) := fun a b =>
  inferInstanceAs (Decidable (key b < key a ∨ key a = key b ∧ num a < num b))

section Precedence

variable {num : α → ℕ} {a b c : α} {l : List α}

theorem Precedes.trans (h : Precedes key num a b) (h' : Precedes key num b c) :
    Precedes key num a c := by
  rcases h with h | ⟨h, hn⟩
  · rcases h' with h' | ⟨h', -⟩
    · exact Or.inl (h'.trans h)
    · exact Or.inl (h' ▸ h)
  · rcases h' with h' | ⟨h', hn'⟩
    · exact Or.inl (h ▸ h')
    · exact Or.inr ⟨h.trans h', hn.trans hn'⟩

theorem Precedes.asymm (h : Precedes key num a b) : ¬ Precedes key num b a := by
  rcases h with h | ⟨h, hn⟩
  · rintro (h' | ⟨h', -⟩)
    · exact lt_asymm h h'
    · exact h.ne h'
  · rintro (h' | ⟨-, hn'⟩)
    · exact h'.ne h
    · exact lt_asymm hn hn'

/-- The earliest arrival takes its place ahead of its equals. -/
theorem precedes_orderedInsert (hl : l.Pairwise (Precedes key num)) (ha : ∀ b ∈ l, num a < num b) :
    (l.orderedInsert (fun x y => key y ≤ key x) a).Pairwise (Precedes key num) := by
  induction l with
  | nil => exact List.pairwise_singleton _ a
  | cons b l ih =>
    obtain ⟨hb, hl'⟩ := List.pairwise_cons.mp hl
    by_cases hba : key b ≤ key a
    · rw [List.orderedInsert_cons, if_pos hba]
      have hab : Precedes key num a b :=
        hba.lt_or_eq.imp id fun h => ⟨h.symm, ha b List.mem_cons_self⟩
      refine List.pairwise_cons.mpr ⟨fun c hc => ?_, hl⟩
      rcases List.mem_cons.mp hc with rfl | hc
      · exact hab
      · exact hab.trans (hb c hc)
    · rw [List.orderedInsert_cons, if_neg hba]
      refine List.pairwise_cons.mpr ⟨fun c hc => ?_,
        ih hl' fun c hc => ha c (List.mem_cons_of_mem _ hc)⟩
      rcases (List.mem_orderedInsert _).mp hc with rfl | hc
      · exact Or.inl (not_le.mp hba)
      · exact hb c hc

/-- The priority order of a list numbered by arrival. -/
theorem byPriority_precedes (hl : l.Pairwise fun a b => num a < num b) :
    (byPriority key l).Pairwise (Precedes key num) := by
  induction l with
  | nil => exact List.Pairwise.nil
  | cons a l ih =>
    obtain ⟨ha, hl⟩ := List.pairwise_cons.mp hl
    exact precedes_orderedInsert (ih hl) fun b hb => ha b (mem_byPriority.mp hb)

end Precedence

end Priority
