import Mathlib.Algebra.Order.BigOperators.Group.List
import Mathlib.Algebra.Order.Ring.Nat

/-!
# Handing out a quantity in order of precedence

A quantity `q` is handed out to a list of claims, each served in full before the
next one is served at all.

* `allot size q l`: every claim of `l` with what it gets, in turn;
* `share size before q l a`: what the claim `a` gets, told from the claims ahead
  of it alone;
* `allot_eq_share`: along a list in order of precedence the two agree;
* `ahead_served`: whoever gets anything leaves those ahead of it served in full.
-/

namespace Allotment

variable {α β : Type*} (size : α → ℕ)

/-- Serve the claims in turn. -/
def allot : ℕ → List α → List (α × ℕ)
  | _, [] => []
  | q, a :: l => (a, min (size a) q) :: allot (q - size a) l

section Share

variable (before : α → α → Prop) [DecidableRel before]

/-- The claims ahead of `a`, added up. -/
def ahead (l : List α) (a : α) : ℕ := ((l.filter fun b => before b a).map size).sum

/-- What those ahead of `a` leave to it. -/
def share (q : ℕ) (l : List α) (a : α) : ℕ := min (size a) (q - ahead size before l a)

end Share

variable {size}

theorem allot_map (f : β → α) (q : ℕ) (l : List β) :
    allot size q (l.map f) = (allot (fun b => size (f b)) q l).map (Prod.map f id) := by
  induction l generalizing q with
  | nil => rfl
  | cons b l ih => simp [allot, ih]

/-- Nobody gets more than the claim. -/
theorem allot_le {q : ℕ} {l : List α} {x : α × ℕ} (hx : x ∈ allot size q l) : x.2 ≤ size x.1 := by
  induction l generalizing q with
  | nil => cases hx
  | cons a l ih =>
    rcases List.mem_cons.mp hx with rfl | hx
    · exact min_le_left _ _
    · exact ih hx

/-- All that is there is handed out, unless all claims are met. -/
theorem sum_allot (q : ℕ) (l : List α) :
    ((allot size q l).map Prod.snd).sum = min (l.map size).sum q := by
  induction l generalizing q with
  | nil => simp [allot]
  | cons a l ih =>
    rw [allot, List.map_cons, List.sum_cons, ih, List.map_cons, List.sum_cons]
    omega

theorem allot_zero (l : List α) : allot size 0 l = l.map fun a => (a, 0) := by
  induction l with
  | nil => rfl
  | cons a l ih => simp [allot, ih]

variable {before : α → α → Prop} [DecidableRel before]

/-- Along a list in order of precedence, each claim gets its share. -/
theorem allot_eq_share (hasymm : ∀ a b, before a b → ¬ before b a) {l : List α}
    (hl : l.Pairwise before) (q : ℕ) :
    allot size q l = l.map fun a => (a, share size before q l a) := by
  induction l generalizing q with
  | nil => rfl
  | cons a l ih =>
    obtain ⟨ha, hl⟩ := List.pairwise_cons.mp hl
    have hfirst : ahead size before (a :: l) a = 0 := by
      have hnone : (a :: l).filter (fun b => before b a) = [] := by
        refine List.filter_eq_nil_iff.mpr fun b hb => ?_
        rw [decide_eq_true_eq]
        rcases List.mem_cons.mp hb with rfl | hb
        · exact fun h => hasymm b b h h
        · exact hasymm a b (ha b hb)
      rw [ahead, hnone]
      rfl
    have hrest : ∀ b ∈ l, ahead size before (a :: l) b = size a + ahead size before l b := by
      intro b hb
      rw [ahead, List.filter_cons_of_pos (by simpa using ha b hb), List.map_cons, List.sum_cons]
      rfl
    rw [allot, List.map_cons, ih hl, share, hfirst, Nat.sub_zero]
    refine congrArg _ (List.map_congr_left fun b hb => ?_)
    rw [share, share, hrest b hb, Nat.sub_sub]

/-- Whoever is ahead of a claim that gets anything is served in full. -/
theorem ahead_served (htrans : ∀ a b c, before a b → before b c → before a c)
    (hasymm : ∀ a b, before a b → ¬ before b a) {q : ℕ} {l : List α} {a b : α} (hb : b ∈ l)
    (hba : before b a) (ha : 0 < share size before q l a) :
    share size before q l b = size b := by
  have hle : ahead size before l b + size b ≤ ahead size before l a := by
    obtain ⟨A, B, rfl⟩ := List.append_of_mem hb
    have hmono : ∀ m : List α, ahead size before m b ≤ ahead size before m a := fun m =>
      ((List.monotone_filter_right m fun c hc => by
        rw [decide_eq_true_eq] at hc ⊢
        exact htrans c b a hc hba).map size).sum_le_sum fun _ _ => Nat.zero_le _
    have hA := hmono A
    have hB := hmono B
    have hself : ¬ before b b := fun h => hasymm b b h h
    simp only [ahead, List.filter_append, List.filter_cons, hself, hba, decide_true, decide_false,
      if_true, Bool.false_eq_true, if_false, List.map_append, List.map_cons, List.sum_append,
      List.sum_cons] at hA hB ⊢
    omega
  rw [share] at ha ⊢
  omega

/-- Where there is enough for all, each claim is met. -/
theorem share_of_sum_le {q : ℕ} {l : List α} {a : α} (ha : a ∈ l) (hself : ¬ before a a)
    (hq : (l.map size).sum ≤ q) : share size before q l a = size a := by
  have hle : ahead size before l a + size a ≤ (l.map size).sum := by
    obtain ⟨A, B, rfl⟩ := List.append_of_mem ha
    have hmono : ∀ m : List α, ahead size before m a ≤ (m.map size).sum := fun m =>
      (List.filter_sublist.map size).sum_le_sum fun _ _ => Nat.zero_le _
    have hA := hmono A
    have hB := hmono B
    simp only [ahead, List.filter_append, List.filter_cons, hself, decide_false,
      Bool.false_eq_true, if_false, List.map_append, List.map_cons, List.sum_append,
      List.sum_cons] at hA hB ⊢
    omega
  rw [share]
  omega

end Allotment
