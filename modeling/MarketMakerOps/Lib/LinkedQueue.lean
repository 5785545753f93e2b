import Mathlib.Data.List.Basic
import Mathlib.Data.List.Nodup
import Mathlib.Logic.Function.Basic

/-!
# Intrusive doubly linked queues

A memory of `next`/`prev` links over an arbitrary type of nodes, and the queues
threaded through it. Several queues live in one memory.

* `Seg m p q n`: the nodes `q` are linked in order, entered from `p`, left to `n`;
* `Queue m e q`: the end pointers `e` hold exactly the queue `q`;
* `Queue.pushBack`, `Queue.unlink`: the two pointer operations act on the queue
  as `q ++ [o]` and as deletion of `o`;
* `Queue.frame`: a queue is untouched by writes to other nodes;
* `FreeChain`: a singly linked stack through the same `next` field;
* `walk`: the nodes met by following `next`, which reads a queue or stack back.
-/

namespace LinkedQueue

variable {α : Type*}

/-- The two link fields of every node. -/
@[ext] structure Links (α : Type*) where
  next : α → Option α
  prev : α → Option α

/-- The end pointers of one queue. -/
@[ext] structure Ends (α : Type*) where
  head : Option α
  tail : Option α

namespace Links

section Writes

variable [DecidableEq α]

def setNext (m : Links α) (a : α) (x : Option α) : Links α :=
  { m with next := Function.update m.next a x }

def setPrev (m : Links α) (a : α) (x : Option α) : Links α :=
  { m with prev := Function.update m.prev a x }

@[simp] theorem setNext_next (m : Links α) (a b : α) (x : Option α) :
    (m.setNext a x).next b = if b = a then x else m.next b := by
  simp [setNext, Function.update_apply]

@[simp] theorem setNext_prev (m : Links α) (a : α) (x : Option α) :
    (m.setNext a x).prev = m.prev := rfl

@[simp] theorem setPrev_prev (m : Links α) (a b : α) (x : Option α) :
    (m.setPrev a x).prev b = if b = a then x else m.prev b := by
  simp [setPrev, Function.update_apply]

@[simp] theorem setPrev_next (m : Links α) (a : α) (x : Option α) :
    (m.setPrev a x).next = m.next := rfl

end Writes

/-- Two memories agree on a node. -/
def AgreeAt (m m' : Links α) (a : α) : Prop := m'.next a = m.next a ∧ m'.prev a = m.prev a

end Links

open Links

/-! ## Segments -/

/-- The nodes `q` are linked in order; the node before them is `p`, the node after them `n`. -/
def Seg (m : Links α) : Option α → List α → Option α → Prop
  | _, [], _ => True
  | p, a :: q, n => m.prev a = p ∧ m.next a = q.head?.or n ∧ Seg m (some a) q n

theorem seg_append (m : Links α) (p : Option α) (q r : List α) (n : Option α) :
    Seg m p (q ++ r) n ↔ Seg m p q (r.head?.or n) ∧ Seg m (q.getLast?.or p) r n := by
  induction q generalizing p with
  | nil => simp [Seg]
  | cons a q ih =>
    simp only [List.cons_append, Seg, ih]
    have hh : (q ++ r).head?.or n = q.head?.or (r.head?.or n) := by
      cases q <;> simp
    have hl : (a :: q).getLast?.or p = q.getLast?.or (some a) := by
      cases q with
      | nil => rfl
      | cons b q => simp [List.getLast?_cons]
    rw [hh, hl]
    tauto

/-- A segment only depends on the links of its own nodes. -/
theorem Seg.congr {m m' : Links α} {p n : Option α} {q : List α}
    (h : Seg m p q n) (ha : ∀ a ∈ q, m.AgreeAt m' a) : Seg m' p q n := by
  induction q generalizing p with
  | nil => trivial
  | cons a q ih =>
    obtain ⟨hp, hn, hq⟩ := h
    obtain ⟨hn', hp'⟩ := ha a List.mem_cons_self
    exact ⟨hp'.trans hp, hn'.trans hn, ih hq fun b hb => ha b (List.mem_cons_of_mem _ hb)⟩

/-- The last node of a segment may be redirected. -/
theorem Seg.redirect_last [DecidableEq α] {m m' : Links α} {p n n' : Option α} {q : List α}
    (h : Seg m p q n) (hnd : q.Nodup)
    (hprev : ∀ a ∈ q, m'.prev a = m.prev a)
    (hnext : ∀ a ∈ q, m'.next a = if q.getLast? = some a then n' else m.next a) :
    Seg m' p q n' := by
  induction q generalizing p with
  | nil => trivial
  | cons a q ih =>
    obtain ⟨hp, hn, hq⟩ := h
    have hpa := hprev a List.mem_cons_self
    have hna := hnext a List.mem_cons_self
    cases q with
    | nil => exact ⟨hpa.trans hp, by simpa using hna, trivial⟩
    | cons b q =>
      have hab : a ∉ b :: q := (List.nodup_cons.mp hnd).1
      have hl : (a :: b :: q).getLast? ≠ some a := by
        rw [List.getLast?_cons_cons]
        exact fun e => hab (List.mem_of_getLast? e)
      refine ⟨hpa.trans hp, ?_, ?_⟩
      · rw [hna, if_neg hl, hn]; simp
      · apply ih hq (List.nodup_cons.mp hnd).2
        · exact fun c hc => hprev c (List.mem_cons_of_mem _ hc)
        · intro c hc
          rw [hnext c (List.mem_cons_of_mem _ hc), List.getLast?_cons_cons]

/-- The first node of a segment may be re-entered from elsewhere. -/
theorem Seg.redirect_head [DecidableEq α] {m m' : Links α} {p p' n : Option α} {q : List α}
    (h : Seg m p q n) (hnd : q.Nodup)
    (hprev : ∀ a ∈ q, m'.prev a = if q.head? = some a then p' else m.prev a)
    (hnext : ∀ a ∈ q, m'.next a = m.next a) :
    Seg m' p' q n := by
  cases q with
  | nil => trivial
  | cons a q =>
    obtain ⟨_, hn, hq⟩ := h
    refine ⟨by simpa using hprev a List.mem_cons_self,
      (hnext a List.mem_cons_self).trans hn, hq.congr fun b hb => ?_⟩
    have hba : a ≠ b := fun e => (List.nodup_cons.mp hnd).1 (e ▸ hb)
    have := hprev b (List.mem_cons_of_mem _ hb)
    simp only [List.head?_cons, Option.some.injEq, hba, if_false] at this
    exact ⟨hnext b (List.mem_cons_of_mem _ hb), this⟩

/-! ## Queues -/

/-- The end pointers `e` and the links hold exactly the queue `q`, null at both ends. -/
structure Queue (m : Links α) (e : Ends α) (q : List α) : Prop where
  head : e.head = q.head?
  tail : e.tail = q.getLast?
  seg : Seg m none q none

theorem Queue.frame {m m' : Links α} {e : Ends α} {q : List α} (h : Queue m e q)
    (ha : ∀ a ∈ q, m.AgreeAt m' a) : Queue m' e q :=
  ⟨h.head, h.tail, h.seg.congr ha⟩

theorem Queue.head_eq_none {m : Links α} {e : Ends α} {q : List α} (h : Queue m e q) :
    e.head = none ↔ q = [] := by rw [h.head]; simp

theorem Queue.empty (m : Links α) : Queue m ⟨none, none⟩ [] := ⟨rfl, rfl, trivial⟩

/-- The neighbours of a queued node are queued. -/
theorem Queue.neighbours {m : Links α} {e : Ends α} {l r : List α} {o : α}
    (h : Queue m e (l ++ o :: r)) : m.prev o = l.getLast? ∧ m.next o = r.head? := by
  have hs := (seg_append m none l (o :: r) none).mp h.seg
  obtain ⟨_, hp, hn, _⟩ := hs
  exact ⟨by simpa using hp, by simpa using hn⟩

variable [DecidableEq α]

/-- Append a node at the tail. -/
def pushBack (m : Links α) (e : Ends α) (o : α) : Links α × Ends α :=
  let m := (m.setNext o none).setPrev o e.tail
  match e.tail with
  | none => (m, ⟨some o, some o⟩)
  | some t => (m.setNext t (some o), { e with tail := some o })

/-- Take a node out of the queue it is in, clearing its links. -/
def unlink (m : Links α) (e : Ends α) (o : α) : Links α × Ends α :=
  let p := m.prev o
  let n := m.next o
  let m := p.elim m fun p => m.setNext p n
  let m := n.elim m fun n => m.setPrev n p
  ((m.setNext o none).setPrev o none,
    ⟨if p = none then n else e.head, if n = none then p else e.tail⟩)

/-- Pushing writes only to the new node and to the old tail. -/
theorem pushBack_agree (m : Links α) (e : Ends α) (o a : α) (ho : a ≠ o)
    (ht : e.tail ≠ some a) : m.AgreeAt (pushBack m e o).1 a := by
  cases e with
  | mk hd tl =>
    cases tl with
    | none => simp [pushBack, AgreeAt, ho]
    | some t =>
      have hat : a ≠ t := fun h => ht (by simp [h])
      simp [pushBack, AgreeAt, ho, hat]

/-- Push: the queue grows by one node at the tail. -/
theorem Queue.pushBack {m : Links α} {e : Ends α} {q : List α} {o : α}
    (h : Queue m e q) (hnd : q.Nodup) (ho : o ∉ q) :
    Queue (pushBack m e o).1 (pushBack m e o).2 (q ++ [o]) := by
  obtain ⟨hh, ht, hs⟩ := h
  rcases q.eq_nil_or_concat with rfl | ⟨q, t, rfl⟩
  · have htn : e.tail = none := by simpa using ht
    constructor <;> simp [LinkedQueue.pushBack, htn, Seg]
  · rw [List.concat_eq_append] at *
    have hts : e.tail = some t := by simpa using ht
    have hto : t ≠ o := fun e => ho (by simp [e])
    have hne : ∀ a ∈ q ++ [t], a ≠ o := fun a ha e => ho (e ▸ ha)
    refine ⟨?_, ?_, ?_⟩
    · simp only [LinkedQueue.pushBack, hts, hh]
      cases q <;> simp
    · simp [LinkedQueue.pushBack, hts]
    · rw [seg_append]
      refine ⟨?_, ?_⟩
      · apply hs.redirect_last hnd
        · intro a ha
          simp [LinkedQueue.pushBack, hts, hne a ha]
        · intro a ha
          simp [LinkedQueue.pushBack, hts, hne a ha, eq_comm]
      · simp [Seg, LinkedQueue.pushBack, hts, hto.symm]

/-- Unlinking writes only to the node and its two neighbours. -/
theorem unlink_agree (m : Links α) (e : Ends α) (o a : α) (ho : a ≠ o)
    (hp : m.prev o ≠ some a) (hn : m.next o ≠ some a) : m.AgreeAt (unlink m e o).1 a := by
  unfold unlink AgreeAt
  cases hprev : m.prev o with
  | none =>
    cases hnext : m.next o with
    | none => simp [ho]
    | some n =>
      have han : a ≠ n := fun h => hn (by simp [hnext, h])
      simp [ho, han]
  | some p =>
    have hap : a ≠ p := fun h => hp (by simp [hprev, h])
    cases hnext : m.next o with
    | none => simp [ho, hap]
    | some n =>
      have han : a ≠ n := fun h => hn (by simp [hnext, h])
      simp [ho, hap, han]

/-- Unlink: the queue loses exactly the node, from the head, the middle or the tail. -/
theorem Queue.unlink {m : Links α} {e : Ends α} {l r : List α} {o : α}
    (h : Queue m e (l ++ o :: r)) (hnd : (l ++ o :: r).Nodup) :
    Queue (unlink m e o).1 (unlink m e o).2 (l ++ r) := by
  obtain ⟨hp, hn⟩ := h.neighbours
  obtain ⟨hh, ht, hs⟩ := h
  obtain ⟨hsl, -, -, hsr⟩ := (seg_append m none l (o :: r) none).mp hs
  have hol : o ∉ l := fun hm => (List.nodup_append.mp hnd).2.2 o hm o List.mem_cons_self rfl
  have hor : o ∉ r := (List.nodup_cons.mp (List.nodup_append.mp hnd).2.1).1
  have hlr : ∀ a ∈ l, a ∉ r := fun a ha hb =>
    (List.nodup_append.mp hnd).2.2 a ha a (List.mem_cons_of_mem _ hb) rfl
  have hndl : l.Nodup := (List.nodup_append.mp hnd).1
  have hndr : r.Nodup := (List.nodup_cons.mp (List.nodup_append.mp hnd).2.1).2
  have hlast : ∀ a, l.getLast? = some a → a ∈ l := fun a => List.mem_of_getLast?
  have hhead : ∀ a, r.head? = some a → a ∈ r := fun a => List.mem_of_head?
  -- what the two writes leave in the links of the remaining nodes
  have hnext : ∀ a, a ≠ o → (LinkedQueue.unlink m e o).1.next a =
      if l.getLast? = some a then r.head? else m.next a := by
    intro a hao
    simp only [LinkedQueue.unlink, hp, hn]
    cases l.getLast? <;> cases r.head? <;> simp [hao, eq_comm]
  have hprev : ∀ a, a ≠ o → (LinkedQueue.unlink m e o).1.prev a =
      if r.head? = some a then l.getLast? else m.prev a := by
    intro a hao
    simp only [LinkedQueue.unlink, hp, hn]
    cases l.getLast? <;> cases r.head? <;> simp [hao, eq_comm]
  refine ⟨?_, ?_, ?_⟩
  · simp only [LinkedQueue.unlink, hp, hn, hh]
    cases l <;> simp
  · simp only [LinkedQueue.unlink, hp, hn, ht]
    rcases r.eq_nil_or_concat with rfl | ⟨r, t, rfl⟩
    · simp
    · simp [List.getLast?_append, List.getLast?_cons]
  · rw [seg_append]
    refine ⟨?_, ?_⟩
    · apply Seg.redirect_last (n := some o) (by simpa using hsl) hndl
      · intro a ha
        rw [hprev a (fun e => hol (e ▸ ha)), if_neg]
        exact fun e => hlr a ha (hhead a e)
      · intro a ha
        rw [hnext a (fun e => hol (e ▸ ha))]
        simp
    · apply Seg.redirect_head hsr hndr
      · intro a ha
        rw [hprev a (fun e => hor (e ▸ ha))]
        simp
      · intro a ha
        rw [hnext a (fun e => hor (e ▸ ha)), if_neg]
        exact fun e => hlr a (hlast a e) ha

/-! ## Free chains -/

/-- A stack of nodes linked through `next` alone, entered at `h`. -/
def FreeChain (next : α → Option α) : Option α → List α → Prop
  | h, [] => h = none
  | h, a :: l => h = some a ∧ FreeChain next (next a) l

omit [DecidableEq α] in
theorem FreeChain.congr {next next' : α → Option α} {h : Option α} {l : List α}
    (hc : FreeChain next h l) (ha : ∀ a ∈ l, next' a = next a) : FreeChain next' h l := by
  induction l generalizing h with
  | nil => exact hc
  | cons a l ih =>
    obtain ⟨h1, h2⟩ := hc
    refine ⟨h1, ?_⟩
    rw [ha a List.mem_cons_self]
    exact ih h2 fun b hb => ha b (List.mem_cons_of_mem _ hb)

/-- The first `n` nodes met by following `next`. -/
def walk (next : α → Option α) : Nat → Option α → List α
  | 0, _ => []
  | _ + 1, none => []
  | n + 1, some a => a :: walk next n (next a)

omit [DecidableEq α] in
theorem FreeChain.walk_eq {next : α → Option α} {h : Option α} {l : List α}
    (hc : FreeChain next h l) {n : Nat} (hn : l.length ≤ n) : walk next n h = l := by
  induction l generalizing h n with
  | nil =>
    rw [show h = none from hc]
    cases n <;> rfl
  | cons a l ih =>
    obtain ⟨k, rfl⟩ : ∃ k, n = k + 1 := ⟨n - 1, by simp at hn; omega⟩
    obtain ⟨rfl, hc⟩ := hc
    exact congrArg (a :: ·) (ih hc (by simpa using hn))

omit [DecidableEq α] in
theorem Seg.freeChain {m : Links α} {p : Option α} {q : List α} (h : Seg m p q none) :
    FreeChain m.next q.head? q := by
  induction q generalizing p with
  | nil => rfl
  | cons a q ih =>
    obtain ⟨-, hn, hq⟩ := h
    refine ⟨rfl, ?_⟩
    rw [hn, Option.or_none]
    exact ih hq

omit [DecidableEq α] in
/-- The links determine the chain. -/
theorem FreeChain.unique {next : α → Option α} {h : Option α} {l l' : List α}
    (hc : FreeChain next h l) (hc' : FreeChain next h l') : l = l' := by
  have hl := hc.walk_eq (Nat.le_add_right l.length l'.length)
  have hl' := hc'.walk_eq (Nat.le_add_left l'.length l.length)
  exact hl.symm.trans hl'

omit [DecidableEq α] in
/-- A segment that ends does not meet a node twice: the rest after both visits would be one. -/
theorem Seg.nodup {m : Links α} {p : Option α} {q : List α} (h : Seg m p q none) : q.Nodup := by
  induction q generalizing p with
  | nil => exact List.nodup_nil
  | cons a q ih =>
    obtain ⟨-, hn, hq⟩ := h
    refine List.nodup_cons.mpr ⟨fun ha => ?_, ih hq⟩
    obtain ⟨l, r, rfl⟩ := List.append_of_mem ha
    obtain ⟨-, -, hn', hr⟩ := (seg_append m (some a) l (a :: r) none).mp hq
    rw [Option.or_none] at hn hn'
    have hc := hr.freeChain
    rw [← hn', hn] at hc
    have hlen := congrArg List.length (hc.unique hq.freeChain)
    simp only [List.length_append, List.length_cons] at hlen
    omega

omit [DecidableEq α] in
theorem Queue.nodup {m : Links α} {e : Ends α} {q : List α} (h : Queue m e q) : q.Nodup :=
  h.seg.nodup

omit [DecidableEq α] in
/-- Following `next` from the head reads the queue. -/
theorem Queue.walk_eq {m : Links α} {e : Ends α} {q : List α} (h : Queue m e q) {n : Nat}
    (hn : q.length ≤ n) : walk m.next n e.head = q := by
  rw [h.head]
  exact h.seg.freeChain.walk_eq hn

end LinkedQueue
