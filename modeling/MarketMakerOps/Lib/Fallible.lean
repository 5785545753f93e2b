import Mathlib.Data.List.Basic

/-!
# Fallible steps and their runs

* `Sim R x y`: two fallible results agree, both failing with the same error or
  both succeeding with values related by `R`; closed under `bind` and runs;
* `run_inv`: an invariant kept by every successful step holds after every run;
* `run_total`: a run whose every input is allowed where it is used succeeds.
-/

namespace Fallible

universe u

variable {ε ι : Type*} {α β γ δ : Type u}

/-- Both fail alike, or both succeed with related values. -/
def Sim (R : α → β → Prop) : Except ε α → Except ε β → Prop
  | .ok a, .ok b => R a b
  | .error e, .error f => e = f
  | _, _ => False

theorem Sim.ok {R : α → β → Prop} {a : α} {b : β} (h : R a b) :
    Sim R (Except.ok a : Except ε α) (Except.ok b) := h

theorem Sim.bind {R : α → β → Prop} {S : γ → δ → Prop} {x : Except ε α} {y : Except ε β}
    {f : α → Except ε γ} {g : β → Except ε δ} (h : Sim R x y)
    (hf : ∀ a b, R a b → Sim S (f a) (g b)) : Sim S (x >>= f) (y >>= g) := by
  cases x with
  | error e =>
    cases y with
    | error e' => exact h
    | ok b => exact h.elim
  | ok a =>
    cases y with
    | error e' => exact h.elim
    | ok b => exact hf a b h

/-- The same where what follows on the right has an input found on the way. -/
theorem Sim.bind_exists {κ : Type*} [Nonempty κ] {R : α → β → Prop} {S : γ → δ → Prop}
    {x : Except ε α} {y : Except ε β} {f : α → Except ε γ} {g : κ → β → Except ε δ} (h : Sim R x y)
    (hf : ∀ a b, R a b → ∃ k, Sim S (f a) (g k b)) : ∃ k, Sim S (x >>= f) (y >>= g k) := by
  cases x with
  | error e =>
    cases y with
    | error e' => exact ⟨Classical.arbitrary κ, h⟩
    | ok b => exact h.elim
  | ok a =>
    cases y with
    | error e' => exact h.elim
    | ok b => exact hf a b h

theorem Sim.of_ok_right {R : α → β → Prop} {x : Except ε α} {y : Except ε β} {b : β}
    (h : Sim R x y) (hy : y = .ok b) : ∃ a, x = .ok a ∧ R a b := by
  subst hy
  cases x with
  | error e => exact h.elim
  | ok a => exact ⟨a, rfl, h⟩

theorem Sim.of_ok_left {R : α → β → Prop} {x : Except ε α} {y : Except ε β} {a : α}
    (h : Sim R x y) (hx : x = .ok a) : ∃ b, y = .ok b ∧ R a b := by
  subst hx
  cases y with
  | error e => exact h.elim
  | ok b => exact ⟨b, rfl, h⟩

theorem Sim.of_error_right {R : α → β → Prop} {x : Except ε α} {y : Except ε β} {e : ε}
    (h : Sim R x y) (hy : y = .error e) : x = .error e := by
  subst hy
  cases x with
  | error e' => exact congrArg _ h
  | ok a => exact h.elim

theorem Sim.of_error_left {R : α → β → Prop} {x : Except ε α} {y : Except ε β} {e : ε}
    (h : Sim R x y) (hx : x = .error e) : y = .error e := by
  subst hx
  cases y with
  | error e' => exact congrArg _ (Eq.symm h)
  | ok b => exact h.elim

@[simp] theorem ok_bind (a : α) (f : α → Except ε β) : (Except.ok a >>= f) = f a := rfl

@[simp] theorem error_bind (e : ε) (f : α → Except ε β) :
    (Except.error e >>= f) = .error e := rfl

theorem bind_eq_ok {x : Except ε α} {f : α → Except ε β} {b : β} :
    x >>= f = .ok b ↔ ∃ a, x = .ok a ∧ f a = .ok b := by
  constructor
  · intro h
    cases x with
    | error e => cases h
    | ok a => exact ⟨a, rfl, h⟩
  · rintro ⟨a, rfl, h⟩
    exact h

theorem ok_ne_error (b : β) (e : ε) : (Except.ok b : Except ε β) ≠ .error e := by
  intro h
  cases h

/-- An error is the first part's where the second has none. -/
theorem eq_error_of_bind {x : Except ε α} {f : α → Except ε β} {e : ε} (h : x >>= f = .error e)
    (hf : ∀ a, f a ≠ .error e) : x = .error e := by
  cases x with
  | error e' =>
    cases h
    rfl
  | ok a => exact absurd h (hf a)

/-- What is known of some result holds of the result. -/
theorem post_of_ok {x : Except ε α} {P : α → Prop} {a : α} (h : ∃ b, x = .ok b ∧ P b)
    (hx : x = .ok a) : P a := by
  obtain ⟨b, hb, hp⟩ := h
  have hab : b = a := Except.ok.inj (hb.symm.trans hx)
  exact hab ▸ hp

/-- What succeeds is followed by what succeeds then. -/
theorem bind_total {x : Except ε α} {f : α → Except ε β} {P : α → Prop} {Q : β → Prop}
    (hx : ∃ a, x = .ok a ∧ P a) (hf : ∀ a, P a → ∃ b, f a = .ok b ∧ Q b) :
    ∃ b, x >>= f = .ok b ∧ Q b := by
  obtain ⟨a, rfl, ha⟩ := hx
  exact hf a ha

/-- A result that passes a test is one. -/
theorem exists_ok {x : Except ε α} {p : α → Bool} (h : x.toOption.any p = true) :
    ∃ a, x = .ok a ∧ p a = true := by
  cases x with
  | error e => cases h
  | ok a => exact ⟨a, rfl, h⟩

/-- Run a fallible step over a list of inputs. -/
def run (step : α → ι → Except ε α) (a : α) (is : List ι) : Except ε α := is.foldlM step a

@[simp] theorem run_nil (step : α → ι → Except ε α) (a : α) : run step a [] = .ok a := rfl

@[simp] theorem run_cons (step : α → ι → Except ε α) (a : α) (i : ι) (is : List ι) :
    run step a (i :: is) = step a i >>= fun a => run step a is := rfl

theorem run_append (step : α → ι → Except ε α) (a : α) (is js : List ι) :
    run step a (is ++ js) = run step a is >>= fun a => run step a js := by
  simp [run, List.foldlM_append]

/-- An invariant kept by every successful step holds after every run. -/
theorem run_inv {step : α → ι → Except ε α} {Inv : α → Prop}
    (hstep : ∀ a i a', Inv a → step a i = .ok a' → Inv a') {a a' : α} {is : List ι}
    (h : Inv a) (hr : run step a is = .ok a') : Inv a' := by
  induction is generalizing a with
  | nil => cases hr; exact h
  | cons i is ih =>
    obtain ⟨b, hb, hr⟩ := bind_eq_ok.mp hr
    exact ih (hstep a i b h hb) hr

/-- The same where only the run's own inputs are known to keep it. -/
theorem run_inv_of_mem {step : α → ι → Except ε α} {Inv : α → Prop} {a a' : α} {is : List ι}
    (hstep : ∀ a a', Inv a → ∀ i ∈ is, step a i = .ok a' → Inv a') (h : Inv a)
    (hr : run step a is = .ok a') : Inv a' := by
  induction is generalizing a with
  | nil => cases hr; exact h
  | cons i is ih =>
    obtain ⟨b, hb, hr⟩ := bind_eq_ok.mp hr
    exact ih (fun a a' ha j hj => hstep a a' ha j (List.mem_cons_of_mem _ hj))
      (hstep a b h i List.mem_cons_self hb) hr

/-- Every input of the run meets `ok` in the state it is used in. -/
def Allowed (step : α → ι → Except ε α) (ok : α → ι → Prop) : α → List ι → Prop
  | _, [] => True
  | a, i :: is => ok a i ∧ ∀ a', step a i = .ok a' → Allowed step ok a' is

theorem allowed_cons {step : α → ι → Except ε α} {ok : α → ι → Prop} {a : α}
    {i : ι} {is : List ι} : Allowed step ok a (i :: is) ↔
      ok a i ∧ ∀ b ∈ (step a i).toOption, Allowed step ok b is := by
  have hmem : ∀ b, b ∈ (step a i).toOption ↔ step a i = .ok b := by
    intro b
    cases step a i <;> simp [Except.toOption]
  simp only [Allowed, hmem]

instance Allowed.decidable (step : α → ι → Except ε α) (ok : α → ι → Prop)
    [∀ a i, Decidable (ok a i)] (a : α) : (is : List ι) → Decidable (Allowed step ok a is)
  | [] => inferInstanceAs (Decidable True)
  | _ :: is =>
    have : ∀ b, Decidable (Allowed step ok b is) := fun b => Allowed.decidable step ok b is
    decidable_of_iff _ allowed_cons.symm

/-- An allowed run succeeds when allowed steps do, and keeps their invariant. -/
theorem run_total {step : α → ι → Except ε α} {Inv : α → Prop} {ok : α → ι → Prop}
    (hstep : ∀ a i, Inv a → ok a i → ∃ a', step a i = .ok a' ∧ Inv a') {a : α} {is : List ι}
    (h : Inv a) (hok : Allowed step ok a is) : ∃ a', run step a is = .ok a' ∧ Inv a' := by
  induction is generalizing a with
  | nil => exact ⟨a, rfl, h⟩
  | cons i is ih =>
    obtain ⟨b, hb, hinv⟩ := hstep a i h hok.1
    obtain ⟨a', hrun, ha'⟩ := ih hinv (hok.2 b hb)
    exact ⟨a', by rw [run_cons, hb]; exact hrun, ha'⟩

/-- Steps that keep an invariant are allowed throughout when it allows them. -/
theorem allowed_of_inv {step : α → ι → Except ε α} {Inv : α → Prop} {ok : α → ι → Prop}
    {a : α} {is : List ι} (h : Inv a) (hok : ∀ a, Inv a → ∀ i ∈ is, ok a i)
    (hstep : ∀ a a', Inv a → ∀ i ∈ is, step a i = .ok a' → Inv a') : Allowed step ok a is := by
  induction is generalizing a with
  | nil => trivial
  | cons i is ih =>
    refine ⟨hok a h i List.mem_cons_self, fun b hb => ?_⟩
    exact ih (hstep a b h i List.mem_cons_self hb)
      (fun a ha j hj => hok a ha j (List.mem_cons_of_mem _ hj))
      fun a a' ha j hj => hstep a a' ha j (List.mem_cons_of_mem _ hj)

theorem Allowed.append {step : α → ι → Except ε α} {ok : α → ι → Prop} {a : α} {is js : List ι}
    (h : Allowed step ok a is) (hj : ∀ b, run step a is = .ok b → Allowed step ok b js) :
    Allowed step ok a (is ++ js) := by
  induction is generalizing a with
  | nil => exact hj a rfl
  | cons i is ih =>
    refine ⟨h.1, fun b hb => ih (h.2 b hb) fun c hc => hj c ?_⟩
    rw [run_cons, hb]
    exact hc

/-- Two conditions that mean the same while an invariant holds, and
keep it, hold of the same runs. -/
theorem allowed_iff_of_inv (Inv : α → Prop) {step : α → ι → Except ε α} {ok p r : α → ι → Prop}
    {a : α} {is : List ι} (h : Inv a) (hok : Allowed step ok a is)
    (hiff : ∀ a i, Inv a → ok a i → (p a i ↔ r a i))
    (hstep : ∀ a i a', Inv a → r a i → step a i = .ok a' → Inv a') :
    Allowed step p a is ↔ Allowed step r a is := by
  induction is generalizing a with
  | nil => exact Iff.rfl
  | cons i is ih =>
    have hi := hiff a i h hok.1
    constructor
    · rintro ⟨hp, hrest⟩
      have hr := hi.mp hp
      exact ⟨hr, fun b hb => (ih (hstep a i b h hr hb) (hok.2 b hb)).mp (hrest b hb)⟩
    · rintro ⟨hr, hrest⟩
      exact ⟨hi.mpr hr, fun b hb => (ih (hstep a i b h hr hb) (hok.2 b hb)).mpr (hrest b hb)⟩

/-- Simulation of one step lifts to runs. -/
theorem Sim.run {R : α → β → Prop} {f : α → ι → Except ε α} {g : β → ι → Except ε β}
    (hstep : ∀ a b i, R a b → Sim R (f a i) (g b i)) {a : α} {b : β} (h : R a b)
    (is : List ι) : Sim R (Fallible.run f a is) (Fallible.run g b is) := by
  induction is generalizing a b with
  | nil => exact h
  | cons i is ih => exact (hstep a b i h).bind fun a b hab => ih hab

/-- Steps simulated by steps on inputs found on the way: so are runs, and what the inputs of the one
are allowed to be carries over. -/
theorem Sim.run_exists {κ : Type*} {R : α → β → Prop} {T : ι → κ → Prop} {ok : α → ι → Prop}
    {ok' : β → κ → Prop} {f : α → ι → Except ε α} {g : β → κ → Except ε β}
    (hstep : ∀ a b i, R a b → ∃ k, T i k ∧ Sim R (f a i) (g b k))
    (hok : ∀ a b i k, R a b → T i k → ok a i → ok' b k) {a : α} {b : β} (h : R a b) (is : List ι) :
    ∃ ks, List.Forall₂ T is ks ∧ Sim R (Fallible.run f a is) (Fallible.run g b ks) ∧
      (Allowed f ok a is → Allowed g ok' b ks) := by
  induction is generalizing a b with
  | nil => exact ⟨[], .nil, h, fun _ => trivial⟩
  | cons i is ih =>
    obtain ⟨k, hk, hsim⟩ := hstep a b i h
    cases hf : f a i with
    | error e =>
      have hg := hsim.of_error_left hf
      -- the run ends here, but the other inputs have their counterparts too
      have hrest : ∀ is : List ι, ∃ ks, List.Forall₂ T is ks := by
        intro is
        induction is with
        | nil => exact ⟨[], .nil⟩
        | cons j is ih =>
          obtain ⟨l, hl, -⟩ := hstep a b j h
          obtain ⟨ks, hks⟩ := ih
          exact ⟨l :: ks, .cons hl hks⟩
      obtain ⟨ks, hks⟩ := hrest is
      refine ⟨k :: ks, .cons hk hks, ?_, fun hal => ⟨hok a b i k h hk hal.1, fun b' hb' => ?_⟩⟩
      · rw [run_cons, run_cons, hf, hg]
        exact rfl
      · rw [hg] at hb'
        cases hb'
    | ok a' =>
      obtain ⟨b', hg, hR⟩ := hsim.of_ok_left hf
      obtain ⟨ks, hks, hrun, hallowed⟩ := ih hR
      refine ⟨k :: ks, .cons hk hks, ?_, fun hal => ⟨hok a b i k h hk hal.1, fun b'' hb'' => ?_⟩⟩
      · rw [run_cons, run_cons, hf, hg]
        exact hrun
      · rw [hg] at hb''
        cases hb''
        exact hallowed (hal.2 a' hf)

end Fallible
