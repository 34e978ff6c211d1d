import Mathlib
import Cs342.Library.Loop

/-!
# Computations with a bound

A computation that may go on for ever is given a bound on the rounds of its loops and the depth of
its calls, and is given up where the bound is too small. What it does without a bound is said in two
parts: `Within` is partial correctness, for every bound, and `Returns` says what it comes to as soon
as the bound is large enough.
-/

/-- A result for every bound, or none where the computation is given up. -/
def Bounded (α : Type) := Nat → Outcome (Option α)

namespace Bounded

variable {α β σ : Type}

instance : Monad Bounded where
  pure a := fun _ => .ok (some a)
  bind x f := fun fuel => do
    let some a ← x fuel | return none
    f a fuel

/-- A computation without loops needs no bound. -/
instance : MonadLift Outcome Bounded where
  monadLift x := fun _ => do
    let a ← x
    return some a

/-- A computation that takes its bound as an argument. -/
def of (x : Nat → Outcome (Option α)) : Bounded α := x

def loop (round : σ → Outcome (ForInStep σ)) (s : σ) : Bounded σ := fun fuel => Loop.run round fuel s

/-- With no bound is the computation undefined, and a result has the property. -/
def Within (x : Bounded α) (P : α → Prop) : Prop :=
  ∀ fuel, x fuel = .ok none ∨ ∃ a, x fuel = .ok (some a) ∧ P a

/-- The result, with every bound that is large enough. -/
def Returns (x : Bounded α) (a : α) : Prop := ∃ enough, ∀ fuel ≥ enough, x fuel = .ok (some a)

section Rules

variable {x : Bounded α} {f : α → Bounded β} {P : α → Prop} {Q : β → Prop} {a : α} {b : β}
  {fuel : Nat}

theorem bind_eq_some : (x >>= f) fuel = .ok (some b) ↔
    ∃ a, x fuel = .ok (some a) ∧ f a fuel = .ok (some b) := by
  show (x fuel >>= _) = _ ↔ _
  rw [Outcome.bind_eq_ok]
  constructor
  · rintro ⟨_ | a, hx, hf⟩
    · cases hf
    · exact ⟨a, hx, hf⟩
  · rintro ⟨a, hx, hf⟩
    exact ⟨some a, hx, hf⟩

theorem within_pure (h : P a) : (pure a : Bounded α).Within P := fun _ => .inr ⟨a, rfl, h⟩

/-- **Rule of composition.** -/
theorem Within.bind (hx : x.Within P) (hf : ∀ a, P a → (f a).Within Q) : (x >>= f).Within Q := by
  intro fuel
  rcases hx fuel with hnone | ⟨a, hsome, ha⟩
  · refine .inl ?_
    show (x fuel >>= _) = _
    rw [hnone]
    rfl
  · rcases hf a ha fuel with hnone | ⟨b, hb, hQ⟩
    · refine .inl ?_
      show (x fuel >>= _) = _
      rw [hsome]
      exact hnone
    · exact .inr ⟨b, bind_eq_some.mpr ⟨a, hsome, hb⟩, hQ⟩

theorem Within.of_some (h : x.Within P) (hsome : x fuel = .ok (some a)) : P a := by
  rcases h fuel with hnone | ⟨b, hb, hP⟩
  · cases hnone.symm.trans hsome
  · cases hb.symm.trans hsome
    exact hP

theorem returns_pure (a : α) : (pure a : Bounded α).Returns a := ⟨0, fun _ _ => rfl⟩

theorem returns_lift {y : Outcome α} (h : y = .ok a) : (liftM y : Bounded α).Returns a := by
  subst h
  exact ⟨0, fun _ _ => rfl⟩

theorem Returns.bind (hx : x.Returns a) (hf : (f a).Returns b) : (x >>= f).Returns b := by
  obtain ⟨enough, hx⟩ := hx
  obtain ⟨enough', hf⟩ := hf
  refine ⟨max enough enough', fun fuel hfuel => bind_eq_some.mpr ⟨a, ?_, ?_⟩⟩
  · exact hx fuel (le_trans (le_max_left _ _) hfuel)
  · exact hf fuel (le_trans (le_max_right _ _) hfuel)

theorem Returns.within (h : x.Returns a) (hP : x.Within P) : P a := by
  obtain ⟨enough, hx⟩ := h
  exact hP.of_some (hx enough le_rfl)

/-- A computation that needs a certain bound, and no more. -/
theorem within_of_eq {least : Nat} (h : ∀ fuel, x fuel = .ok (if least ≤ fuel then some a else none))
    (hP : P a) : x.Within P := by
  intro fuel
  rw [h]
  split
  · exact .inr ⟨a, rfl, hP⟩
  · exact .inl rfl

theorem returns_of_eq {least : Nat}
    (h : ∀ fuel, x fuel = .ok (if least ≤ fuel then some a else none)) : x.Returns a :=
  ⟨least, fun fuel hfuel => by rw [h, if_pos hfuel]⟩

end Rules

/-! ## Loops -/

section Loops

variable {round : σ → Outcome (ForInStep σ)} {s t : σ} {P Q : σ → Prop}

/-- **Loop rule**: from every state of the invariant a round is defined, and keeps the invariant or
leaves the loop with the property. -/
theorem within_loop (hround : ∀ s, P s → (∃ t, round s = .ok (.yield t) ∧ P t) ∨
    ∃ t, round s = .ok (.done t) ∧ Q t) (hs : P s) : (loop round s).Within Q := by
  intro fuel
  induction fuel generalizing s with
  | zero => exact .inl rfl
  | succ fuel ih =>
      rcases hround s hs with ⟨t, hyield, ht⟩ | ⟨t, hdone, ht⟩
      · have hrun : loop round s (fuel + 1) = loop round t fuel := Loop.run_of_yield hyield fuel
        rw [hrun]
        exact ih ht
      · exact .inr ⟨t, Loop.run_of_done hdone fuel, ht⟩

theorem returns_of_exits (h : Loop.Exits round s t) : (loop round s).Returns t := by
  refine h.induction (P := fun s => (loop round s).Returns t) (fun s hdone => ?_)
    (fun s s' hyield _ ih => ?_)
  · refine ⟨1, fun fuel hfuel => ?_⟩
    rw [← Nat.sub_add_cancel hfuel]
    exact Loop.run_of_done hdone _
  · obtain ⟨enough, hrun⟩ := ih
    refine ⟨enough + 1, fun fuel hfuel => ?_⟩
    rw [← Nat.sub_add_cancel (le_trans (Nat.le_add_left 1 enough) hfuel)]
    exact (Loop.run_of_yield hyield _).trans (hrun _ (by omega))

/-- A loop that ends is defined all the way. -/
theorem within_of_exits (h : Loop.Exits round s t) : (loop round s).Within (· = t) := by
  refine within_loop (P := fun s => Loop.Exits round s t) (fun s hs => ?_) h
  rcases Loop.exits_iff.mp hs with hdone | ⟨s', hyield, hrest⟩
  · exact .inr ⟨t, hdone, rfl⟩
  · exact .inl ⟨s', hyield, hrest⟩

end Loops

/-! ## Loops of loops -/

section Nested

variable {τ : Type}

/-- The rounds of a loop, given up after `n` of them. -/
def rounds (round : σ → Bounded (ForInStep σ)) (fuel : Nat) : Nat → σ → Outcome (Option σ)
  | 0, _ => .ok none
  | n + 1, s => do
    match ← round s fuel with
    | none => return none
    | some (.done t) => return some t
    | some (.yield s) => rounds round fuel n s

/-- A loop with rounds that need a bound themselves. -/
def nested (round : σ → Bounded (ForInStep σ)) (s : σ) : Bounded σ :=
  fun fuel => rounds round fuel fuel s

variable {round : τ → Outcome (ForInStep τ)} {round' : σ → Bounded (ForInStep σ)}
  {R : τ → σ → Prop} {s t : τ} {s' : σ}

/-- **Simulation**: if every round of a loop is matched by one that returns, then so is the loop. -/
theorem returns_nested
    (hdone : ∀ s t s', round s = .ok (.done t) → R s s' →
      ∃ t', (round' s').Returns (.done t') ∧ R t t')
    (hyield : ∀ s t s', round s = .ok (.yield t) → R s s' →
      ∃ t', (round' s').Returns (.yield t') ∧ R t t')
    (hexits : Loop.Exits round s t) (hR : R s s') :
    ∃ t', (nested round' s').Returns t' ∧ R t t' := by
  have hrounds : ∀ s', R s s' → ∃ t', R t t' ∧ ∃ enough, ∀ fuel ≥ enough, ∀ n ≥ enough,
      rounds round' fuel n s' = .ok (some t') := by
    refine hexits.induction (P := fun s => ∀ s', R s s' → ∃ t', R t t' ∧ ∃ enough, ∀ fuel ≥ enough,
      ∀ n ≥ enough, rounds round' fuel n s' = .ok (some t')) (fun s hround s' hR => ?_)
      (fun s u hround _ ih s' hR => ?_)
    · obtain ⟨t', ⟨enough, hreturns⟩, ht⟩ := hdone s t s' hround hR
      refine ⟨t', ht, enough + 1, fun fuel hfuel n hn => ?_⟩
      obtain ⟨n, rfl⟩ := Nat.exists_eq_add_of_le' (le_trans (Nat.le_add_left 1 enough) hn)
      rw [rounds, hreturns fuel (by omega)]
      rfl
    · obtain ⟨u', ⟨enough, hreturns⟩, hu⟩ := hyield s u s' hround hR
      obtain ⟨t', ht, enough', hrest⟩ := ih u' hu
      refine ⟨t', ht, max enough enough' + 1, fun fuel hfuel n hn => ?_⟩
      obtain ⟨n, rfl⟩ := Nat.exists_eq_add_of_le' (le_trans (Nat.le_add_left 1 _) hn)
      rw [rounds, hreturns fuel (by omega)]
      exact hrest fuel (by omega) n (by omega)
  obtain ⟨t', ht, enough, hreturns⟩ := hrounds s' hR
  exact ⟨t', ⟨enough, fun fuel hfuel => hreturns fuel hfuel fuel hfuel⟩, ht⟩

end Nested

end Bounded
