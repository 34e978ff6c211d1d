import Mathlib

/-!
# Outcomes of a C function

A C function that is called on given arguments does one of three things: it returns a value,
it ends the process through `exit`, or it has no defined behaviour (an access outside an
object, a read of something never written). `Outcome` is that three-way result as a monad, so
that a translated body can be read line by line against its source while a theorem of the form
`f x = .ok y` says that no statement on the way was undefined.
-/

/-- What a call does: return, leave through `exit` with its message, or nothing defined. -/
inductive Outcome (α : Type) where
  | ok (a : α)
  | exit (code : Nat) (message : String)
  | undefined
  deriving DecidableEq, Repr

namespace Outcome

variable {α β σ : Type}

/-- Sequencing: only a returned value reaches the next statement. -/
def bind (x : Outcome α) (f : α → Outcome β) : Outcome β :=
  match x with
  | ok a => f a
  | exit code message => exit code message
  | undefined => undefined

instance : Monad Outcome where
  pure := ok
  bind := bind

@[simp] theorem pure_eq (a : α) : (pure a : Outcome α) = ok a := rfl

@[simp] theorem ok_bind (a : α) (f : α → Outcome β) : (ok a >>= f) = f a := rfl

@[simp] theorem exit_bind (code : Nat) (message : String) (f : α → Outcome β) :
    (exit code message >>= f) = exit code message := rfl

@[simp] theorem undefined_bind (f : α → Outcome β) :
    (undefined >>= f) = undefined := rfl

instance : LawfulMonad Outcome :=
  LawfulMonad.mk' Outcome
    (by intro α x; cases x <;> rfl)
    (by intro α β a f; rfl)
    (by intro α β γ x f g; cases x <;> rfl)

/-- A sequence returns exactly when its first part returns and the rest does on that value. -/
theorem bind_eq_ok {x : Outcome α} {f : α → Outcome β} {b : β} :
    (x >>= f) = ok b ↔ ∃ a, x = ok a ∧ f a = ok b := by
  cases x with
  | ok a => simp
  | exit code message => simp
  | undefined => simp

/-- A sequence returns if its first part does, and the rest on whatever comes of it. -/
theorem exists_bind {x : Outcome α} {f : α → Outcome β} (hx : ∃ a, x = ok a)
    (hf : ∀ a, ∃ b, f a = ok b) : ∃ b, (x >>= f) = ok b := by
  obtain ⟨a, rfl⟩ := hx
  exact hf a

/-- The returned value, if there is one. -/
def toOption : Outcome α → Option α
  | ok a => some a
  | exit _ _ => none
  | undefined => none

theorem toOption_eq_some {x : Outcome α} {a : α} : x.toOption = some a ↔ x = ok a := by
  cases x <;> simp [toOption]

/-- Reading through an optional object: nothing there is undefined behaviour. -/
def ofOption : Option α → Outcome α
  | some a => ok a
  | none => undefined

@[simp] theorem ofOption_some (a : α) : ofOption (some a) = ok a := rfl

@[simp] theorem ofOption_none : ofOption (none : Option α) = undefined := rfl

theorem ofOption_eq_ok {x : Option α} {a : α} : ofOption x = ok a ↔ x = some a := by
  cases x <;> simp

/-- **Loop rule.** If the body returns wherever it refines an abstract state, and its result
refines the abstract body's, then the loop over a list returns and refines the abstract fold. -/
theorem foldlM_refines {ι τ : Type} {R : σ → τ → Prop} {body : σ → ι → Outcome σ}
    {f : τ → ι → τ} (hbody : ∀ s t x, R s t → ∃ s', body s x = ok s' ∧ R s' (f t x)) :
    ∀ (xs : List ι) (s : σ) (t : τ), R s t →
      ∃ s', xs.foldlM body s = ok s' ∧ R s' (xs.foldl f t) := by
  intro xs
  induction xs with
  | nil => intro s t h; exact ⟨s, rfl, h⟩
  | cons x xs ih =>
      intro s t h
      obtain ⟨s', hs', hR⟩ := hbody s t x h
      rw [List.foldlM_cons, hs', ok_bind, List.foldl_cons]
      exact ih s' (f t x) hR

end Outcome
