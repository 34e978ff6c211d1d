import Mathlib
import Cs342.Library.Outcome

/-!
# Sequences of calls

A data structure with its operations: a call takes one state to the next, or does something
undefined. A property of states holds throughout a sequence of calls if every call returns and the
property is kept (`EachState`); a condition on calls, if every call meets it in the state that it
is made in (`EachStep`). Where the property is kept by exactly the calls that meet the condition,
the two are the same (`eachState_iff_eachStep`).
-/

namespace Calls

variable {σ ι : Type} (call : σ → ι → Outcome σ) (start : σ)

/-- The state after a sequence of calls. -/
def run (calls : List ι) : Outcome σ := calls.foldlM call start

/-- No call is undefined, and the property holds at the start and after each of them. -/
def EachState (P : σ → Prop) (calls : List ι) : Prop :=
  ∀ before, before <+: calls → ∃ s, run call start before = .ok s ∧ P s

/-- Each call is made in a state in which it meets the condition. -/
def EachStep (C : σ → ι → Prop) (calls : List ι) : Prop :=
  ∀ before c, before ++ [c] <+: calls → ∃ s, run call start before = .ok s ∧ C s c

variable {call start}

theorem run_append (before : List ι) (c : ι) :
    run call start (before ++ [c]) = run call start before >>= fun s => call s c := by
  simp only [run, List.foldlM_append, List.foldlM_cons, List.foldlM_nil, bind_pure]

/-- **Rule for sequences of calls.** -/
theorem eachState_iff_eachStep {P : σ → Prop} {C : σ → ι → Prop} {calls : List ι}
    (hstart : P start) (hstep : ∀ s c, P s → C s c → ∃ s', call s c = .ok s' ∧ P s')
    (hback : ∀ s c s', P s → call s c = .ok s' → P s' → C s c) :
    EachState call start P calls ↔ EachStep call start C calls := by
  constructor
  · intro h before c hprefix
    obtain ⟨s, hrun, hs⟩ := h before ((List.prefix_append _ _).trans hprefix)
    obtain ⟨s', hrun', hs'⟩ := h (before ++ [c]) hprefix
    rw [run_append, hrun, Outcome.ok_bind] at hrun'
    exact ⟨s, hrun, hback s c s' hs hrun' hs'⟩
  · intro h before
    induction before using List.reverseRecOn with
    | nil => exact fun _ => ⟨start, rfl, hstart⟩
    | append_singleton before c ih =>
        intro hprefix
        obtain ⟨s, hrun, hs⟩ := ih ((List.prefix_append _ _).trans hprefix)
        obtain ⟨t, hrun', hc⟩ := h before c hprefix
        cases hrun.symm.trans hrun'
        obtain ⟨s', hcall, hs'⟩ := hstep s c hs hc
        exact ⟨s', by rw [run_append, hrun, Outcome.ok_bind, hcall], hs'⟩

end Calls
