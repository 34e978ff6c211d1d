import Mathlib

/-!
# Labelled transition systems with a step function

A system of parties that take turns is given by its initial state and, for every label (which
party moves, which choice it makes), a partial step. Runs are then lists of labels, so a run on
a concrete schedule is a computation, and what holds over every schedule is an invariant.
-/

/-- A system: the state it starts in and what each label does, where it can happen. -/
structure System (σ ℓ : Type) where
  init : σ
  step : ℓ → σ → Option σ

namespace System

variable {σ ℓ : Type} (S : System σ ℓ)

/-- The state after a schedule, if every one of its labels can happen in turn. -/
def run : List ℓ → σ → Option σ
  | [], s => some s
  | l :: ls, s =>
    match S.step l s with
    | some s' => run ls s'
    | none => none

/-- The states some schedule leads to. -/
def Reachable (s : σ) : Prop := ∃ ls, S.run ls S.init = some s

/-- No party can move. -/
def Stuck (s : σ) : Prop := ∀ l, S.step l s = none

variable {S}

theorem run_cons {l : ℓ} {ls : List ℓ} {s s' : σ} (h : S.step l s = some s') :
    S.run (l :: ls) s = S.run ls s' := by
  simp [run, h]

theorem run_singleton (l : ℓ) (s : σ) : S.run [l] s = S.step l s := by
  cases h : S.step l s <;> simp [run, h]

theorem run_append (ls ms : List ℓ) (s : σ) :
    S.run (ls ++ ms) s = (S.run ls s).bind (S.run ms) := by
  induction ls generalizing s with
  | nil => rfl
  | cons l ls ih =>
      cases h : S.step l s with
      | none => simp [run, h]
      | some s' => simp [run, h, ih]

/-- Two runs in a row are one run. -/
theorem run_trans {ls ms : List ℓ} {s t u : σ} (h₁ : S.run ls s = some t)
    (h₂ : S.run ms t = some u) : S.run (ls ++ ms) s = some u := by
  rw [run_append, h₁]; exact h₂

theorem reachable_init : S.Reachable S.init := ⟨[], rfl⟩

theorem Reachable.step {s s' : σ} {l : ℓ} (h : S.Reachable s) (hs : S.step l s = some s') :
    S.Reachable s' := by
  obtain ⟨ls, hls⟩ := h
  exact ⟨ls ++ [l], run_trans hls (by simp [run, hs])⟩

theorem Reachable.run {s s' : σ} {ls : List ℓ} (h : S.Reachable s) (hs : S.run ls s = some s') :
    S.Reachable s' := by
  obtain ⟨ms, hms⟩ := h
  exact ⟨ms ++ ls, run_trans hms hs⟩

/-- What a step keeps, a run keeps. -/
theorem run_induction {P : σ → Prop} (hstep : ∀ s l s', P s → S.step l s = some s' → P s') :
    ∀ {ls : List ℓ} {s t : σ}, P s → S.run ls s = some t → P t := by
  intro ls
  induction ls with
  | nil => intro s t hs h; cases h; exact hs
  | cons l ls ih =>
      intro s t hs h
      cases hl : S.step l s with
      | none => simp [run, hl] at h
      | some s' =>
          rw [run_cons hl] at h
          exact ih (hstep s l s' hs hl) h

/-- What holds of a state and of the labels that have led there, by induction on the last one. -/
theorem history_induction {P : List ℓ → σ → Prop} {init : σ} (hinit : P [] init)
    (hstep : ∀ ls s l s', S.run ls init = some s → P ls s → S.step l s = some s' →
      P (ls ++ [l]) s') {ls : List ℓ} {s : σ} (hrun : S.run ls init = some s) : P ls s := by
  induction ls using List.reverseRecOn generalizing s with
  | nil => cases hrun; exact hinit
  | append_singleton ls l ih =>
      rw [run_append] at hrun
      obtain ⟨mid, hmid, hlast⟩ := Option.bind_eq_some_iff.mp hrun
      rw [run_singleton] at hlast
      exact hstep ls mid l s hmid (ih hmid) hlast

/-- What a step keeps short of an event, a run keeps short of one. -/
theorem run_until {P : σ → Prop} {Event : σ → σ → Prop}
    (hstep : ∀ s l s', P s → S.step l s = some s' → P s' ∨ Event s s') :
    ∀ {ls : List ℓ} {s t : σ}, P s → S.run ls s = some t →
      P t ∨ ∃ before l after u v, ls = before ++ l :: after ∧ S.run before s = some u ∧
        S.step l u = some v ∧ Event u v := by
  intro ls
  induction ls with
  | nil => intro s t hs h; cases h; exact Or.inl hs
  | cons l ls ih =>
      intro s t hs h
      cases hl : S.step l s with
      | none => simp [run, hl] at h
      | some s' =>
          rw [run_cons hl] at h
          rcases hstep s l s' hs hl with hs' | hevent
          · rcases ih hs' h with ht | ⟨before, l', after, u, v, rfl, hu, hv, hevent⟩
            · exact Or.inl ht
            · exact Or.inr ⟨l :: before, l', after, u, v, rfl, by rw [run_cons hl, hu], hv, hevent⟩
          · exact Or.inr ⟨[], l, ls, s, s', rfl, rfl, hl, hevent⟩

/-- Where every step commutes with a change of the state, so does every run. -/
theorem run_map {P : σ → Prop} {f : σ → σ}
    (hkeep : ∀ s l s', P s → S.step l s = some s' → P s')
    (hstep : ∀ s l, P s → S.step l (f s) = (S.step l s).map f) :
    ∀ {ls : List ℓ} {s : σ}, P s → S.run ls (f s) = (S.run ls s).map f := by
  intro ls
  induction ls with
  | nil => intro s _; rfl
  | cons l ls ih =>
      intro s hs
      have hl := hstep s l hs
      cases hnext : S.step l s with
      | none =>
          rw [hnext] at hl
          have hl : S.step l (f s) = none := hl
          simp [run, hl, hnext]
      | some s' =>
          rw [hnext] at hl
          have hl : S.step l (f s) = some (f s') := hl
          rw [run_cons hl, run_cons hnext]
          exact ih (hkeep s l s' hs hnext)

/-- How often a kind of step happens on the way. -/
def count (S : System σ ℓ) (event : σ → σ → Bool) : List ℓ → σ → Nat
  | [], _ => 0
  | l :: ls, s =>
    match S.step l s with
    | some s' => (event s s').toNat + S.count event ls s'
    | none => 0

theorem count_cons {event : σ → σ → Bool} {l : ℓ} {ls : List ℓ} {s s' : σ}
    (h : S.step l s = some s') :
    S.count event (l :: ls) s = (event s s').toNat + S.count event ls s' := by
  simp [count, h]

/-- **Counting rule.** Where a step changes a quantity by one if it is of a kind, and not at all
otherwise, the quantity counts these steps. -/
theorem count_eq (event : σ → σ → Bool) (quantity : σ → Nat) {P : σ → Prop}
    (hkeep : ∀ s l s', P s → S.step l s = some s' → P s')
    (hquantity : ∀ s l s', P s → S.step l s = some s' →
      quantity s' = quantity s + (event s s').toNat) :
    ∀ {ls : List ℓ} {s t : σ}, P s → S.run ls s = some t →
      quantity t = quantity s + S.count event ls s := by
  intro ls
  induction ls with
  | nil => intro s t _ h; cases h; rfl
  | cons l ls ih =>
      intro s t hs h
      cases hl : S.step l s with
      | none => simp [run, hl] at h
      | some s' =>
          rw [run_cons hl] at h
          have hrest := ih (hkeep s l s' hs hl) h
          have hfirst := hquantity s l s' hs hl
          rw [count_cons hl]
          omega

/-- **Invariant rule.** What holds initially and is kept by every step holds in every reachable
state. -/
theorem Reachable.invariant {P : σ → Prop} (hinit : P S.init)
    (hstep : ∀ s l s', P s → S.step l s = some s' → P s') {s : σ} (h : S.Reachable s) : P s := by
  obtain ⟨ls, hls⟩ := h
  exact run_induction hstep hinit hls

/-- **Refinement mapping.** Where every step of a system is one of another system or changes nothing
that it can see, reachable states are mapped to reachable ones. -/
theorem Reachable.map {τ m : Type} {T : System τ m} (f : σ → τ) (hinit : f S.init = T.init)
    (hstep : ∀ s l s', S.step l s = some s' → f s' = f s ∨ ∃ k, T.step k (f s) = some (f s'))
    {s : σ} (h : S.Reachable s) : T.Reachable (f s) := by
  apply h.invariant (P := fun s => T.Reachable (f s))
  · show T.Reachable (f S.init)
    rw [hinit]
    exact reachable_init
  · intro s l s' hs hl
    rcases hstep s l s' hl with hsame | ⟨k, hk⟩
    · rw [hsame]
      exact hs
    · exact hs.step hk

/-- **Progress rule.** Where moreover some step is possible short of a goal, a run gets there. -/
theorem exists_run {P : σ → Prop} {m : σ → Nat} {Goal : σ → Prop}
    (hkeep : ∀ s l s', P s → S.step l s = some s' → P s')
    (hlower : ∀ s l s', P s → S.step l s = some s' → m s' < m s)
    (hmove : ∀ s, P s → ¬ Goal s → ∃ l s', S.step l s = some s') {s : σ} (hs : P s) :
    ∃ ls t, S.run ls s = some t ∧ Goal t := by
  induction hn : m s using Nat.strong_induction_on generalizing s with
  | _ n ih =>
      by_cases hgoal : Goal s
      · exact ⟨[], s, rfl, hgoal⟩
      · obtain ⟨l, s', hl⟩ := hmove s hs hgoal
        obtain ⟨ls, t, hrun, ht⟩ :=
          ih (m s') (hn ▸ hlower s l s' hs hl) (hkeep s l s' hs hl) rfl
        exact ⟨l :: ls, t, by rw [run_cons hl, hrun], ht⟩

variable {ended : σ → Bool} {l : ℓ} {s t : σ}

/-- The same system, where nothing happens any more once it has ended. -/
def stopAt (S : System σ ℓ) (ended : σ → Bool) : System σ ℓ where
  init := S.init
  step l s := if ended s then none else S.step l s

/-- Short of the end, the labels do what they did. -/
theorem stopAt_step_of_not (h : ended s = false) (l : ℓ) :
    (S.stopAt ended).step l s = S.step l s := by
  show (if ended s then none else S.step l s) = _
  rw [h]
  rfl

end System
