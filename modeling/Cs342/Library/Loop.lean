import Mathlib
import Cs342.Library.Outcome

/-!
# While loops

A C loop whose number of rounds is not known before it runs. One round is a function to `ForInStep`:
`yield` goes on with the next round, `done` leaves the loop. Running it takes a bound on the rounds,
and what the loop does is said without one: `Exits` relates the state before it to the state behind
it. A loop that gathers a list, one element a round, is described by `Appends`, which follows that
list; a loop that makes a measure smaller ends (`exits_of_measure`), and one that can always go on
does not (`not_exits_of_forever`).
-/

namespace Loop

variable {σ α : Type}

/-- The loop, given up after `fuel` rounds. -/
def run (round : σ → Outcome (ForInStep σ)) : Nat → σ → Outcome (Option σ)
  | 0, _ => .ok none
  | fuel + 1, s => do
    match ← round s with
    | .done t => return some t
    | .yield s => run round fuel s

/-- From `s` the loop ends, and in `t`. -/
def Exits (round : σ → Outcome (ForInStep σ)) (s t : σ) : Prop :=
  ∃ fuel, run round fuel s = .ok (some t)

variable {round : σ → Outcome (ForInStep σ)} {s s' t u : σ}

theorem run_of_done (h : round s = .ok (.done t)) (fuel : Nat) :
    run round (fuel + 1) s = .ok (some t) := by
  rw [run, h]
  rfl

theorem run_of_yield (h : round s = .ok (.yield s')) (fuel : Nat) :
    run round (fuel + 1) s = run round fuel s' := by
  rw [run, h]
  rfl

/-- **Loop equation**: the first round leaves the loop, or hands its state to the rest of it. -/
theorem exits_iff :
    Exits round s t ↔
      round s = .ok (.done t) ∨ ∃ s', round s = .ok (.yield s') ∧ Exits round s' t := by
  constructor
  · rintro ⟨fuel, h⟩
    cases fuel with
    | zero => cases h
    | succ fuel =>
        rw [run] at h
        obtain ⟨step, hstep, h⟩ := Outcome.bind_eq_ok.mp h
        cases step with
        | done t' => cases h; exact .inl hstep
        | yield s' => exact .inr ⟨s', hstep, fuel, h⟩
  · rintro (h | ⟨s', h, fuel, hrun⟩)
    · exact ⟨1, run_of_done h 0⟩
    · exact ⟨fuel + 1, (run_of_yield h fuel).trans hrun⟩

/-- Induction over the rounds of a loop that ends. -/
theorem Exits.induction {P : σ → Prop} (hexits : Exits round s t)
    (hdone : ∀ s, round s = .ok (.done t) → P s)
    (hyield : ∀ s s', round s = .ok (.yield s') → Exits round s' t → P s' → P s) : P s := by
  obtain ⟨fuel, hrun⟩ := hexits
  induction fuel generalizing s with
  | zero => cases hrun
  | succ fuel ih =>
      rcases exits_iff.mp ⟨fuel + 1, hrun⟩ with h | ⟨s', h, -⟩
      · exact hdone s h
      · have hrest := (run_of_yield h fuel).symm.trans hrun
        exact hyield s s' h ⟨fuel, hrest⟩ (ih hrest)

/-- A loop ends in at most one state. -/
theorem Exits.unique (h : Exits round s t) (h' : Exits round s u) : t = u := by
  revert h'
  refine h.induction (P := fun s => Exits round s u → t = u) (fun s hdone h' => ?_)
    (fun s s' hyield _ ih h' => ?_)
  · rcases exits_iff.mp h' with hdone' | ⟨s', hyield, -⟩
    · rw [hdone] at hdone'
      cases hdone'
      rfl
    · rw [hdone] at hyield
      cases hyield
  · rcases exits_iff.mp h' with hdone | ⟨s'', hyield', hrest⟩
    · rw [hyield] at hdone
      cases hdone
    · rw [hyield] at hyield'
      cases hyield'
      exact ih hrest

/-! ## The states of a loop -/

/-- Some rounds lead from `s` to `t`. -/
def Reaches (round : σ → Outcome (ForInStep σ)) : σ → σ → Prop :=
  Relation.ReflTransGen fun s s' => round s = .ok (.yield s')

theorem Reaches.refl : Reaches round s s := Relation.ReflTransGen.refl

theorem Reaches.step (h : Reaches round s t) (hround : round t = .ok (.yield u)) :
    Reaches round s u :=
  Relation.ReflTransGen.tail h hround

theorem Reaches.of_yield (hround : round s = .ok (.yield s')) (h : Reaches round s' t) :
    Reaches round s t :=
  Relation.ReflTransGen.head hround h

/-- A state is the first one, or comes behind the first round. -/
theorem reaches_iff : Reaches round s t ↔
    t = s ∨ ∃ s', round s = .ok (.yield s') ∧ Reaches round s' t := by
  constructor
  · intro h
    rcases Relation.ReflTransGen.cases_head h with h | ⟨s', hyield, hrest⟩
    · exact .inl h.symm
    · exact .inr ⟨s', hyield, hrest⟩
  · rintro (rfl | ⟨s', hyield, hrest⟩)
    · exact .refl
    · exact .of_yield hyield hrest

/-- What every round keeps holds in every state. -/
theorem Reaches.invariant {P : σ → Prop} (h : Reaches round s t) (hstart : P s)
    (hround : ∀ u u', P u → round u = .ok (.yield u') → P u') : P t := by
  induction h with
  | refl => exact hstart
  | tail _ hyield ih => exact hround _ _ ih hyield

/-- A loop that ends also ends from every state that it comes to. -/
theorem Exits.of_reaches (hexits : Exits round s t) (h : Reaches round s u) : Exits round u t := by
  refine h.invariant (P := fun u => Exits round u t) hexits fun v v' hexits hyield => ?_
  rcases exits_iff.mp hexits with hdone | ⟨w, hyield', hrest⟩
  · rw [hyield] at hdone
    cases hdone
  · rw [hyield] at hyield'
    cases hyield'
    exact hrest

/-- **Termination**: every state that is come to leaves the loop or makes the measure smaller. -/
theorem exits_of_measure (measure : σ → Nat)
    (h : ∀ t, Reaches round s t → (∃ u, round t = .ok (.done u)) ∨
      ∃ u, round t = .ok (.yield u) ∧ measure u < measure t) : ∃ t, Exits round s t := by
  induction hmeasure : measure s using Nat.strongRecOn generalizing s with
  | _ k ih =>
      rcases h s .refl with ⟨u, hdone⟩ | ⟨u, hyield, hlt⟩
      · exact ⟨u, exits_iff.mpr (.inl hdone)⟩
      · obtain ⟨t, hexits⟩ := ih (measure u) (hmeasure ▸ hlt)
          (fun t ht => h t (.of_yield hyield ht)) rfl
        exact ⟨t, exits_iff.mpr (.inr ⟨u, hyield, hexits⟩)⟩

/-- **Non-termination**: from every state in `P` there is a round that stays in `P`. -/
theorem not_exits_of_forever {P : σ → Prop} (hs : P s)
    (h : ∀ u, P u → ∃ u', round u = .ok (.yield u') ∧ P u') : ¬ Exits round s t := by
  intro hexits
  revert hs
  refine hexits.induction (P := fun s => P s → False) (fun s hdone hs => ?_)
    (fun s s' hyield _ ih hs => ?_)
  · obtain ⟨u, hyield, -⟩ := h s hs
    rw [hdone] at hyield
    cases hyield
  · obtain ⟨u, hyield', hu⟩ := h s hs
    rw [hyield] at hyield'
    cases hyield'
    exact ih hu

/-! ## Loops that gather a list -/

/-- The loop ends, and its rounds have put `xs` behind the list `out`. -/
def Appends (round : σ → Outcome (ForInStep σ)) (out : σ → List α) (s : σ) (xs : List α) : Prop :=
  ∃ t, Exits round s t ∧ out t = out s ++ xs

section Appending

variable {out : σ → List α} (hdone : ∀ s t, round s = .ok (.done t) → out t = out s)
  (hyield : ∀ s s', round s = .ok (.yield s') → ∃ x, out s' = out s ++ [x])
include hdone hyield

theorem prefix_of_exits (h : Exits round s t) : out s <+: out t := by
  refine h.induction (P := fun s => out s <+: out t) (fun s h => ?_) (fun s s' h _ ih => ?_)
  · rw [hdone s t h]
  · obtain ⟨x, hx⟩ := hyield s s' h
    rw [hx] at ih
    exact (List.prefix_append (out s) [x]).trans ih

/-- Nothing is gathered exactly when the first round leaves the loop. -/
theorem appends_nil : Appends round out s [] ↔ ∃ t, round s = .ok (.done t) := by
  constructor
  · rintro ⟨t, h, hout⟩
    rcases exits_iff.mp h with h | ⟨s', h, hrest⟩
    · exact ⟨t, h⟩
    · obtain ⟨x, hx⟩ := hyield s s' h
      have hle := (prefix_of_exits hdone hyield hrest).length_le
      rw [hx, hout] at hle
      simp at hle
  · rintro ⟨t, h⟩
    exact ⟨t, exits_iff.mpr (.inl h), by rw [hdone s t h, List.append_nil]⟩

/-- The first element is what the first round gathers, the others are what the rest does. -/
theorem appends_cons {x : α} {xs : List α} :
    Appends round out s (x :: xs) ↔
      ∃ s', round s = .ok (.yield s') ∧ out s' = out s ++ [x] ∧ Appends round out s' xs := by
  constructor
  · rintro ⟨t, h, hout⟩
    rcases exits_iff.mp h with h | ⟨s', h, hrest⟩
    · rw [hdone s t h] at hout
      simp at hout
    · obtain ⟨y, hy⟩ := hyield s s' h
      obtain ⟨rest, hrestOut⟩ := prefix_of_exits hdone hyield hrest
      rw [← hrestOut, hy, List.append_assoc, List.append_cancel_left_eq] at hout
      obtain ⟨rfl, rfl⟩ := List.cons.inj hout
      exact ⟨s', h, hy, t, hrest, hrestOut.symm⟩
  · rintro ⟨s', h, hy, t, hrest, hout⟩
    refine ⟨t, exits_iff.mpr (.inr ⟨s', h, hrest⟩), ?_⟩
    rw [hout, hy, List.append_assoc, List.singleton_append]

end Appending

end Loop
