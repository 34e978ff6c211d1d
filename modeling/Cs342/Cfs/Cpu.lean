import Mathlib

/-!
# Handing over one CPU

What the flags, the states and the run queue are for, without the threads: a scheduler gives a CPU
to one of the queued processes, which leaves the queue, works and gives the CPU back. The flag
`busy` is set only after the process has been called, so for a while the CPU is given away by the
call alone; and the process clears the flag before it is done. A process **holds** the CPU over all
of this, from the choice to the end of giving it back.

`Inv` says that one process holds it at most, and how the flags show it; **`Inv.step`** is one case
for each transition. A choice finds the CPU free (`Inv.free`), and it stays with the process until
that process is done (`Step.holds`).
-/

namespace Cs342.Cfs

/-- How far the scheduler has come: nothing under way, about to choose, about to call the chosen
process, about to set the flag. -/
inductive Grant where
  | idle
  | deciding
  | chosen (k : Nat)
  | granted (k : Nat)
  deriving DecidableEq

/-- Where a process is: neither queued nor at work, queued, called and still queued, at work, done
with its slice, done with the flag. -/
inductive Phase where
  | outside
  | waiting
  | entered
  | working
  | leaving
  | left
  deriving DecidableEq

/-- The phases of a process in the queue. -/
def Phase.Queued (phase : Phase) : Prop := phase = .waiting ∨ phase = .entered

/-- The phases of a process on the CPU. -/
def Phase.OnCpu (phase : Phase) : Prop := phase ≠ .outside ∧ phase ≠ .waiting

structure Cpu where
  busy : Bool
  parked : Bool
  grant : Grant
  phase : Nat → Phase
  called : Nat → Bool
  queue : Option (List Nat)

namespace Cpu

/-- A process holds the CPU. -/
def Holds (c : Cpu) (k : Nat) : Prop :=
  c.grant = .chosen k ∨ c.called k = true ∨ (c.phase k).OnCpu

/-- The transitions. -/
inductive Step (c : Cpu) : Cpu → Prop
  | decide : c.grant = .idle → c.busy = false → c.parked = false →
      Step c { c with grant := .deciding }
  | choose {queue : List Nat} (k : Nat) : c.grant = .deciding → c.queue = some queue →
      k ∈ queue → (∀ j, c.phase j ≠ .left) → Step c { c with grant := .chosen k }
  | call (k : Nat) : c.grant = .chosen k →
      Step c { c with grant := .granted k, called := Function.update c.called k true }
  | occupy (k : Nat) : c.grant = .granted k → Step c { c with busy := true, grant := .idle }
  | park : c.grant = .deciding → Step c { c with parked := true, grant := .idle }
  | unpark : Step c { c with parked := false }
  | reset (k : Nat) : c.phase k = .outside →
      Step c { c with called := Function.update c.called k false }
  | enqueue {queue : List Nat} (k : Nat) : c.phase k = .outside → c.queue = some queue →
      Step c { c with
        phase := Function.update c.phase k .waiting
        queue := some (k :: queue) }
  | enter (k : Nat) : c.phase k = .waiting → c.called k = true →
      Step c { c with phase := Function.update c.phase k .entered }
  | dequeue {queue : List Nat} (k : Nat) : c.phase k = .entered → c.queue = some queue →
      Step c { c with
        phase := Function.update c.phase k .working
        queue := some (queue.erase k) }
  | leave (k : Nat) : c.phase k = .working →
      Step c { c with
        phase := Function.update c.phase k .leaving
        called := Function.update c.called k false }
  | release (k : Nat) : c.phase k = .leaving → c.grant = .idle →
      Step c { c with busy := false, phase := Function.update c.phase k .left }
  | finish (k : Nat) : c.phase k = .left →
      Step c { c with phase := Function.update c.phase k .outside }
  | free : Step c { c with queue := none }

/-- The invariant. -/
structure Inv (c : Cpu) : Prop where
  nodup : ∀ queue, c.queue = some queue → queue.Nodup
  mem_iff : ∀ queue, c.queue = some queue → ∀ k, k ∈ queue ↔ (c.phase k).Queued
  not_both : ¬ (c.busy = true ∧ c.parked = true)
  clear : c.grant ≠ .idle → c.busy = false ∧ c.parked = false
  called_phase : ∀ k, c.called k = true →
    c.phase k = .waiting ∨ c.phase k = .entered ∨ c.phase k = .working
  phase_called : ∀ k, c.phase k = .entered ∨ c.phase k = .working → c.called k = true
  chosen : ∀ k, c.grant = .chosen k → c.phase k = .waiting ∧ c.called k = false
  /-- One process holds the CPU at most. -/
  unique : ∀ j k, c.Holds j → c.Holds k → j = k
  /-- The flag shows that it is held, but between the choice and the flag, and after the flag. -/
  shown : ∀ k, c.Holds k →
    c.busy = true ∨ c.grant = .chosen k ∨ c.grant = .granted k ∨ c.phase k = .left

/-- Nothing is queued, and the scheduler waits for a process. -/
def init : Cpu where
  busy := false
  parked := true
  grant := .idle
  phase := fun _ => .outside
  called := fun _ => false
  queue := some []

theorem inv_init : Inv init := by
  have hholds : ∀ k, ¬ init.Holds k := by
    rintro k (h | h | h)
    · cases h
    · cases h
    · exact h.1 rfl
  refine ⟨?_, ?_, ?_, ?_, ?_, ?_, ?_, fun j k hj => absurd hj (hholds j),
    fun k hk => absurd hk (hholds k)⟩
  · rintro queue h
    cases h
    exact List.nodup_nil
  · rintro queue h k
    cases h
    simp [Phase.Queued, init]
  · simp [init]
  · exact fun h => absurd rfl h
  · intro k h
    cases h
  · rintro k (h | h) <;> cases h
  · intro k h
    cases h

variable {c c' : Cpu}

/-- When the scheduler decides, and no process is about to be done, the CPU is free. -/
theorem Inv.free (hinv : Inv c) (hgrant : c.grant = .deciding) (hleft : ∀ j, c.phase j ≠ .left)
    (k : Nat) : ¬ c.Holds k := by
  intro hk
  have hclear := hinv.clear (by rw [hgrant]; decide)
  rcases hinv.shown k hk with h | h | h | h
  · rw [hclear.1] at h
    cases h
  · rw [hgrant] at h
    cases h
  · rw [hgrant] at h
    cases h
  · exact hleft k h

/-- **The CPU stays with the process that holds it**, until that process is done. -/
theorem Step.holds (hinv : Inv c) (hstep : Step c c') {k : Nat} (hk : c.Holds k) :
    c'.Holds k ∨ (c.phase k = .left ∧ c'.phase k = .outside) := by
  have hcalled := hinv.called_phase k
  have hchosen := hinv.chosen k
  unfold Holds Phase.OnCpu at hk ⊢
  cases hstep <;> grind -linarith [Function.update_apply]

/-- Nobody comes to hold the CPU but by being chosen, when it is free. -/
theorem Step.holds_of (hinv : Inv c) (hstep : Step c c') {k : Nat} (hk : c'.Holds k) :
    c.Holds k ∨ (c'.grant = .chosen k ∧ ∀ j, ¬ c.Holds j) := by
  cases hstep with
  | choose i hgrant hqueue hmem hleft =>
      have hfree := hinv.free hgrant hleft
      unfold Holds at hk hfree ⊢
      grind -linarith
  | _ =>
    unfold Holds Phase.OnCpu at hk ⊢
    grind -linarith [Function.update_apply]

/-- A call is under way only from the choice on. -/
theorem Step.called_of (hstep : Step c c') (hidle : c'.grant = .idle) {k : Nat}
    (hk : c'.called k = true) : c.called k = true := by
  cases hstep <;> grind -linarith [Function.update_apply]

/-- The queue holds the processes in the queued phases, once each. -/
theorem Step.queued (hinv : Inv c) (hstep : Step c c') (queue : List Nat)
    (hqueue : c'.queue = some queue) :
    queue.Nodup ∧ ∀ k, k ∈ queue ↔ (c'.phase k).Queued := by
  have hmem := hinv.mem_iff
  have hnodup := hinv.nodup
  unfold Phase.Queued at hmem ⊢
  cases hstep with
  | @enqueue old k hphase hold =>
      cases hqueue
      refine ⟨List.nodup_cons.mpr ⟨?_, hnodup old hold⟩, fun j => ?_⟩
      · rw [hmem old hold, hphase]
        simp
      · grind -linarith [Function.update_apply]
  | @dequeue old k hphase hold =>
      cases hqueue
      refine ⟨(hnodup old hold).erase k, fun j => ?_⟩
      rw [(hnodup old hold).mem_erase_iff]
      grind -linarith [Function.update_apply]
  | free => cases hqueue
  | _ => grind -linarith [Function.update_apply]

theorem Step.flags (hinv : Inv c) (hstep : Step c c') :
    ¬ (c'.busy = true ∧ c'.parked = true) ∧
      (c'.grant ≠ .idle → c'.busy = false ∧ c'.parked = false) := by
  have hboth := hinv.not_both
  have hclear := hinv.clear
  cases hstep <;> grind -linarith

theorem Step.calls (hinv : Inv c) (hstep : Step c c') (k : Nat) :
    (c'.called k = true → c'.phase k = .waiting ∨ c'.phase k = .entered ∨ c'.phase k = .working) ∧
      (c'.phase k = .entered ∨ c'.phase k = .working → c'.called k = true) := by
  have hcalled := hinv.called_phase k
  have hphase := hinv.phase_called k
  have hchosen := hinv.chosen k
  cases hstep <;> grind -linarith [Function.update_apply]

theorem Step.chosen (hinv : Inv c) (hstep : Step c c') (k : Nat) (hk : c'.grant = .chosen k) :
    c'.phase k = .waiting ∧ c'.called k = false := by
  have hchosen := hinv.chosen k
  cases hstep with
  | @choose queue i hgrant hqueue hmem hleft =>
      -- the CPU is free, so the chosen process is queued and has not been called
      have hfree := hinv.free hgrant hleft i
      have hqueued := (hinv.mem_iff queue hqueue i).mp hmem
      unfold Holds Phase.OnCpu at hfree
      unfold Phase.Queued at hqueued
      grind -linarith
  | _ => grind -linarith [Function.update_apply]

theorem Step.shown (hinv : Inv c) (hstep : Step c c') (k : Nat) (hk : c'.Holds k) :
    c'.busy = true ∨ c'.grant = .chosen k ∨ c'.grant = .granted k ∨ c'.phase k = .left := by
  rcases hstep.holds_of hinv hk with hold | ⟨hchosen, -⟩
  · have hshown := hinv.shown k hold
    have hunique := fun j => hinv.unique j k
    have hcalled := hinv.called_phase k
    have hchosen := hinv.chosen k
    unfold Holds Phase.OnCpu at hk hold hunique
    cases hstep <;> grind -linarith [Function.update_apply]
  · exact Or.inr (Or.inl hchosen)

theorem Step.unique (hinv : Inv c) (hstep : Step c c') (j k : Nat) (hj : c'.Holds j)
    (hk : c'.Holds k) : j = k := by
  rcases hstep.holds_of hinv hj with hj | ⟨hchosen, hfree⟩
  · rcases hstep.holds_of hinv hk with hk | ⟨-, hfree⟩
    · exact hinv.unique j k hj hk
    · exact absurd hj (hfree j)
  · rcases hstep.holds_of hinv hk with hk | ⟨hchosen', -⟩
    · exact absurd hk (hfree k)
    · rw [hchosen] at hchosen'
      cases hchosen'
      rfl

/-- **Every transition keeps the invariant.** -/
theorem Inv.step (hinv : Inv c) (hstep : Step c c') : Inv c' where
  nodup queue hqueue := (hstep.queued hinv queue hqueue).1
  mem_iff queue hqueue := (hstep.queued hinv queue hqueue).2
  not_both := (hstep.flags hinv).1
  clear := (hstep.flags hinv).2
  called_phase k := (hstep.calls hinv k).1
  phase_called k := (hstep.calls hinv k).2
  chosen := hstep.chosen hinv
  unique := hstep.unique hinv
  shown := hstep.shown hinv

/-- A process has been called, or has not cleared the flag yet. -/
def Uses (c : Cpu) (k : Nat) : Prop :=
  c.called k = true ∨ c.phase k = .entered ∨ c.phase k = .working ∨ c.phase k = .leaving

/-- Somebody will clear the flag. -/
structure Occupied (c : Cpu) : Prop where
  granted : ∀ k, c.grant = .granted k → c.Uses k
  busy : c.busy = true → ∃ k, c.Uses k

theorem occupied_init : Occupied init := by
  refine ⟨?_, ?_⟩
  · intro k h
    cases h
  · intro h
    cases h

/-- A process is done with the flag in the step that clears it. -/
theorem Step.uses (hinv : Inv c) (hstep : Step c c') {k : Nat} (hk : c.Uses k) :
    c'.Uses k ∨ (c'.busy = false ∧ c'.grant = .idle) := by
  have hcalled := hinv.called_phase k
  unfold Uses at hk ⊢
  cases hstep <;> grind -linarith [Function.update_apply]

theorem Occupied.step (hocc : Occupied c) (hinv : Inv c) (hstep : Step c c') : Occupied c' := by
  have hkeep : ∀ k, c.Uses k → c'.Uses k ∨ (c'.busy = false ∧ c'.grant = .idle) :=
    fun k hk => hstep.uses hinv hk
  refine ⟨?_, ?_⟩
  · intro k hk
    cases hstep with
    | call i hchosen =>
        cases hk
        exact Or.inl (Function.update_self _ _ _)
    | _ =>
        have hgranted := hocc.granted k
        have hk' := hkeep k
        grind -linarith
  · intro hbusy
    have hsome : ∃ k, c.Uses k := by
      cases hstep with
      | occupy i hgrant => exact ⟨i, hocc.granted i hgrant⟩
      | release i _ _ => cases hbusy
      | _ => exact hocc.busy hbusy
    obtain ⟨k, hk⟩ := hsome
    rcases hkeep k hk with h | ⟨h, -⟩
    · exact ⟨k, h⟩
    · rw [h] at hbusy
      cases hbusy

end Cpu

end Cs342.Cfs
