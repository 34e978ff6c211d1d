import Mathlib
import Cs342.Cfs.Machine

/-!
# Where the threads stand

What a step leaves alone, thread by thread (`step_of`), and the two facts that follow for every
reachable state (**`PlaceInv.reachable`**): a process thread that has not been created has not
started, and a process behind its loop has used up its length.
-/

namespace Cs342.Cfs

open Threads (Label)

/-- The points behind the loop. -/
def ProcessPC.Finished : ProcessPC → Prop
  | .departure | .sendStats _ | .exited => True
  | _ => False

/-- What a step of a process leaves alone. -/
structure ProcessFrame (k : Nat) (shared shared' : Shared) (p next : ProcessPC) : Prop where
  created_eq : shared'.created = shared.created
  pcb_eq : ∀ j, j ≠ k → shared'.pcbs j = shared.pcbs j
  created : p = .notCreated → k < shared.created
  started : next ≠ .notCreated
  arrived : next = .arrival → p = .notCreated
  finished : next.Finished → shared'.pcbs k = shared.pcbs k ∧
    (p.Finished ∨ (shared.pcbs k).processLength ≤ (shared.pcbs k).cpuTime)

theorem process_frame {k : Nat} {shared shared' : Shared} {p next : ProcessPC}
    (h : (processInstr k p).advance shared = some (shared', next)) :
    ProcessFrame k shared shared' p next := by
  have hother : ∀ (pcb : Pcb) (j : Nat), j ≠ k →
      Function.update shared.pcbs k pcb j = shared.pcbs j := by
    intro pcb j hj
    exact Function.update_of_ne hj _ _
  cases p with
  -- three steps write what the others only read: the own pcb or the statistics
  | run =>
      obtain ⟨rfl, hslice⟩ := advance_run h
      obtain ⟨rq, timeslice, cpuTime, vruntime, hrq, -, -, -, rfl⟩ := runSlice_spec hslice
      exact ⟨rfl, hother _, by simp, by simp, by simp, by simp [ProcessPC.Finished]⟩
  | setReady =>
      cases h
      exact ⟨rfl, hother _, by simp, by simp, by simp, by simp [ProcessPC.Finished]⟩
  | sendStats departureTime =>
      obtain ⟨rfl, -, statsArray, rfl⟩ := advance_sendStats h
      exact ⟨rfl, fun _ _ => rfl, by simp, by simp, by simp, by simp [ProcessPC.Finished]⟩
  | _ =>
      simp only [processInstr, Threads.Instr.advance] at h
      have hpcbs : shared'.pcbs = shared.pcbs := by grind
      refine ⟨?_, fun j _ => by rw [hpcbs], ?_, ?_, ?_, ?_⟩ <;> grind [ProcessPC.Finished]

/-- What a step of the scheduler leaves alone: of a pcb it writes the state only. -/
theorem scheduler_frame {workload : Workload} {shared shared' : Shared} {p next : SchedulerPC}
    (h : (schedulerInstr workload p).advance shared = some (shared', next)) :
    shared'.created = shared.created ∧
      ∀ j, ∃ state, shared'.pcbs j = { shared.pcbs j with state := state } := by
  have hsame : ∀ j, ∃ state, shared.pcbs j = { shared.pcbs j with state := state } :=
    fun j => ⟨_, rfl⟩
  cases p with
  | select =>
      simp only [schedulerInstr, Threads.Instr.advance] at h
      split at h <;> cases h
      exact ⟨rfl, hsame⟩
  | unlockRq pcb => cases pcb <;> cases h <;> exact ⟨rfl, hsame⟩
  | setRunning k =>
      cases h
      refine ⟨rfl, fun j => ?_⟩
      by_cases hj : j = k
      · subst hj
        exact ⟨.running, Function.update_self _ _ _⟩
      · exact ⟨_, Function.update_of_ne hj _ _⟩
  | exited => cases h
  | _ => cases h; exact ⟨rfl, hsame⟩

/-- The generator writes the pcb of the process it creates. -/
theorem generator_frame {workload : Workload} {shared shared' : Shared} {p next : GeneratorPC}
    (h : (generatorInstr workload p).advance shared = some (shared', next)) :
    shared.created ≤ shared'.created ∧
      ∀ j, j < shared.created → shared'.pcbs j = shared.pcbs j := by
  cases p with
  | whileNext =>
      simp only [generatorInstr, Threads.Instr.advance] at h
      split at h <;> cases h <;> exact ⟨le_rfl, fun _ _ => rfl⟩
  | create params =>
      cases h
      exact ⟨Nat.le_succ _, fun j hj => Function.update_of_ne hj.ne _ _⟩
  | exited => cases h
  | _ => cases h; exact ⟨le_rfl, fun _ _ => rfl⟩

theorem main_frame {shared shared' : Shared} {p next : MainPC}
    (h : (mainInstr p).advance shared = some (shared', next)) :
    ∃ printed statsFreed argumentsFreed, shared' = { shared with
      printed := printed, statsFreed := statsFreed, argumentsFreed := argumentsFreed } := by
  cases p with
  | joinScheduler =>
      simp only [mainInstr, Threads.Instr.advance] at h
      split at h <;> cases h
      exact ⟨_, _, _, rfl⟩
  | joinGenerator =>
      simp only [mainInstr, Threads.Instr.advance] at h
      split at h <;> cases h
      exact ⟨_, _, _, rfl⟩
  | exited => cases h
  | _ => cases h; exact ⟨_, _, _, rfl⟩

theorem clock_frame {shared shared' : Shared} {p next : Unit}
    (h : (clockInstr p).advance shared = some (shared', next)) :
    shared' = { shared with clock := shared.clock + 1 } := by
  cases h
  rfl

/-! ## Whose step it is -/

/-- A step is one of a process, of the scheduler or of the generator, or it changes nothing but the
clock and what main does to the results. -/
inductive StepOf (workload : Workload) (s s' : State) : Prop
  | process (k : Nat) (next : ProcessPC) (hmode : s.mode (.process k) = .running)
      (hadvance : (processInstr k (s.pc (.process k))).advance s.shared = some (s'.shared, next))
      (hself : s'.pc (.process k) = next) (hother : ∀ t, t ≠ .process k → s'.pc t = s.pc t)
  | scheduler (next : SchedulerPC)
      (hadvance : (schedulerInstr workload (s.pc .scheduler)).advance s.shared
        = some (s'.shared, next))
      (hself : s'.pc .scheduler = next) (hother : ∀ t, t ≠ .scheduler → s'.pc t = s.pc t)
  | generator (next : GeneratorPC)
      (hadvance : (generatorInstr workload (s.pc .generator)).advance s.shared
        = some (s'.shared, next))
      (hself : s'.pc .generator = next) (hother : ∀ t, t ≠ .generator → s'.pc t = s.pc t)
  | aside {printed : Option (List (Option ProcessStatistics))} {statsFreed argumentsFreed : Bool}
      {clock : Int}
      (hshared : s'.shared = { s.shared with
        printed := printed, statsFreed := statsFreed, argumentsFreed := argumentsFreed,
        clock := clock })
      (hother : ∀ t, t ≠ .main → s'.pc t = s.pc t)

theorem step_of {workload : Workload} {l : Label Thread} {s s' : State}
    (hstep : (cfs workload).step l s = some s') : StepOf workload s s' := by
  rcases Threads.step_advance hstep with ⟨hshared, hpc⟩ | ⟨t, next, hmode, hadvance, hpc⟩
  · exact .aside hshared fun t _ => by rw [hpc]
  · have hself : s'.pc t = next := by rw [hpc, Function.update_self]
    have hother : ∀ u, u ≠ t → s'.pc u = s.pc u := by
      intro u hu
      rw [hpc, Function.update_of_ne hu]
    cases t with
    | process k => exact .process k next hmode hadvance hself hother
    | scheduler => exact .scheduler next hadvance hself hother
    | generator => exact .generator next hadvance hself hother
    | main =>
        obtain ⟨printed, statsFreed, argumentsFreed, hshared⟩ := main_frame hadvance
        exact .aside hshared hother
    | clock =>
        refine .aside (clock_frame (p := s.pc .clock) hadvance) fun u _ => ?_
        by_cases h : u = .clock
        · subst h
          rfl
        · exact hother u h

/-! ## Created and finished processes -/

structure PlaceInv (s : State) : Prop where
  fresh : ∀ k, s.shared.created ≤ k → s.pc (.process k) = .notCreated
  finished : ∀ k, (s.pc (.process k)).Finished →
    (s.shared.pcbs k).processLength ≤ (s.shared.pcbs k).cpuTime

/-- The processes stay where they are, with what they have used. -/
theorem PlaceInv.of_frame {s s' : State} (hinv : PlaceInv s)
    (hpc : ∀ k, s'.pc (.process k) = s.pc (.process k))
    (hcreated : s.shared.created ≤ s'.shared.created)
    (hpcb : ∀ k, k < s.shared.created →
      ∃ state, s'.shared.pcbs k = { s.shared.pcbs k with state := state }) : PlaceInv s' := by
  refine ⟨?_, ?_⟩
  · intro k hk
    rw [hpc]
    exact hinv.fresh k (hcreated.trans hk)
  · intro k hk
    rw [hpc] at hk
    have hlt : k < s.shared.created := by
      by_contra hge
      rw [hinv.fresh k (not_lt.mp hge)] at hk
      exact hk
    obtain ⟨state, heq⟩ := hpcb k hlt
    rw [heq]
    exact hinv.finished k hk

theorem PlaceInv.step {workload : Workload} {l : Label Thread} {s s' : State}
    (hinv : PlaceInv s) (hstep : (cfs workload).step l s = some s') : PlaceInv s' := by
  cases step_of hstep with
  | process k next _ hadvance hself hother =>
      have hframe := process_frame hadvance
      have hother : ∀ j, j ≠ k → s'.pc (.process j) = s.pc (.process j) := by
        intro j hj
        exact hother _ (by simpa using hj)
      refine ⟨?_, ?_⟩
      · intro j hj
        rw [hframe.created_eq] at hj
        have hfresh := hinv.fresh j hj
        by_cases h : j = k
        · -- a thread that takes a step has been created
          subst h
          exact absurd hj (not_le.mpr (hframe.created hfresh))
        · rw [hother j h]
          exact hfresh
      · intro j hj
        by_cases h : j = k
        · -- the loop is left when the length is used up, and after it the pcb is not written
          subst h
          rw [hself] at hj
          obtain ⟨hpcb, hdone⟩ := hframe.finished hj
          rw [hpcb]
          exact hdone.elim (hinv.finished j) id
        · rw [hother j h] at hj
          rw [hframe.pcb_eq j h]
          exact hinv.finished j hj
  | scheduler next hadvance _ hother =>
      obtain ⟨hcreated, hpcbs⟩ := scheduler_frame hadvance
      exact hinv.of_frame (fun k => hother _ (by simp)) hcreated.ge fun k _ => hpcbs k
  | generator next hadvance _ hother =>
      obtain ⟨hcreated, hpcbs⟩ := generator_frame hadvance
      exact hinv.of_frame (fun k => hother _ (by simp)) hcreated fun k hk => ⟨_, hpcbs k hk⟩
  | aside hshared hother =>
      exact hinv.of_frame (fun k => hother _ (by simp)) (by rw [hshared])
        fun k _ => ⟨_, by rw [hshared]⟩

theorem PlaceInv.reachable {workload : Workload} {s : State} (hs : (cfs workload).Reachable s) :
    PlaceInv s := by
  apply hs.invariant
  · exact ⟨fun k _ => rfl, fun k hk => absurd hk id⟩
  · exact fun s l s' hinv hstep => hinv.step hstep

end Cs342.Cfs
