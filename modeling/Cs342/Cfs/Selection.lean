import Mathlib
import Cs342.Cfs.OneCpu

/-!
# The process that is selected

The scheduler takes the smallest vruntime of the queue. A process whose slice has ended wakes the
scheduler first and adds itself to the queue later, so in between it is left out, even where it has
the smallest vruntime of all (`not_selectsSmallest`). Every other unfinished process that has ever
entered the queue is in it whenever the scheduler selects, because the CPU is free then, so this is
the only way to miss it (**`selectsSmallest_iff`**).
-/

namespace Cs342.Cfs

open Threads (Label)

/-- Between giving the CPU back and adding itself to the queue, or before adding itself for the
first time. -/
def ProcessPC.OutsideQueue : ProcessPC → Prop
  | .unlockPcb | .whileLength | .lockRqAdd | .add => True
  | _ => False

/-- The thread has begun. -/
def ProcessPC.Started (p : ProcessPC) : Prop := p ≠ .notCreated ∧ p ≠ .arrival

/-- At some moment of the run, the process was in the queue. -/
def Entered (workload : Workload) (ls : List (Label Thread)) (j : Nat) : Prop :=
  ∃ before after s rq, ls = before ++ after ∧
    (cfs workload).run before (cfs workload).init = some s ∧
    s.shared.rq = some rq ∧ j ∈ rq.head

/-- The process has not used up its length. -/
def Unfinished (s : State) (j : Nat) : Prop :=
  (s.shared.pcbs j).cpuTime < (s.shared.pcbs j).processLength

section Selection

variable {workload : Workload} {s s' : State} {l : Label Thread}

theorem started_step (hstep : (cfs workload).step l s = some s') {j : Nat}
    (hj : (s.pc (.process j)).Started) : (s'.pc (.process j)).Started := by
  rcases Threads.step_pc hstep (.process j) with hpc | ⟨-, hadvance⟩
  · rw [hpc]
    exact hj
  · have hframe := process_frame hadvance
    exact ⟨hframe.started, fun harrival => hj.1 (hframe.arrived harrival)⟩

theorem Entered.started {ls : List (Label Thread)} {j : Nat} (h : Entered workload ls j)
    (hrun : (cfs workload).run ls (cfs workload).init = some s) :
    (s.pc (.process j)).Started := by
  obtain ⟨before, after, mid, rq, rfl, hmid, hrq, hmem⟩ := h
  have hqueued := ((Inv.reachable ⟨before, hmid⟩).queue hrq).2 j |>.mp hmem
  have hstarted : (mid.pc (.process j)).Started := by
    constructor
    · intro hp
      rw [hp] at hqueued
      exact hqueued
    · intro hp
      rw [hp] at hqueued
      exact hqueued
  rw [System.run_append, hmid] at hrun
  apply System.run_induction (P := fun s => (s.pc (.process j)).Started) _ hstarted hrun
  exact fun s l s' hs hstep => started_step hstep hs

/-- The selected pcb is the one `runqueue_smallest_pcb` returns. -/
theorem Selects.smallest {k : Nat} (h : Selects k s s')
    (hstep : (cfs workload).step l s = some s') :
    ∃ rq, s.shared.rq = some rq ∧ runqueueSmallestPcb s.shared.pcbs rq = some k := by
  rcases Threads.step_pc hstep .scheduler with hpc | ⟨-, hadvance⟩
  · have := h.2
    rw [hpc, h.1] at this
    cases this
  · have hadvance : (schedulerInstr workload (s.pc .scheduler)).advance s.shared
        = some (s'.shared, s'.pc .scheduler) := hadvance
    rw [h.1, h.2] at hadvance
    simp only [schedulerInstr, Threads.Instr.advance] at hadvance
    split at hadvance
    · next rq hrq =>
        refine ⟨rq, hrq, ?_⟩
        have := (Prod.mk.inj (Option.some.inj hadvance)).2
        exact SchedulerPC.unlockRq.inj this
    · cases hadvance

/-- While the scheduler selects, an unfinished process that has begun is in the queue or about to
add itself. -/
theorem Inv.queued_of_unfinished (hinv : Inv workload s) (hselect : s.pc .scheduler = .select)
    {j : Nat} (hstarted : (s.pc (.process j)).Started) (hunfinished : Unfinished s j)
    (hout : ¬ (s.pc (.process j)).OutsideQueue) : (s.pc (.process j)).Queued := by
  have hfree : ¬ (s.pc (.process j)).OnCpu := fun h =>
    hinv.free hselect j (Or.inr (Or.inr ((onCpu_iff _).mp h)))
  have hfinished : ¬ (s.pc (.process j)).Finished := fun h =>
    absurd hunfinished (not_lt.mpr (hinv.places.finished j h))
  unfold ProcessPC.Started at hstarted
  cases hp : s.pc (.process j) <;> rw [hp] at hstarted hout hfree hfinished <;>
    simp_all [ProcessPC.Queued, ProcessPC.OutsideQueue, ProcessPC.OnCpu, ProcessPC.Finished]

end Selection

/-! ## The selections of a run -/

/-- The run selects the pcb `k` in the state `s`, after the labels `before`. -/
def SelectionIn (workload : Workload) (ls before : List (Label Thread)) (s : State) (k : Nat) :
    Prop :=
  ∃ l after s', ls = before ++ l :: after ∧
    (cfs workload).run before (cfs workload).init = some s ∧
    (cfs workload).step l s = some s' ∧ Selects k s s'

/-- Every selected process has the smallest vruntime of all unfinished processes that have entered
the queue. -/
def SelectsSmallest (workload : Workload) (ls : List (Label Thread)) : Prop :=
  ∀ before s k, SelectionIn workload ls before s k →
    ∀ j, Entered workload before j → Unfinished s j →
      (s.shared.pcbs k).vruntime ≤ (s.shared.pcbs j).vruntime

/-- At every selection, an unfinished process that is on its way back to the queue is not ahead of
all that are in it. -/
def NoneAhead (workload : Workload) (ls : List (Label Thread)) : Prop :=
  ∀ before s k, SelectionIn workload ls before s k →
    ∀ j, Entered workload before j → Unfinished s j → (s.pc (.process j)).OutsideQueue →
      ∃ rq, s.shared.rq = some rq ∧
        ∃ i ∈ rq.head, (s.shared.pcbs i).vruntime ≤ (s.shared.pcbs j).vruntime

/-- **The selections are right exactly as long as nobody on the way back is ahead.** -/
theorem selectsSmallest_iff (workload : Workload) (ls : List (Label Thread)) :
    SelectsSmallest workload ls ↔ NoneAhead workload ls := by
  constructor
  · intro h before s k hin j hentered hunfinished _
    have hle := h before s k hin j hentered hunfinished
    obtain ⟨l, after, s', -, -, hstep, hselects⟩ := hin
    obtain ⟨rq, hrq, hsmallest⟩ := hselects.smallest hstep
    exact ⟨rq, hrq, k, (runqueueSmallestPcb_spec hsmallest).1, hle⟩
  · intro h before s k hin j hentered hunfinished
    have hback := h before s k hin j hentered hunfinished
    obtain ⟨l, after, s', -, hrun, hstep, hselects⟩ := hin
    have hinv : Inv workload s := Inv.reachable ⟨before, hrun⟩
    obtain ⟨rq, hrq, hsmallest⟩ := hselects.smallest hstep
    have hmin := (runqueueSmallestPcb_spec hsmallest).2
    by_cases hout : (s.pc (.process j)).OutsideQueue
    · obtain ⟨rq', hrq', i, hi, hle⟩ := hback hout
      rw [hrq] at hrq'
      cases hrq'
      exact (hmin i hi).trans hle
    · -- everybody else is in the queue, since the CPU is free
      have hqueued := hinv.queued_of_unfinished hselects.1 (hentered.started hrun) hunfinished hout
      exact hmin j (((hinv.queue hrq).2 j).mpr hqueued)

/-! ## A process that is overtaken -/

/-- Two long processes, the second one with a lower priority. -/
def twoProcesses : Workload where
  processes := [
    { length := 1000, priority := 0, interarrivalTime := 0 },
    { length := 1000, priority := 1, interarrivalTime := 0 }]
  totalProcessCount := 2
  maxRunqueueLength := 10

/-- The first process runs a slice of 100 ms alone and queues up again; the second one arrives. -/
def bothQueued : List (Label Thread) :=
  turns .scheduler 5 ++ turns .generator 6 ++
  turns (.process 0) 8 ++ [.wake (.process 0) .scheduler] ++ turns (.process 0) 4 ++
  turns .scheduler 7 ++ [.wake .scheduler (.process 0)] ++ turns .scheduler 7 ++
  turns (.process 0) 10 ++ [.wake (.process 0) .scheduler] ++ turns (.process 0) 13 ++
  turns .generator 6 ++ turns (.process 1) 13

/-- The second process runs a slice of 80 ms and wakes the scheduler, which goes ahead. -/
def secondSlice : List (Label Thread) :=
  turns .scheduler 7 ++ [.wake .scheduler (.process 1)] ++ turns .scheduler 7 ++
  turns (.process 1) 10 ++ [.wake (.process 1) .scheduler] ++ turns (.process 1) 1 ++
  turns .scheduler 3

/-- The first process is selected with a vruntime of 100, while the second one, which has 4096 / 41,
is about to add itself to the queue. -/
theorem not_selectsSmallest :
    ¬ SelectsSmallest twoProcesses (bothQueued ++ secondSlice ++ [.run .scheduler]) := by
  intro h
  have hqueued : ((cfs twoProcesses).run bothQueued (cfs twoProcesses).init).map
      (fun s => s.shared.rq) = some (some { head := [1, 0], count := 0 }) := by decide +kernel
  have hbefore : ((cfs twoProcesses).run (bothQueued ++ secondSlice) (cfs twoProcesses).init).map
      (fun s => (s.pc .scheduler, s.shared.pcbs 0, s.shared.pcbs 1))
      = some (.select,
          { pid := 1, state := .ready, priority := 0, processLength := 1000, cpuTime := 100,
            vruntime := 100 },
          { pid := 2, state := .ready, priority := 1, processLength := 1000, cpuTime := 80,
            vruntime := 4096 / 41 }) := by decide +kernel
  have hafter : ((cfs twoProcesses).run (bothQueued ++ secondSlice ++ [.run .scheduler])
      (cfs twoProcesses).init).map (fun s => s.pc .scheduler) = some (.unlockRq (some 0)) := by
    decide +kernel
  obtain ⟨s, hs, hview⟩ := Option.map_eq_some_iff.mp hbefore
  obtain ⟨s', hs', hselected⟩ := Option.map_eq_some_iff.mp hafter
  obtain ⟨t, ht, hrq⟩ := Option.map_eq_some_iff.mp hqueued
  simp only [Prod.mk.injEq] at hview
  obtain ⟨hselect, hfirst, hsecond⟩ := hview
  have hstep : (cfs twoProcesses).step (.run .scheduler) s = some s' := by
    rw [System.run_append, hs, Option.bind_some, System.run_singleton] at hs'
    exact hs'
  have hin : SelectionIn twoProcesses (bothQueued ++ secondSlice ++ [.run .scheduler])
      (bothQueued ++ secondSlice) s 0 :=
    ⟨.run .scheduler, [], s', rfl, hs, hstep, hselect, hselected⟩
  have hentered : Entered twoProcesses (bothQueued ++ secondSlice) 1 :=
    ⟨bothQueued, secondSlice, t, _, rfl, ht, hrq, by simp⟩
  have hunfinished : Unfinished s 1 := by
    unfold Unfinished
    rw [hsecond]
    decide
  have hle := h _ s 0 hin 1 hentered hunfinished
  rw [hfirst, hsecond] at hle
  norm_num at hle

end Cs342.Cfs
