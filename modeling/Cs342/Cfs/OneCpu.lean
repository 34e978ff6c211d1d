import Mathlib
import Cs342.Cfs.Cpu
import Cs342.Cfs.Locks
import Cs342.Cfs.Places

/-!
# One CPU for all processes

The threads hand the CPU over as `Cpu` describes it: `cpuOf` forgets everything but the flags, the
states, the queue and where the threads stand, and every step of the program is a transition or
changes nothing (`cpuOf_step`). The locks supply two guards: no process is between clearing the flag
and unlocking while the scheduler selects, and the scheduler is not past its test while a process
clears the flag.
-/

namespace Cs342.Cfs

open Threads (LockInv Label)

def schedulerGrant : SchedulerPC → Grant
  | .lockRq | .select | .unlockRq none | .setWaiting => .deciding
  | .unlockRq (some pcb) | .lockPcb pcb | .setRunning pcb => .chosen pcb
  | .signalPcb pcb | .unlockPcb pcb | .setHaveRunning pcb => .granted pcb
  | _ => .idle

def processPhase : ProcessPC → Phase
  | .unlockRqAdd | .lockNew | .clearWaiting | .signalNew | .unlockNew | .lockPcb | .whileReady
  | .waitPcb => .waiting
  | .lockRqRun | .run => .entered
  | .unlockRqRun | .sleep | .setReady => .working
  | .testLength | .lockRqDone | .decrement | .unlockRqDone | .lockTerminated | .clearRunning =>
    .leaving
  | .signalTerminated | .unlockTerminated => .left
  | _ => .outside

/-- What the threads have made of the CPU. -/
def cpu (shared : Shared) (scheduler : SchedulerPC) (process : Nat → ProcessPC) : Cpu where
  busy := shared.haveRunningProcess
  parked := shared.waitingForNewProcess
  grant := schedulerGrant scheduler
  phase := fun k => processPhase (process k)
  called := fun k => decide ((shared.pcbs k).state = .running)
  queue := shared.rq.map Runqueue.head

def cpuOf (s : State) : Cpu := cpu s.shared (s.pc .scheduler) fun k => s.pc (.process k)

section Steps

variable {workload : Workload} {shared shared' : Shared} {scheduler : SchedulerPC}
  {process : Nat → ProcessPC}

/-- Writing other fields of a pcb calls nobody. -/
theorem called_setPcb (shared : Shared) (k : Nat) (pcb : Pcb)
    (h : pcb.state = (shared.pcbs k).state) :
    (fun j => decide (((shared.setPcb k pcb).pcbs j).state = .running))
      = fun j => decide ((shared.pcbs j).state = .running) := by
  funext j
  by_cases hj : j = k
  · subst hj
    simp [Shared.setPcb, h]
  · simp [Shared.setPcb, hj]

theorem called_setState (shared : Shared) (k : Nat) (state : ProcessState) :
    (fun j => decide (((shared.setState k state).pcbs j).state = .running))
      = Function.update (fun j => decide ((shared.pcbs j).state = .running)) k
          (decide (state = .running)) := by
  funext j
  by_cases h : j = k
  · subst h
    simp [Shared.setState, Shared.setPcb]
  · simp [Shared.setState, Shared.setPcb, h]

theorem phase_update (process : Nat → ProcessPC) (k : Nat) (next : ProcessPC) :
    (fun j => processPhase (Function.update process k next j))
      = Function.update (fun j => processPhase (process j)) k (processPhase next) := by
  funext j
  by_cases h : j = k
  · subst h
    simp
  · simp [h]

theorem cpu_queue {rq : Runqueue} (hrq : shared.rq = some rq) :
    (cpu shared scheduler process).queue = some rq.head := by
  show shared.rq.map Runqueue.head = _
  rw [hrq]
  rfl

/-- A process moves within a phase. -/
theorem cpu_update_eq {k : Nat} {next : ProcessPC}
    (h : processPhase next = processPhase (process k)) :
    cpu shared scheduler (Function.update process k next) = cpu shared scheduler process := by
  unfold cpu
  rw [phase_update, h, Function.update_eq_self_iff.mpr rfl]

/-- A step of the scheduler. -/
theorem cpu_scheduler {next : SchedulerPC}
    (hleft : scheduler = .select → ∀ j, processPhase (process j) ≠ .left)
    (h : (schedulerInstr workload scheduler).advance shared = some (shared', next)) :
    cpu shared' next process = cpu shared scheduler process ∨
      Cpu.Step (cpu shared scheduler process) (cpu shared' next process) := by
  cases scheduler with
  | whileRemaining =>
      cases h
      left
      unfold cpu
      split <;> rfl
  | whileBusy =>
      cases h
      -- leaving the wait loop is the decision, waiting on changes nothing
      cases hbusy : shared.haveRunningProcess || shared.waitingForNewProcess with
      | true => exact Or.inl rfl
      | false =>
          obtain ⟨hb, hp⟩ := Bool.or_eq_false_iff.mp hbusy
          exact Or.inr (.decide rfl hb hp)
  | select =>
      simp only [schedulerInstr, Threads.Instr.advance] at h
      split at h
      · next rq hrq =>
          cases h
          cases hmin : runqueueSmallestPcb shared.pcbs rq with
          | none => exact Or.inl rfl
          | some k =>
              have hmem := (runqueueSmallestPcb_spec hmin).1
              exact Or.inr (.choose k rfl (cpu_queue hrq) hmem (hleft rfl))
      · cases h
  | unlockRq pcb =>
      cases pcb <;> cases h <;> exact Or.inl rfl
  | setRunning k =>
      -- the call is the new state; the wake-up that follows is not needed for it
      cases h
      right
      have hcalled := called_setState shared k .running
      unfold cpu
      rw [hcalled]
      exact .call k rfl
  | setHaveRunning k =>
      cases h
      exact Or.inr (.occupy k rfl)
  | setWaiting =>
      cases h
      exact Or.inr (.park rfl)
  | freeRq =>
      cases h
      exact Or.inr .free
  | exited => cases h
  | _ => cases h; exact Or.inl rfl

/-- A step of a process. -/
theorem cpu_process {k : Nat} {next : ProcessPC}
    (hidle : process k = .clearRunning → schedulerGrant scheduler = .idle)
    (h : (processInstr k (process k)).advance shared = some (shared', next)) :
    cpu shared' scheduler (Function.update process k next) = cpu shared scheduler process ∨
      Cpu.Step (cpu shared scheduler process)
        (cpu shared' scheduler (Function.update process k next)) := by
  have hphase := phase_update process k next
  generalize hp : process k = p at h hidle
  have hnow : (cpu shared scheduler process).phase k = processPhase p := by rw [← hp]; rfl
  cases p with
  | notCreated =>
      simp only [processInstr, Threads.Instr.advance] at h
      split at h <;> cases h
      exact Or.inl (cpu_update_eq (by rw [hp]; rfl))
  | arrival =>
      obtain ⟨-, rfl, rfl⟩ := advance_arrival h
      exact Or.inl (cpu_update_eq (by rw [hp]; rfl))
  | whileLength =>
      obtain ⟨rfl, ⟨rfl, -⟩ | ⟨rfl, -⟩⟩ := advance_whileLength h <;>
        exact Or.inl (cpu_update_eq (by rw [hp]; rfl))
  | add =>
      -- `rq` is not freed here, otherwise there would be no step
      simp only [processInstr, Threads.Instr.advance] at h
      split at h
      · next rq hrq =>
          cases h
          have hstep := Cpu.Step.enqueue k hnow (cpu_queue hrq)
          unfold cpu at hstep ⊢
          rw [hphase]
          exact Or.inr hstep
      · cases h
  | clearWaiting =>
      -- the flag is cleared only where it was set
      cases h
      have hsame : cpu shared scheduler (Function.update process k .signalNew)
          = cpu shared scheduler process := cpu_update_eq (by rw [hp]; rfl)
      split
      · right
        show Cpu.Step _ { cpu shared scheduler (Function.update process k .signalNew) with
          parked := false }
        rw [hsame]
        exact .unpark
      · exact Or.inl hsame
  | whileReady =>
      -- the wait loop is left in state `PROCESS_RUNNING` only, so the process has been called
      cases h
      split
      · exact Or.inl (cpu_update_eq (by rw [hp]; rfl))
      · next hstate =>
          have hcalled : (cpu shared scheduler process).called k = true := by
            show decide ((shared.pcbs k).state = .running) = true
            simpa using hstate
          have hstep := Cpu.Step.enter k hnow hcalled
          unfold cpu at hstep ⊢
          rw [phase_update]
          exact Or.inr hstep
  | run =>
      obtain ⟨rfl, hslice⟩ := advance_run h
      obtain ⟨rq, timeslice, cpuTime, vruntime, hrq, -, -, -, rfl⟩ := runSlice_spec hslice
      have hcalled := called_setPcb shared k { shared.pcbs k with
        cpuTime := (shared.pcbs k).cpuTime + cpuTime
        vruntime := (shared.pcbs k).vruntime + vruntime } rfl
      have hstep := Cpu.Step.dequeue k hnow (cpu_queue hrq)
      unfold cpu at hstep ⊢
      rw [hphase, hcalled]
      exact Or.inr hstep
  | sleep =>
      obtain ⟨-, rfl, rfl⟩ := advance_sleep h
      exact Or.inl (cpu_update_eq (by rw [hp]; rfl))
  | setReady =>
      -- the pcb is ready again before the scheduler hears of it
      cases h
      have hcalled := called_setState shared k .ready
      have hstep := Cpu.Step.leave k hnow
      unfold cpu at hstep ⊢
      rw [hphase, hcalled]
      exact Or.inr hstep
  | testLength =>
      cases h
      left
      split <;> exact cpu_update_eq (by rw [hp]; rfl)
  | clearRunning =>
      -- only an idle scheduler lets go of the mutex that the process holds here
      cases h
      have hstep := Cpu.Step.release k hnow (hidle rfl)
      unfold cpu at hstep ⊢
      rw [hphase]
      exact Or.inr hstep
  | unlockTerminated =>
      cases h
      have hstep := Cpu.Step.finish k hnow
      unfold cpu at hstep ⊢
      rw [hphase]
      exact Or.inr hstep
  | departure =>
      obtain ⟨-, rfl, rfl⟩ := advance_departure h
      exact Or.inl (cpu_update_eq (by rw [hp]; rfl))
  | sendStats departureTime =>
      obtain ⟨rfl, -, statsArray, rfl⟩ := advance_sendStats h
      exact Or.inl (cpu_update_eq (by rw [hp]; rfl))
  | exited => cases h
  | _ =>
      cases h
      exact Or.inl (cpu_update_eq (by rw [hp]; rfl))

/-- A step of the generator. -/
theorem cpu_generator {p next : GeneratorPC}
    (hfresh : processPhase (process shared.created) = .outside)
    (h : (generatorInstr workload p).advance shared = some (shared', next)) :
    cpu shared' scheduler process = cpu shared scheduler process ∨
      Cpu.Step (cpu shared scheduler process) (cpu shared' scheduler process) := by
  cases p with
  | whileNext =>
      simp only [generatorInstr, Threads.Instr.advance] at h
      split at h <;> cases h <;> exact Or.inl rfl
  | create params =>
      -- a new pcb is not called, and nobody runs on it yet
      cases h
      have hcalled : (fun j => decide (((shared.setPcb shared.created
            (initPcb params (shared.created + 1))).pcbs j).state = .running))
          = Function.update (fun j => decide ((shared.pcbs j).state = .running)) shared.created
              false := by
        funext j
        by_cases h : j = shared.created
        · subst h
          simp [Shared.setPcb, initPcb]
        · simp [Shared.setPcb, h]
      have hstep := Cpu.Step.reset (c := cpu shared scheduler process) shared.created hfresh
      unfold cpu at hstep ⊢
      rw [hcalled]
      exact Or.inr hstep
  | exited => cases h
  | _ => cases h; exact Or.inl rfl

end Steps

/-! ## The simulation -/

/-- What holds of the locks, the places and the CPU. -/
structure Inv (workload : Workload) (s : State) : Prop where
  locks : LockInv (program workload) (fun t p m => m ∈ held t p) s
  places : PlaceInv s
  cpu : (cpuOf s).Inv

section Simulation

variable {workload : Workload} {s s' : State} {l : Label Thread}

theorem cpuOf_of_pc {scheduler : SchedulerPC} {process : Nat → ProcessPC}
    (hscheduler : s.pc .scheduler = scheduler) (hprocess : ∀ k, s.pc (.process k) = process k) :
    cpuOf s = cpu s.shared scheduler process := by
  have : (fun k => s.pc (.process k)) = process := funext hprocess
  rw [cpuOf, hscheduler, this]

/-- While the scheduler selects, no process is about to be done. -/
theorem Inv.not_left (hinv : Inv workload s) (hselect : s.pc .scheduler = .select) (j : Nat) :
    processPhase (s.pc (.process j)) ≠ .left := by
  intro hleft
  apply needScheduling_exclusive hinv.locks (by rw [hselect]; decide) (by rw [hselect]; decide) j
  cases hp : s.pc (.process j) <;> rw [hp] at hleft <;> cases hleft <;> simp [processHeld]

/-- While a process clears the flag, the scheduler is not past its test. -/
theorem Inv.grant_idle (hinv : Inv workload s) {k : Nat}
    (hclear : s.pc (.process k) = .clearRunning) : schedulerGrant (s.pc .scheduler) = .idle := by
  by_contra hgrant
  apply needScheduling_exclusive hinv.locks _ _ k
  · rw [hclear]
    simp [processHeld]
  · cases hp : s.pc .scheduler <;> rw [hp] at hgrant <;> first
      | exact absurd rfl hgrant
      | simp [schedulerHeld]
  · intro hp
    rw [hp] at hgrant
    exact hgrant rfl

/-- **Every step of the program is a transition, or leaves the CPU as it is.** -/
theorem cpuOf_step (hinv : Inv workload s) (hstep : (cfs workload).step l s = some s') :
    cpuOf s' = cpuOf s ∨ (cpuOf s).Step (cpuOf s') := by
  cases step_of hstep with
  | process k next _ hadvance hself hother =>
      have hnext : cpuOf s' = cpu s'.shared (s.pc .scheduler)
          (Function.update (fun j => s.pc (.process j)) k next) := by
        apply cpuOf_of_pc (hother _ (by simp))
        intro j
        by_cases h : j = k
        · subst h
          rw [hself, Function.update_self]
        · rw [hother _ (by simpa using h), Function.update_of_ne h]
      rw [hnext]
      exact cpu_process (fun h => hinv.grant_idle h) hadvance
  | scheduler next hadvance hself hother =>
      rw [cpuOf_of_pc hself fun k => hother (.process k) (by simp)]
      exact cpu_scheduler (fun h => hinv.not_left h) hadvance
  | generator next hadvance _ hother =>
      have hfresh : processPhase (s.pc (.process s.shared.created)) = .outside := by
        rw [hinv.places.fresh _ le_rfl]
        rfl
      rw [cpuOf_of_pc (hother _ (by simp)) fun k => hother (.process k) (by simp)]
      exact cpu_generator hfresh hadvance
  | aside hshared hother =>
      left
      rw [cpuOf_of_pc (hother _ (by simp)) fun k => hother (.process k) (by simp), hshared]
      rfl

theorem Inv.step (hinv : Inv workload s) (hstep : (cfs workload).step l s = some s') :
    Inv workload s' where
  locks := hinv.locks.step (discipline workload) hstep
  places := hinv.places.step hstep
  cpu := by
    rcases cpuOf_step hinv hstep with h | h
    · rw [h]
      exact hinv.cpu
    · exact hinv.cpu.step h

theorem Inv.reachable (hs : (cfs workload).Reachable s) : Inv workload s := by
  apply hs.invariant
  · exact ⟨LockInv.reachable (discipline workload) System.reachable_init,
      PlaceInv.reachable System.reachable_init, Cpu.inv_init⟩
  · exact fun s l s' hinv hstep => hinv.step hstep

end Simulation

/-! ## One CPU -/

/-- Between leaving the wait loop and the end of `signal_scheduler_terminated_process`. -/
def ProcessPC.OnCpu : ProcessPC → Prop
  | .lockRqRun | .run | .unlockRqRun | .sleep | .setReady | .testLength | .lockRqDone | .decrement
  | .unlockRqDone | .lockTerminated | .clearRunning | .signalTerminated | .unlockTerminated => True
  | _ => False

/-- Between adding itself to the queue and removing itself. -/
def ProcessPC.Queued : ProcessPC → Prop
  | .unlockRqAdd | .lockNew | .clearWaiting | .signalNew | .unlockNew | .lockPcb | .whileReady
  | .waitPcb | .lockRqRun | .run => True
  | _ => False

/-- The step in which the scheduler selects a pcb. -/
def Selects (k : Nat) (s s' : State) : Prop :=
  s.pc .scheduler = .select ∧ s'.pc .scheduler = .unlockRq (some k)

/-- The step in which a process gives the CPU back: the end of
`signal_scheduler_terminated_process`. -/
def GivesBack (k : Nat) (s s' : State) : Prop :=
  s.pc (.process k) = .unlockTerminated ∧ s'.pc (.process k) = .unlockPcb

structure OneCpu (s : State) : Prop where
  at_most_one : ∀ j k, (s.pc (.process j)).OnCpu → (s.pc (.process k)).OnCpu → j = k
  nodup : ∀ rq, s.shared.rq = some rq → rq.head.Nodup
  mem_iff : ∀ rq, s.shared.rq = some rq → ∀ k, k ∈ rq.head ↔ (s.pc (.process k)).Queued
  not_both : ¬ (s.shared.haveRunningProcess = true ∧ s.shared.waitingForNewProcess = true)

theorem onCpu_iff (p : ProcessPC) : p.OnCpu ↔ (processPhase p).OnCpu := by
  cases p <;> simp [ProcessPC.OnCpu, processPhase, Phase.OnCpu]

theorem queued_iff (p : ProcessPC) : p.Queued ↔ (processPhase p).Queued := by
  cases p <;> simp [ProcessPC.Queued, processPhase, Phase.Queued]

section OneCpu

variable {workload : Workload} {s s' : State} {l : Label Thread}

theorem Inv.queue {rq : Runqueue} (hinv : Inv workload s) (hrq : s.shared.rq = some rq) :
    rq.head.Nodup ∧ ∀ k, k ∈ rq.head ↔ (s.pc (.process k)).Queued := by
  have hqueue : (cpuOf s).queue = some rq.head := cpu_queue hrq
  refine ⟨hinv.cpu.nodup _ hqueue, fun k => ?_⟩
  rw [queued_iff]
  exact hinv.cpu.mem_iff _ hqueue k

theorem Inv.oneCpu (hinv : Inv workload s) : OneCpu s where
  at_most_one j k hj hk := hinv.cpu.unique j k (Or.inr (Or.inr ((onCpu_iff _).mp hj)))
    (Or.inr (Or.inr ((onCpu_iff _).mp hk)))
  nodup _ hrq := (hinv.queue hrq).1
  mem_iff _ hrq := (hinv.queue hrq).2
  not_both := hinv.cpu.not_both

/-- The scheduler selects when the CPU is free. -/
theorem Inv.free (hinv : Inv workload s) (hselect : s.pc .scheduler = .select) (k : Nat) :
    ¬ (cpuOf s).Holds k := by
  have hgrant : (cpuOf s).grant = .deciding := by
    show schedulerGrant (s.pc .scheduler) = .deciding
    rw [hselect]
    rfl
  exact hinv.cpu.free hgrant (hinv.not_left hselect) k

/-- The selected process holds the CPU. -/
theorem holds_of_selects {k : Nat} (h : Selects k s s') : (cpuOf s').Holds k := by
  left
  show schedulerGrant (s'.pc .scheduler) = .chosen k
  rw [h.2]
  rfl

/-- A process only leaves the last phase by the end of the call. -/
theorem givesBack_of_phase (hstep : (cfs workload).step l s = some s') {k : Nat}
    (hleft : processPhase (s.pc (.process k)) = .left)
    (hout : processPhase (s'.pc (.process k)) = .outside) : GivesBack k s s' := by
  rcases Threads.step_pc hstep (.process k) with hpc | ⟨-, hadvance⟩
  · rw [hpc, hleft] at hout
    cases hout
  · have hadvance : (processInstr k (s.pc (.process k))).advance s.shared
        = some (s'.shared, s'.pc (.process k)) := hadvance
    cases hp : s.pc (.process k) with
    | signalTerminated =>
        -- the signal itself stays in the phase
        rw [hp] at hadvance
        have hnext : .unlockTerminated = s'.pc (.process k) :=
          (Prod.mk.inj (Option.some.inj hadvance)).2
        rw [← hnext] at hout
        cases hout
    | unlockTerminated =>
        rw [hp] at hadvance
        have hnext : .unlockPcb = s'.pc (.process k) := (Prod.mk.inj (Option.some.inj hadvance)).2
        exact ⟨hp, hnext.symm⟩
    | _ => rw [hp] at hleft; cases hleft

/-- The CPU is held until it is given back. -/
theorem Inv.holds_step (hinv : Inv workload s) (hstep : (cfs workload).step l s = some s') {k : Nat}
    (hk : (cpuOf s).Holds k) : (cpuOf s').Holds k ∨ GivesBack k s s' := by
  rcases cpuOf_step hinv hstep with hsame | htransition
  · rw [hsame]
    exact Or.inl hk
  · rcases htransition.holds hinv.cpu hk with hholds | ⟨hleft, hout⟩
    · exact Or.inl hholds
    · exact Or.inr (givesBack_of_phase hstep hleft hout)

end OneCpu

/-- **One CPU**, over every workload and every schedule: what holds in each reachable state, and
between two selections the process that was selected first gives the CPU back. -/
theorem cfs_one_cpu (workload : Workload) :
    (∀ s, (cfs workload).Reachable s → OneCpu s) ∧
      ∀ s₀ l s₁ ls s₂ m s₃ j k, (cfs workload).Reachable s₀ →
        (cfs workload).step l s₀ = some s₁ → Selects j s₀ s₁ →
        (cfs workload).run ls s₁ = some s₂ →
        (cfs workload).step m s₂ = some s₃ → Selects k s₂ s₃ →
        ∃ before n after t t', ls = before ++ n :: after ∧
          (cfs workload).run before s₁ = some t ∧ (cfs workload).step n t = some t' ∧
          GivesBack j t t' := by
  refine ⟨fun s hs => (Inv.reachable hs).oneCpu, ?_⟩
  intro s₀ l s₁ ls s₂ m s₃ j k hs₀ hl hj hrun hm hk
  have hstart : Inv workload s₁ ∧ (cpuOf s₁).Holds j :=
    ⟨Inv.reachable (hs₀.step hl), holds_of_selects hj⟩
  -- step by step, `j` holds the CPU or gives it back
  have hkeep : ∀ s l s', (Inv workload s ∧ (cpuOf s).Holds j) →
      (cfs workload).step l s = some s' →
      (Inv workload s' ∧ (cpuOf s').Holds j) ∨ GivesBack j s s' := by
    rintro s l s' ⟨hinv, hholds⟩ hstep
    exact (hinv.holds_step hstep hholds).imp_left fun h => ⟨hinv.step hstep, h⟩
  rcases System.run_until hkeep hstart hrun with ⟨hinv, hholds⟩ | hback
  · -- the second selection would find the CPU held
    exact absurd hholds (hinv.free hk.1 j)
  · exact hback

end Cs342.Cfs
