import Mathlib
import Cs342.Cfs.Machine

/-!
# Which thread holds which mutex

Every point of the program has its list of mutexes; `discipline` checks the lists against the
instructions. In a reachable state a mutex then is where some thread's list has it, and
**`needScheduling_exclusive`** is the part of this that the handing over of the CPU rests on: while
the scheduler decides, no process is inside of `signal_scheduler_terminated_process`.
-/

namespace Cs342.Cfs

open Threads (Discipline LockInv)

def schedulerHeld : SchedulerPC → List Mutex
  | .whileBusy | .waitNeedScheduling | .lockRq => [.needScheduling]
  | .select | .unlockRq _ => [.needScheduling, .runqueue]
  | .lockPcb _ => [.needScheduling]
  | .setRunning pcb | .signalPcb pcb | .unlockPcb pcb => [.needScheduling, .pcb pcb]
  | .setHaveRunning _ | .setWaiting | .unlockNeedScheduling => [.needScheduling]
  | _ => []

def processHeld (k : Nat) : ProcessPC → List Mutex
  | .add | .unlockRqAdd => [.runqueue]
  | .clearWaiting | .signalNew | .unlockNew => [.needScheduling]
  | .whileReady | .waitPcb | .lockRqRun => [.pcb k]
  | .run | .unlockRqRun => [.pcb k, .runqueue]
  | .sleep | .setReady | .testLength | .lockRqDone => [.pcb k]
  | .decrement | .unlockRqDone => [.pcb k, .runqueue]
  | .lockTerminated => [.pcb k]
  | .clearRunning | .signalTerminated | .unlockTerminated => [.pcb k, .needScheduling]
  | .unlockPcb => [.pcb k]
  | _ => []

def generatorHeld : GeneratorPC → List Mutex
  | .readCount | .unlockRq _ => [.runqueue]
  | _ => []

def held : (t : Thread) → PC t → List Mutex
  | .scheduler => schedulerHeld
  | .generator => generatorHeld
  | .main => fun _ => []
  | .clock => fun _ => []
  | .process k => processHeld k

theorem process_respects (k : Nat) (p : ProcessPC) :
    (processInstr k p).Respects (fun p m => m ∈ processHeld k p) p := by
  cases p <;> simp only [processInstr, Threads.Instr.Respects] <;>
    grind [processHeld, Option.map_eq_some_iff]

theorem scheduler_respects (workload : Workload) (p : SchedulerPC) :
    (schedulerInstr workload p).Respects (fun p m => m ∈ schedulerHeld p) p := by
  cases p with
  | unlockRq pcb =>
      cases pcb <;> simp only [schedulerInstr, Threads.Instr.Respects] <;> grind [schedulerHeld]
  | _ => simp only [schedulerInstr, Threads.Instr.Respects] <;> grind [schedulerHeld]

theorem generator_respects (workload : Workload) (p : GeneratorPC) :
    (generatorInstr workload p).Respects (fun p m => m ∈ generatorHeld p) p := by
  cases p <;> simp only [generatorInstr, Threads.Instr.Respects] <;> grind [generatorHeld]

theorem discipline (workload : Workload) :
    Discipline (program workload) fun t p m => m ∈ held t p where
  entry := by
    intro t m
    cases t <;> exact List.not_mem_nil
  respects := by
    intro t p
    cases t with
    | scheduler => exact scheduler_respects workload p
    | generator => exact generator_respects workload p
    | main => cases p <;> simp [program, mainInstr, held, Threads.Instr.Respects]
    | clock => simp [program, clockInstr, held, Threads.Instr.Respects]
    | process k => exact process_respects k p

/-- The scheduler only waits for scheduling to be needed. -/
theorem eq_of_scheduler_wait {workload : Workload} {p next : SchedulerPC} {c : CondVar} {m : Mutex}
    (h : schedulerInstr workload p = .wait c m next) : next = .whileBusy := by
  cases p with
  | unlockRq pcb => cases pcb <;> cases h
  | _ => cases h <;> rfl

theorem cond_of_scheduler_wait {workload : Workload} {p next : SchedulerPC} {c : CondVar} {m : Mutex}
    (h : schedulerInstr workload p = .wait c m next) :
    p = .waitNeedScheduling ∧ c = .needScheduling ∧ m = .needScheduling := by
  cases p with
  | unlockRq pcb => cases pcb <;> cases h
  | _ => cases h <;> exact ⟨rfl, rfl, rfl⟩

/-- A process only waits for its own call. -/
theorem eq_of_process_wait {k : Nat} {p next : ProcessPC} {c : CondVar} {m : Mutex}
    (h : processInstr k p = .wait c m next) : m = .pcb k := by
  cases p <;> cases h
  rfl

theorem cond_of_process_wait {k : Nat} {p next : ProcessPC} {c : CondVar} {m : Mutex}
    (h : processInstr k p = .wait c m next) : c = .pcb k := by
  cases p <;> cases h
  rfl

theorem point_of_process_wait {k : Nat} {p next : ProcessPC} {c : CondVar} {m : Mutex}
    (h : processInstr k p = .wait c m next) : p = .waitPcb := by
  cases p <;> cases h
  rfl

theorem next_of_process_wait {k : Nat} {p next : ProcessPC} {c : CondVar} {m : Mutex}
    (h : processInstr k p = .wait c m next) : next = .whileReady := by
  cases p <;> cases h
  rfl

/-- The other threads wait for nothing. -/
theorem running_of_never_waits {workload : Workload} {s : State}
    (hlocks : LockInv (program workload) (fun t p m => m ∈ held t p) s) {t : Thread}
    (hscheduler : t ≠ .scheduler) (hprocess : ∀ k, t ≠ .process k) : s.mode t = .running := by
  apply hlocks.running
  intro p c m hwait
  cases t with
  | scheduler => exact hscheduler rfl
  | process k => exact hprocess k rfl
  | generator =>
      have hwait : generatorInstr workload p = .wait c m (s.pc .generator) := hwait
      cases p <;> cases hwait
  | main =>
      have hwait : mainInstr p = .wait c m (s.pc .main) := hwait
      cases p <;> cases hwait
  | clock => cases hwait

theorem process_running {workload : Workload} {s : State}
    (hlocks : LockInv (program workload) (fun t p m => m ∈ held t p) s) {k : Nat}
    (hp : s.pc (.process k) ≠ .whileReady) : s.mode (.process k) = .running := by
  apply hlocks.running
  intro p c m hwait
  exact hp (next_of_process_wait hwait)

theorem scheduler_running {workload : Workload} {s : State}
    (hlocks : LockInv (program workload) (fun t p m => m ∈ held t p) s)
    (hp : s.pc .scheduler ≠ .whileBusy) : s.mode .scheduler = .running := by
  apply hlocks.running
  intro p c m hwait
  exact hp (eq_of_scheduler_wait hwait)

/-- While the scheduler is past its wait loop, no process holds its mutex. -/
theorem needScheduling_exclusive {workload : Workload} {s : State}
    (hlocks : LockInv (program workload) (fun t p m => m ∈ held t p) s)
    (hscheduler : .needScheduling ∈ schedulerHeld (s.pc .scheduler))
    (hpast : s.pc .scheduler ≠ .whileBusy) (k : Nat) :
    .needScheduling ∉ processHeld k (s.pc (.process k)) := by
  intro hprocess
  have heq : Thread.scheduler = .process k := by
    apply hlocks.exclusive hscheduler hprocess
    · intro p c h
      exact hpast (eq_of_scheduler_wait h)
    · intro p c h
      cases eq_of_process_wait h
  cases heq

end Cs342.Cfs
