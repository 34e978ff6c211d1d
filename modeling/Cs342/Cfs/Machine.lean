import Mathlib
import Cs342.Library.Threads
import Cs342.Cfs.Runqueue

/-!
# The threads of the simulator (`scheduler.c`, `process.c`, `generator.c`, `main.c`)

Main has created the scheduler and the generator; the generator creates the process threads, one
for each process the workload yields. Every lock, unlock, wait and signal is a step, and so is every
access to shared data between them; a block that runs under one mutex and touches nothing else is
one access. A sleep takes as long as it takes, whatever its argument, and a mutex that has been
destroyed goes on working. The clock is a thread of its own.
-/

namespace Cs342.Cfs

/-- `struct process_params`. -/
structure ProcessParams where
  length : Int
  priority : Int
  interarrivalTime : Int
  deriving DecidableEq, Repr

/-- The processes that the iterator yields, and `struct workload_common_params`. -/
structure Workload where
  processes : List ProcessParams
  totalProcessCount : Int
  maxRunqueueLength : Int

/-- `struct process_statistics`. -/
structure ProcessStatistics where
  pid : Int
  arrivalTime : Int
  departureTime : Int
  priority : Int
  cpuTime : Int
  waitingTime : Int
  turnaroundTime : Int
  contextSwitchCount : Int
  deriving DecidableEq, Repr

inductive Thread where
  | scheduler
  | generator
  | main
  | clock
  | process (k : Nat)
  deriving DecidableEq, Repr

inductive Mutex where
  | needScheduling
  | runqueue
  | pcb (k : Nat)
  deriving DecidableEq, Repr

inductive CondVar where
  | needScheduling
  | pcb (k : Nat)
  deriving DecidableEq, Repr

/-- The locals of a process thread that live as long as it does. -/
structure ProcessLocals where
  contextSwitchCount : Int
  arrivalTime : Int
  deriving DecidableEq, Repr

/-- The globals, the control blocks and the locals of the process threads. -/
structure Shared where
  rq : Option Runqueue
  haveRunningProcess : Bool
  waitingForNewProcess : Bool
  remainingProcessCount : Int
  pcbs : Nat → Pcb
  locals : Nat → ProcessLocals
  /-- The number of process threads created so far; the pid of the next one is one more. -/
  created : Nat
  statsArray : List (Option ProcessStatistics)
  clock : Int
  /-- The scheduler has destroyed the two mutexes and the condition variable. -/
  destroyed : Bool
  schedulerExited : Bool
  generatorExited : Bool
  /-- What `print_table` has read. -/
  printed : Option (List (Option ProcessStatistics))
  /-- `print_table` has freed `stats_array`. -/
  statsFreed : Bool
  /-- `free_arguments` has freed the `workload_params`. -/
  argumentsFreed : Bool

namespace Shared

def setPcb (shared : Shared) (k : Nat) (pcb : Pcb) : Shared :=
  { shared with pcbs := Function.update shared.pcbs k pcb }

/-- `pcb->state = state`. -/
def setState (shared : Shared) (k : Nat) (state : ProcessState) : Shared :=
  shared.setPcb k { shared.pcbs k with state := state }

end Shared

/-! ## The scheduler -/

/-- The points of `start_scheduler_thread`, with the pcb that has been selected. -/
inductive SchedulerPC where
  | start
  | whileRemaining
  | lockNeedScheduling
  | whileBusy
  | waitNeedScheduling
  | lockRq
  | select
  | unlockRq (pcb : Option Nat)
  | lockPcb (pcb : Nat)
  | setRunning (pcb : Nat)
  | signalPcb (pcb : Nat)
  | unlockPcb (pcb : Nat)
  | setHaveRunning (pcb : Nat)
  | setWaiting
  | unlockNeedScheduling
  | destroy
  | freeRq
  | pthreadExit
  | exited
  deriving DecidableEq, Repr

abbrev Instr (PC : Type) := Threads.Instr Mutex CondVar Shared PC

def schedulerInstr (workload : Workload) : SchedulerPC → Instr SchedulerPC
  | .start => .exec fun shared =>
      some ({ shared with remainingProcessCount := workload.totalProcessCount }, .whileRemaining)
  | .whileRemaining => .exec fun shared =>
      some (shared, if shared.remainingProcessCount ≠ 0 then .lockNeedScheduling else .destroy)
  | .lockNeedScheduling => .lock .needScheduling .whileBusy
  | .whileBusy => .exec fun shared =>
      some (shared, if shared.haveRunningProcess || shared.waitingForNewProcess
        then .waitNeedScheduling else .lockRq)
  | .waitNeedScheduling => .wait .needScheduling .needScheduling .whileBusy
  | .lockRq => .lock .runqueue .select
  | .select => .exec fun shared =>
      match shared.rq with
      | some rq => some (shared, .unlockRq (runqueueSmallestPcb shared.pcbs rq))
      | none => none
  | .unlockRq (some pcb) => .unlock .runqueue (.lockPcb pcb)
  | .unlockRq none => .unlock .runqueue .setWaiting
  | .lockPcb pcb => .lock (.pcb pcb) (.setRunning pcb)
  | .setRunning pcb => .exec fun shared => some (shared.setState pcb .running, .signalPcb pcb)
  | .signalPcb pcb => .signal (.pcb pcb) (.unlockPcb pcb)
  | .unlockPcb pcb => .unlock (.pcb pcb) (.setHaveRunning pcb)
  | .setHaveRunning _ => .exec fun shared =>
      some ({ shared with haveRunningProcess := true }, .unlockNeedScheduling)
  | .setWaiting => .exec fun shared =>
      some ({ shared with waitingForNewProcess := true }, .unlockNeedScheduling)
  | .unlockNeedScheduling => .unlock .needScheduling .whileRemaining
  | .destroy => .exec fun shared => some ({ shared with destroyed := true }, .freeRq)
  | .freeRq => .exec fun shared => some ({ shared with rq := none }, .pthreadExit)
  | .pthreadExit => .exec fun shared => some ({ shared with schedulerExited := true }, .exited)
  | .exited => .halt

/-! ## A process -/

/-- The points of `start_process_thread`; the second half of a slice is the part that ends in
`signal_scheduler_terminated_process`. -/
inductive ProcessPC where
  | notCreated
  | arrival
  | whileLength
  | lockRqAdd
  | add
  | unlockRqAdd
  | lockNew
  | clearWaiting
  | signalNew
  | unlockNew
  | lockPcb
  | whileReady
  | waitPcb
  | lockRqRun
  | run
  | unlockRqRun
  | sleep
  | setReady
  | testLength
  | lockRqDone
  | decrement
  | unlockRqDone
  | lockTerminated
  | clearRunning
  | signalTerminated
  | unlockTerminated
  | unlockPcb
  | departure
  | sendStats (departureTime : Int)
  | exited
  deriving DecidableEq, Repr

/-- The block between taking the queue for a slice and giving it back. -/
def runSlice (k : Nat) (shared : Shared) : Outcome Shared := do
  let rq ← Outcome.ofOption shared.rq
  let rq := runqueueRemovePcb rq k
  let cpuTime ← clippedTimeslice shared.pcbs rq k
  let pcbs ← updatePcbTimings shared.pcbs k cpuTime
  let locals := shared.locals k
  return { shared with
    rq := some rq
    pcbs := pcbs
    locals := Function.update shared.locals k
      { locals with contextSwitchCount := locals.contextSwitchCount + 1 } }

/-- **A slice** takes the pcb off the queue and charges it for the time of the slice. -/
theorem runSlice_spec {k : Nat} {shared shared' : Shared} (h : runSlice k shared = .ok shared') :
    ∃ rq timeslice cpuTime vruntime, shared.rq = some rq ∧
      runqueueTimeslice shared.pcbs (runqueueRemovePcb rq k) (shared.pcbs k).priority
        = .ok timeslice ∧
      cpuTime = min ((shared.pcbs k).processLength - (shared.pcbs k).cpuTime) timeslice ∧
      runqueueVruntime (shared.pcbs k).priority cpuTime = .ok vruntime ∧
      shared' = { shared.setPcb k { shared.pcbs k with
          cpuTime := (shared.pcbs k).cpuTime + cpuTime
          vruntime := (shared.pcbs k).vruntime + vruntime } with
        rq := some (runqueueRemovePcb rq k)
        locals := Function.update shared.locals k { shared.locals k with
          contextSwitchCount := (shared.locals k).contextSwitchCount + 1 } } := by
  unfold runSlice at h
  obtain ⟨rq, hrq, h⟩ := Outcome.bind_eq_ok.mp h
  obtain ⟨cpuTime, hcpuTime, h⟩ := Outcome.bind_eq_ok.mp h
  obtain ⟨timeslice, htimeslice, hclipped⟩ := clippedTimeslice_eq_ok.mp hcpuTime
  obtain ⟨pcbs, hpcbs, h⟩ := Outcome.bind_eq_ok.mp h
  obtain ⟨vruntime, hvruntime, hpcbs⟩ := Outcome.bind_eq_ok.mp hpcbs
  refine ⟨rq, timeslice, cpuTime, vruntime, Outcome.ofOption_eq_ok.mp hrq, htimeslice, hclipped,
    hvruntime, ?_⟩
  cases hpcbs
  cases h
  rfl

/-- The statistics at the end of a process thread. -/
def processStatistics (pcb : Pcb) (locals : ProcessLocals) (departureTime : Int) :
    ProcessStatistics :=
  let turnaroundTime := departureTime - locals.arrivalTime
  let waitingTime := turnaroundTime - pcb.cpuTime
  { pid := pcb.pid
    arrivalTime := locals.arrivalTime
    departureTime := departureTime
    priority := pcb.priority
    cpuTime := pcb.cpuTime
    waitingTime := waitingTime
    turnaroundTime := turnaroundTime
    contextSwitchCount := locals.contextSwitchCount }

/-- `stats_array[stats.pid - 1] = stats`. -/
def sendProcessStats (stats : ProcessStatistics) (shared : Shared) : Option Shared :=
  if 0 ≤ stats.pid - 1 ∧ stats.pid - 1 < shared.statsArray.length then
    some { shared with statsArray := shared.statsArray.set (stats.pid - 1).toNat (some stats) }
  else none

def processInstr (k : Nat) : ProcessPC → Instr ProcessPC
  | .notCreated => .await (fun shared => decide (k < shared.created)) .arrival
  -- here, at the top of the loop, after a slice and at the end the arguments are read, for the mode
  -- of the debugging output
  | .arrival => .exec fun shared =>
      let locals := { contextSwitchCount := 0, arrivalTime := shared.clock }
      if shared.argumentsFreed then none else
        some ({ shared with locals := Function.update shared.locals k locals }, .whileLength)
  | .whileLength => .exec fun shared =>
      if (shared.pcbs k).processLength > (shared.pcbs k).cpuTime then
        if shared.argumentsFreed then none else some (shared, .lockRqAdd)
      else some (shared, .departure)
  | .lockRqAdd => .lock .runqueue .add
  | .add => .exec fun shared =>
      match shared.rq with
      | some rq => some ({ shared with rq := some (runqueueAddPcb rq k) }, .unlockRqAdd)
      | none => none
  | .unlockRqAdd => .unlock .runqueue .lockNew
  -- signal_scheduler_new_process
  | .lockNew => .lock .needScheduling .clearWaiting
  | .clearWaiting => .exec fun shared =>
      some (if !shared.haveRunningProcess then { shared with waitingForNewProcess := false }
        else shared, .signalNew)
  | .signalNew => .signal .needScheduling .unlockNew
  | .unlockNew => .unlock .needScheduling .lockPcb
  | .lockPcb => .lock (.pcb k) .whileReady
  | .whileReady => .exec fun shared =>
      some (shared, if (shared.pcbs k).state ≠ .running then .waitPcb else .lockRqRun)
  | .waitPcb => .wait (.pcb k) (.pcb k) .whileReady
  | .lockRqRun => .lock .runqueue .run
  | .run => .exec fun shared =>
      ((runSlice k shared).toOption).map fun shared => (shared, .unlockRqRun)
  | .unlockRqRun => .unlock .runqueue .sleep
  | .sleep => .exec fun shared =>
      if shared.argumentsFreed then none else some (shared, .setReady)
  | .setReady => .exec fun shared => some (shared.setState k .ready, .testLength)
  | .testLength => .exec fun shared =>
      some (shared, if (shared.pcbs k).processLength ≤ (shared.pcbs k).cpuTime
        then .lockRqDone else .lockTerminated)
  -- notify_process_termination
  | .lockRqDone => .lock .runqueue .decrement
  | .decrement => .exec fun shared =>
      some ({ shared with remainingProcessCount := shared.remainingProcessCount - 1 },
        .unlockRqDone)
  | .unlockRqDone => .unlock .runqueue .lockTerminated
  -- signal_scheduler_terminated_process
  | .lockTerminated => .lock .needScheduling .clearRunning
  | .clearRunning => .exec fun shared =>
      some ({ shared with haveRunningProcess := false }, .signalTerminated)
  | .signalTerminated => .signal .needScheduling .unlockTerminated
  | .unlockTerminated => .unlock .needScheduling .unlockPcb
  | .unlockPcb => .unlock (.pcb k) .whileLength
  | .departure => .exec fun shared =>
      if shared.argumentsFreed then none else some (shared, .sendStats shared.clock)
  | .sendStats departureTime => .exec fun shared =>
      if shared.statsFreed then none else
        (sendProcessStats (processStatistics (shared.pcbs k) (shared.locals k) departureTime)
          shared).map fun shared => (shared, .exited)
  | .exited => .halt

section Advance

variable {k : Nat} {shared shared' : Shared} {next : ProcessPC}

/-- The first step of a process, while the arguments are there. -/
theorem advance_arrival (h : (processInstr k .arrival).advance shared = some (shared', next)) :
    shared.argumentsFreed = false ∧ next = .whileLength ∧
      shared' = { shared with
        locals := Function.update shared.locals k
          { contextSwitchCount := 0, arrivalTime := shared.clock } } := by
  simp only [processInstr, Threads.Instr.advance] at h
  split at h
  · cases h
  · next hkept =>
      cases h
      exact ⟨by simpa using hkept, rfl, rfl⟩

/-- The loop is entered while the arguments are there, and left when the length is used up. -/
theorem advance_whileLength
    (h : (processInstr k .whileLength).advance shared = some (shared', next)) :
    shared' = shared ∧
      ((next = .lockRqAdd ∧ shared.argumentsFreed = false ∧
          (shared.pcbs k).cpuTime < (shared.pcbs k).processLength) ∨
        (next = .departure ∧ (shared.pcbs k).processLength ≤ (shared.pcbs k).cpuTime)) := by
  simp only [processInstr, Threads.Instr.advance] at h
  split at h
  · next hlength =>
      split at h
      · cases h
      · next hkept =>
          cases h
          exact ⟨rfl, Or.inl ⟨rfl, by simpa using hkept, hlength⟩⟩
  · next hlength =>
      cases h
      exact ⟨rfl, Or.inr ⟨rfl, not_lt.mp hlength⟩⟩

theorem advance_sleep (h : (processInstr k .sleep).advance shared = some (shared', next)) :
    shared.argumentsFreed = false ∧ next = .setReady ∧ shared' = shared := by
  simp only [processInstr, Threads.Instr.advance] at h
  split at h
  · cases h
  · next hkept =>
      cases h
      exact ⟨by simpa using hkept, rfl, rfl⟩

theorem advance_departure (h : (processInstr k .departure).advance shared = some (shared', next)) :
    shared.argumentsFreed = false ∧ next = .sendStats shared.clock ∧ shared' = shared := by
  simp only [processInstr, Threads.Instr.advance] at h
  split at h
  · cases h
  · next hkept =>
      cases h
      exact ⟨by simpa using hkept, rfl, rfl⟩

/-- A step into a slice. -/
theorem advance_run (h : (processInstr k .run).advance shared = some (shared', next)) :
    next = .unlockRqRun ∧ runSlice k shared = .ok shared' := by
  obtain ⟨after, hslice, heq⟩ := Option.map_eq_some_iff.mp h
  cases heq
  exact ⟨rfl, Outcome.toOption_eq_some.mp hslice⟩

/-- The last step of a process writes its statistics and nothing else. -/
theorem advance_sendStats {departureTime : Int}
    (h : (processInstr k (.sendStats departureTime)).advance shared = some (shared', next)) :
    next = .exited ∧
      sendProcessStats (processStatistics (shared.pcbs k) (shared.locals k) departureTime) shared
        = some shared' ∧
      ∃ statsArray, shared' = { shared with statsArray := statsArray } := by
  simp only [processInstr, Threads.Instr.advance] at h
  split at h
  · cases h
  obtain ⟨after, hsend, heq⟩ := Option.map_eq_some_iff.mp h
  cases heq
  refine ⟨rfl, hsend, ?_⟩
  unfold sendProcessStats at hsend
  split at hsend <;> cases hsend
  exact ⟨_, rfl⟩

end Advance

/-! ## The generator, main and the clock -/

/-- The points of `start_generator_thread`. -/
inductive GeneratorPC where
  | whileNext
  | create (params : ProcessParams)
  | sleep
  | lockRq
  | readCount
  | unlockRq (count : Int)
  | pthreadExit
  | exited
  deriving DecidableEq, Repr

/-- The control block of a new process. -/
def initPcb (params : ProcessParams) (pid : Int) : Pcb where
  pid := pid
  state := .ready
  priority := params.priority
  processLength := params.length
  cpuTime := 0
  vruntime := 0

def generatorInstr (workload : Workload) : GeneratorPC → Instr GeneratorPC
  | .whileNext => .exec fun shared =>
      match workload.processes[shared.created]? with
      | some params => some (shared, .create params)
      | none => some (shared, .pthreadExit)
  | .create params => .exec fun shared =>
      some ({ shared.setPcb shared.created (initPcb params (shared.created + 1)) with
        created := shared.created + 1 }, .sleep)
  | .sleep => .exec fun shared => some (shared, .lockRq)
  -- get_runqueue_item_count
  | .lockRq => .lock .runqueue .readCount
  | .readCount => .exec fun shared =>
      some (shared, .unlockRq (match shared.rq with | some rq => rq.count | none => 0))
  | .unlockRq count => .unlock .runqueue
      (if count = workload.maxRunqueueLength then .sleep else .whileNext)
  | .pthreadExit => .exec fun shared => some ({ shared with generatorExited := true }, .exited)
  | .exited => .halt

/-- The points of `main` from the joins on, to its `return`. -/
inductive MainPC where
  | joinScheduler
  | joinGenerator
  | printTable
  | freeStats
  | freeArguments
  | exited
  deriving DecidableEq, Repr

/-- Main has waited for the two threads. -/
def MainPC.Joined : MainPC → Prop
  | .joinScheduler | .joinGenerator => False
  | _ => True

def mainInstr : MainPC → Instr MainPC
  | .joinScheduler => .await (fun shared => shared.schedulerExited) .joinGenerator
  | .joinGenerator => .await (fun shared => shared.generatorExited) .printTable
  -- print_table
  | .printTable => .exec fun shared =>
      some ({ shared with printed := some shared.statsArray }, .freeStats)
  | .freeStats => .exec fun shared => some ({ shared with statsFreed := true }, .freeArguments)
  | .freeArguments => .exec fun shared => some ({ shared with argumentsFreed := true }, .exited)
  | .exited => .halt

/-- Time passes. -/
def clockInstr (_ : Unit) : Instr Unit :=
  .exec fun shared => some ({ shared with clock := shared.clock + 1 }, ())

/-! ## The program -/

abbrev PC : Thread → Type
  | .scheduler => SchedulerPC
  | .generator => GeneratorPC
  | .main => MainPC
  | .clock => Unit
  | .process _ => ProcessPC

def initShared (workload : Workload) : Shared where
  rq := some runqueueInit
  haveRunningProcess := false
  waitingForNewProcess := true
  remainingProcessCount := 0
  pcbs := fun _ => initPcb { length := 0, priority := 0, interarrivalTime := 0 } 0
  locals := fun _ => { contextSwitchCount := 0, arrivalTime := 0 }
  created := 0
  statsArray := List.replicate workload.totalProcessCount.toNat none
  clock := 0
  destroyed := false
  schedulerExited := false
  generatorExited := false
  printed := none
  statsFreed := false
  argumentsFreed := false

def program (workload : Workload) : Threads.Program Thread Mutex CondVar Shared PC where
  instr
    | .scheduler => schedulerInstr workload
    | .generator => generatorInstr workload
    | .main => mainInstr
    | .clock => clockInstr
    | .process k => processInstr k
  shared := initShared workload
  entry
    | .scheduler => .start
    | .generator => .whileNext
    | .main => .joinScheduler
    | .clock => ()
    | .process _ => .notCreated

abbrev State := Threads.State Thread Mutex CondVar Shared PC

abbrev cfs (workload : Workload) : System State (Threads.Label Thread) := (program workload).system

/-- Some steps of one thread in a row. -/
def turns (t : Thread) (n : Nat) : List (Threads.Label Thread) := List.replicate n (.run t)

end Cs342.Cfs
