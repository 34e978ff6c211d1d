import Mathlib
import Cs342.Library.Intervals
import Cs342.Cfs.Publishing

/-!
# The lines of a run (`DBG_MODE_LIGHT`)

With the light output a process reads the clock when its slice begins, prints the time, its pid and
the length of the slice, and sleeps for as long. Here the step `sleep` of the threads is taken
apart, and a process sleeps its time; what the threads do besides is what they did before.

One process is a small automaton (`Life`) that is charged for a slice, prints it and sleeps. Its
lines add up to what it has been charged for, and no line is still running once it has left the
slice. A step of the simulator is a transition of this automaton, for each process, or
none (`processLife_step`, `ownTurn_of_step`).
-/

namespace Cs342.Cfs

open Threads (Label)

/-- `%d %d RUNNING %d`. -/
structure RunningLine where
  time : Int
  pid : Int
  cpuTime : Int
  deriving DecidableEq, Repr

/-- The slice that the line tells of. -/
def RunningLine.interval (line : RunningLine) : WorkInterval where
  start := line.time
  length := line.cpuTime

/-- The points between the queue and `pcb->state = PROCESS_READY`. -/
inductive SlicePC where
  | readClock
  | print (time : Int)
  | usleep
  | asleep (wakeTime : Int)
  deriving DecidableEq, Repr

/-- The threads, where the processes are inside of `sleep`, their locals `cpu_time`, and what has
been printed. -/
structure Timed where
  state : State
  slice : Nat → SlicePC
  cpuTime : Nat → Int
  output : List RunningLine

inductive TimedLabel where
  | thread (l : Label Thread)
  | slice (k : Nat)

/-- `cpu_time`, as a slice begins. -/
def sliceCpuTime (k : Nat) (shared : Shared) : Outcome Int := do
  let rq ← Outcome.ofOption shared.rq
  clippedTimeslice shared.pcbs (runqueueRemovePcb rq k) k

namespace Timed

/-- A process does not go on before its sleep is over. -/
def mayMove (s : Timed) : Label Thread → Bool
  | .run (.process k) =>
    if s.state.pc (.process k) = .sleep then
      match s.slice k with
      | .asleep wakeTime => wakeTime ≤ s.state.shared.clock
      | _ => false
    else true
  | _ => true

/-- The locals of a slice that begins. -/
def beginSlice (s : Timed) : Label Thread → Option Timed
  | .run (.process k) =>
    if s.state.pc (.process k) = .run then
      (sliceCpuTime k s.state.shared).toOption.map fun cpuTime =>
        { s with
          slice := Function.update s.slice k .readClock
          cpuTime := Function.update s.cpuTime k cpuTime }
    else some s
  | _ => some s

def gotoSlice (s : Timed) (k : Nat) (next : SlicePC) : Timed :=
  { s with slice := Function.update s.slice k next }

/-- What a process does instead of `sleep`. -/
def sliceStep (s : Timed) (k : Nat) : Option Timed :=
  if s.state.pc (.process k) = .sleep then
    match s.slice k with
    | .readClock =>
      if s.state.shared.argumentsFreed then none
      else some (s.gotoSlice k (.print s.state.shared.clock))
    | .print time =>
      let line := { time, pid := (s.state.shared.pcbs k).pid, cpuTime := s.cpuTime k }
      some ({ s with output := s.output ++ [line] }.gotoSlice k .usleep)
    | .usleep => some (s.gotoSlice k (.asleep (s.state.shared.clock + s.cpuTime k)))
    | .asleep _ => none
  else none

def step (workload : Workload) : TimedLabel → Timed → Option Timed
  | .thread l, s =>
    if s.mayMove l then
      match (cfs workload).step l s.state, s.beginSlice l with
      | some state, some s => some { s with state := state }
      | _, _ => none
    else none
  | .slice k, s => s.sliceStep k

end Timed

/-- The simulator with the light output. -/
def timed (workload : Workload) : System Timed TimedLabel where
  init := {
    state := (cfs workload).init
    slice := fun _ => .readClock
    cpuTime := fun _ => 0
    output := [] }
  step := Timed.step workload

/-! ## The life of one process -/

inductive LifePhase where
  | unborn
  | idle
  | begun
  | printing (time : Int)
  | printed
  | asleep (wakeTime : Int)
  | leaving (departureTime : Int)
  deriving DecidableEq

/-- A process, the time it has been charged for, its slices, its lines, and the clock. -/
structure Life where
  phase : LifePhase
  cpuTime : Int
  used : Int
  slices : Int
  arrival : Int
  clock : Int
  lines : List RunningLine

/-- A slice has been charged for. -/
def LifePhase.InSlice : LifePhase → Prop
  | .begun | .printing _ | .printed | .asleep _ => True
  | _ => False

/-- Its line has not been printed yet. -/
def LifePhase.pending : LifePhase → Int
  | .begun | .printing _ => 1
  | _ => 0

namespace Life

/-- The transitions of the process with this pid. -/
inductive Step (pid : Int) (c : Life) : Life → Prop
  | tick : Step pid c { c with clock := c.clock + 1 }
  | arrive : c.phase = .unborn →
      Step pid c { c with phase := .idle, slices := 0, arrival := c.clock }
  | charge (cpuTime : Int) : c.phase = .idle → 0 < cpuTime →
      Step pid c { c with
        phase := .begun, cpuTime := cpuTime, used := c.used + cpuTime, slices := c.slices + 1 }
  | readClock : c.phase = .begun → Step pid c { c with phase := .printing c.clock }
  | print (time : Int) : c.phase = .printing time →
      Step pid c { c with
        phase := .printed, lines := c.lines ++ [{ time, pid, cpuTime := c.cpuTime }] }
  | usleep : c.phase = .printed → Step pid c { c with phase := .asleep (c.clock + c.cpuTime) }
  | wake (wakeTime : Int) : c.phase = .asleep wakeTime → wakeTime ≤ c.clock →
      Step pid c { c with phase := .idle }
  | depart : c.phase = .idle → Step pid c { c with phase := .leaving c.clock }
  | leave (departureTime : Int) : c.phase = .leaving departureTime →
      Step pid c { c with phase := .idle }

/-- The line is of a slice that the process sleeps through, or that is over. -/
def Covers (c : Life) (line : RunningLine) : Prop :=
  line.interval.stop ≤ c.clock ∨
    (c.phase = .printed ∧ line.interval.stop ≤ c.clock + c.cpuTime) ∨
    ∃ wakeTime, c.phase = .asleep wakeTime ∧ line.interval.stop ≤ wakeTime

structure Inv (pid : Int) (c : Life) : Prop where
  unborn : c.phase = .unborn → c.lines = []
  charged : (c.lines.map RunningLine.cpuTime).sum + c.phase.pending * c.cpuTime = c.used
  counted : c.phase ≠ .unborn → c.lines.length + c.phase.pending = c.slices
  arrived : c.phase ≠ .unborn → c.arrival ≤ c.clock
  positive : c.phase.InSlice → 0 < c.cpuTime
  line : ∀ line ∈ c.lines, line.pid = pid ∧ 0 < line.cpuTime ∧
    (c.arrival ≤ line.time ∧ line.time ≤ c.clock) ∧ c.Covers line
  printing : ∀ time, c.phase = .printing time → c.arrival ≤ time ∧ time ≤ c.clock
  leaving : ∀ departureTime, c.phase = .leaving departureTime →
    (c.arrival ≤ departureTime ∧ departureTime ≤ c.clock) ∧
      ∀ line ∈ c.lines, line.interval.stop ≤ departureTime

variable {pid : Int} {c c' : Life}

/-- Nothing runs where nobody sleeps. -/
theorem stop_le_of_covers {line : RunningLine} (h : c.Covers line) (hprinted : c.phase ≠ .printed)
    (hasleep : ∀ wakeTime, c.phase = .asleep wakeTime → wakeTime ≤ c.clock) :
    line.interval.stop ≤ c.clock := by
  rcases h with h | ⟨hp, -⟩ | ⟨wakeTime, hp, h⟩
  · exact h
  · exact absurd hp hprinted
  · exact h.trans (hasleep wakeTime hp)

/-- **Every transition keeps the account of a process.** -/
theorem Inv.step (hinv : Inv pid c) (hstep : Step pid c c') : Inv pid c' := by
  obtain ⟨hunborn, hcharged, hcounted, harrived, hpositive, hline, hprinting, hleaving⟩ := hinv
  -- lines of slices that are over, while the clock stands
  have hover : ∀ line ∈ c.lines, c.phase ≠ .printed →
      (∀ wakeTime, c.phase = .asleep wakeTime → wakeTime ≤ c.clock) →
      line.interval.stop ≤ c.clock :=
    fun line hmem => stop_le_of_covers (hline line hmem).2.2.2
  cases hstep with
  | tick =>
      refine ⟨hunborn, hcharged, hcounted, fun h => ?_, hpositive, fun line hmem => ?_,
        fun time h => ?_, fun d h => ?_⟩
      · have := harrived h
        dsimp only at h ⊢
        omega
      · obtain ⟨hpid, hpos, ⟨hle, htime⟩, hcovers⟩ := hline line hmem
        refine ⟨hpid, hpos, ⟨hle, by dsimp only; omega⟩, ?_⟩
        rcases hcovers with h | ⟨hp, h⟩ | h
        · exact Or.inl (by dsimp only; omega)
        · exact Or.inr (Or.inl ⟨hp, by dsimp only; omega⟩)
        · exact Or.inr (Or.inr h)
      · have := hprinting time h
        dsimp only
        omega
      · obtain ⟨⟨hle, hclock⟩, hstop⟩ := hleaving d h
        exact ⟨⟨hle, by dsimp only; omega⟩, hstop⟩
  | arrive hphase =>
      have hnone := hunborn hphase
      rw [hnone, hphase] at hcharged
      refine ⟨by simp, ?_, ?_, by simp, by simp [LifePhase.InSlice], by simp [hnone], by simp,
        by simp⟩
      · simpa [hnone, LifePhase.pending] using hcharged
      · simp [hnone, LifePhase.pending]
  | charge cpuTime hphase hpos =>
      rw [hphase] at hcharged hcounted harrived
      refine ⟨by simp, ?_, fun _ => ?_, fun _ => harrived (by simp), fun _ => hpos,
        fun line hmem => ?_, by simp, by simp⟩
      · simp only [LifePhase.pending] at hcharged ⊢
        omega
      · have := hcounted (by simp)
        simp only [LifePhase.pending] at this ⊢
        omega
      · obtain ⟨hpid, hpos, hle, -⟩ := hline line hmem
        exact ⟨hpid, hpos, hle, Or.inl (hover line hmem (by simp [hphase]) (by simp [hphase]))⟩
  | readClock hphase =>
      rw [hphase] at hcharged hcounted harrived hpositive
      refine ⟨by simp, hcharged, fun _ => hcounted (by simp), fun _ => harrived (by simp),
        fun _ => hpositive trivial, fun line hmem => ?_, ?_, by simp⟩
      · obtain ⟨hpid, hpos, hle, -⟩ := hline line hmem
        exact ⟨hpid, hpos, hle, Or.inl (hover line hmem (by simp [hphase]) (by simp [hphase]))⟩
      · rintro time h
        cases h
        exact ⟨harrived (by simp), le_rfl⟩
  | print time hphase =>
      obtain ⟨harrival, hclock⟩ := hprinting time hphase
      rw [hphase] at hcharged hcounted harrived hpositive
      refine ⟨by simp, ?_, fun _ => ?_, fun _ => harrived (by simp), fun _ => hpositive trivial,
        fun line hmem => ?_, by simp, by simp⟩
      · simp only [LifePhase.pending, List.map_append, List.sum_append, List.map_cons, List.map_nil,
          List.sum_cons, List.sum_nil] at hcharged ⊢
        omega
      · have := hcounted (by simp)
        simp only [LifePhase.pending, List.length_append, List.length_singleton] at this ⊢
        omega
      · rcases List.mem_append.mp hmem with hmem | hmem
        · obtain ⟨hpid, hpos, hle, -⟩ := hline line hmem
          exact ⟨hpid, hpos, hle, Or.inl (hover line hmem (by simp [hphase]) (by simp [hphase]))⟩
        · rw [List.mem_singleton] at hmem
          subst hmem
          refine ⟨rfl, hpositive trivial, ⟨harrival, hclock⟩, Or.inr (Or.inl ⟨rfl, ?_⟩)⟩
          simp only [RunningLine.interval, WorkInterval.stop]
          omega
  | usleep hphase =>
      rw [hphase] at hcharged hcounted harrived hpositive
      refine ⟨by simp, hcharged, fun _ => hcounted (by simp), fun _ => harrived (by simp),
        fun _ => hpositive trivial, fun line hmem => ?_, by simp, by simp⟩
      obtain ⟨hpid, hpos, hle, hcovers⟩ := hline line hmem
      have hpos' := hpositive trivial
      refine ⟨hpid, hpos, hle, Or.inr (Or.inr ⟨_, rfl, ?_⟩)⟩
      rcases hcovers with h | ⟨-, h⟩ | ⟨wakeTime, hp, -⟩
      · omega
      · exact h
      · rw [hphase] at hp
        cases hp
  | wake wakeTime hphase hwake =>
      rw [hphase] at hcharged hcounted harrived
      refine ⟨by simp, hcharged, fun _ => hcounted (by simp), fun _ => harrived (by simp),
        by simp [LifePhase.InSlice], fun line hmem => ?_, by simp, by simp⟩
      obtain ⟨hpid, hpos, hle, -⟩ := hline line hmem
      refine ⟨hpid, hpos, hle, Or.inl (hover line hmem (by simp [hphase]) ?_)⟩
      intro w hw
      rw [hphase] at hw
      cases hw
      exact hwake
  | depart hphase =>
      rw [hphase] at hcharged hcounted harrived
      have hstop : ∀ line ∈ c.lines, line.interval.stop ≤ c.clock :=
        fun line hmem => hover line hmem (by simp [hphase]) (by simp [hphase])
      refine ⟨by simp, hcharged, fun _ => hcounted (by simp), fun _ => harrived (by simp),
        by simp [LifePhase.InSlice], fun line hmem => ?_, by simp, ?_⟩
      · obtain ⟨hpid, hpos, hle, -⟩ := hline line hmem
        exact ⟨hpid, hpos, hle, Or.inl (hstop line hmem)⟩
      · rintro d h
        cases h
        exact ⟨⟨harrived (by simp), le_rfl⟩, hstop⟩
  | leave departureTime hphase =>
      rw [hphase] at hcharged hcounted harrived
      refine ⟨by simp, hcharged, fun _ => hcounted (by simp), fun _ => harrived (by simp),
        by simp [LifePhase.InSlice], fun line hmem => ?_, by simp, by simp⟩
      obtain ⟨hpid, hpos, hle, -⟩ := hline line hmem
      exact ⟨hpid, hpos, hle, Or.inl (hover line hmem (by simp [hphase]) (by simp [hphase]))⟩

end Life

/-! ## The process threads live it -/

def lifePhase : ProcessPC → SlicePC → LifePhase
  | .notCreated, _ | .arrival, _ => .unborn
  | .unlockRqRun, _ | .sleep, .readClock => .begun
  | .sleep, .print time => .printing time
  | .sleep, .usleep => .printed
  | .sleep, .asleep wakeTime => .asleep wakeTime
  | .sendStats departureTime, _ => .leaving departureTime
  | _, _ => .idle

def processLife (k : Nat) (shared : Shared) (p : ProcessPC) (slice : SlicePC) (cpuTime : Int)
    (lines : List RunningLine) : Life where
  phase := lifePhase p slice
  cpuTime := cpuTime
  used := (shared.pcbs k).cpuTime
  slices := (shared.locals k).contextSwitchCount
  arrival := (shared.locals k).arrivalTime
  clock := shared.clock
  lines := lines

section Process

variable {k : Nat} {pid : Int} {shared shared' : Shared} {p next : ProcessPC} {slice : SlicePC}
  {cpuTime : Int} {lines : List RunningLine}

/-- A slice is charged for what it is announced for. -/
theorem sliceCpuTime_of_runSlice (h : runSlice k shared = .ok shared') :
    ∃ cpuTime, sliceCpuTime k shared = .ok cpuTime ∧
      cpuTime ≤ (shared.pcbs k).processLength - (shared.pcbs k).cpuTime ∧
      ((shared.pcbs k).cpuTime < (shared.pcbs k).processLength → 0 < cpuTime) ∧
      shared'.clock = shared.clock ∧ (shared'.pcbs k).cpuTime = (shared.pcbs k).cpuTime + cpuTime ∧
      (shared'.pcbs k).processLength = (shared.pcbs k).processLength ∧
      shared'.locals k = { shared.locals k with
        contextSwitchCount := (shared.locals k).contextSwitchCount + 1 } := by
  obtain ⟨rq, timeslice, cpuTime, vruntime, hrq, htimeslice, hcpu, -, rfl⟩ := runSlice_spec h
  have hmin := minGranularity_le_timeslice htimeslice
  rw [minGranularity] at hmin
  refine ⟨cpuTime, ?_, by omega, ?_, rfl, ?_, ?_, ?_⟩
  · rw [sliceCpuTime, hrq, Outcome.ofOption_some, Outcome.ok_bind]
    exact clippedTimeslice_eq_ok.mpr ⟨timeslice, htimeslice, hcpu⟩
  · intro hlt
    omega
  · simp [Shared.setPcb]
  · simp [Shared.setPcb]
  · simp

/-- **A process takes a transition**, or stays in its phase; it leaves `sleep` when its sleep is
over. -/
theorem processLife_step (h : (processInstr k p).advance shared = some (shared', next))
    (hrun : p ≠ .run) (hfresh : p = .unlockRqRun → slice = .readClock)
    (hawake : p = .sleep → ∃ wakeTime, slice = .asleep wakeTime ∧ wakeTime ≤ shared.clock) :
    processLife k shared' next slice cpuTime lines = processLife k shared p slice cpuTime lines ∨
      Life.Step pid (processLife k shared p slice cpuTime lines)
        (processLife k shared' next slice cpuTime lines) := by
  cases p with
  | run => exact absurd rfl hrun
  | notCreated =>
      simp only [processInstr, Threads.Instr.advance] at h
      split at h <;> cases h
      exact Or.inl rfl
  | arrival =>
      obtain ⟨-, rfl, rfl⟩ := advance_arrival h
      right
      have hstep : Life.Step pid (processLife k shared .arrival slice cpuTime lines) _ :=
        .arrive rfl
      simpa [processLife, lifePhase] using hstep
  | unlockRqRun =>
      cases h
      rw [hfresh rfl]
      exact Or.inl rfl
  | sleep =>
      obtain ⟨-, rfl, rfl⟩ := advance_sleep h
      obtain ⟨wakeTime, rfl, hwake⟩ := hawake rfl
      exact Or.inr (.wake wakeTime rfl hwake)
  | departure =>
      obtain ⟨-, rfl, rfl⟩ := advance_departure h
      exact Or.inr (.depart rfl)
  | sendStats departureTime =>
      obtain ⟨rfl, -, statsArray, rfl⟩ := advance_sendStats h
      exact Or.inr (.leave departureTime rfl)
  | setReady => cases h; exact Or.inl (by simp [processLife, lifePhase, Shared.setState, Shared.setPcb])
  | add =>
      simp only [processInstr, Threads.Instr.advance] at h
      split at h <;> cases h
      exact Or.inl rfl
  | whileLength =>
      obtain ⟨rfl, ⟨rfl, -⟩ | ⟨rfl, -⟩⟩ := advance_whileLength h <;> exact Or.inl rfl
  | whileReady =>
      cases h
      exact Or.inl (by split <;> rfl)
  | testLength =>
      cases h
      exact Or.inl (by split <;> rfl)
  | clearWaiting =>
      cases h
      exact Or.inl (by split <;> rfl)
  | exited => cases h
  | _ => cases h; exact Or.inl rfl

/-- The step into a slice. -/
theorem processLife_run (pid : Int) (slice : SlicePC) (cpuTime : Int) (lines : List RunningLine)
    (h : (processInstr k .run).advance shared = some (shared', next))
    (hunfinished : (shared.pcbs k).cpuTime < (shared.pcbs k).processLength) :
    next = .unlockRqRun ∧ ∃ charge, sliceCpuTime k shared = .ok charge ∧
      Life.Step pid (processLife k shared .run slice cpuTime lines)
        (processLife k shared' next .readClock charge lines) := by
  obtain ⟨rfl, hslice⟩ := advance_run h
  obtain ⟨charge, hcharge, -, hpos, hclock, hused, -, hlocals⟩ := sliceCpuTime_of_runSlice hslice
  refine ⟨rfl, charge, hcharge, ?_⟩
  have hstep : Life.Step pid (processLife k shared .run slice cpuTime lines) _ :=
    .charge charge rfl (hpos hunfinished)
  simpa [processLife, lifePhase, hclock, hused, hlocals] using hstep

end Process

/-! ## The other threads let it be -/

/-- What a process has of its own, but its control block. -/
structure SameLocals (k : Nat) (shared shared' : Shared) : Prop where
  locals : shared'.locals k = shared.locals k
  clock : shared'.clock = shared.clock

theorem process_sameLocals {j k : Nat} {shared shared' : Shared} {p next : ProcessPC} (hne : k ≠ j)
    (h : (processInstr j p).advance shared = some (shared', next)) :
    SameLocals k shared shared' := by
  cases p with
  | run =>
      obtain ⟨rfl, hslice⟩ := advance_run h
      obtain ⟨rq, timeslice, cpuTime, vruntime, -, -, -, -, rfl⟩ := runSlice_spec hslice
      exact ⟨Function.update_of_ne hne _ _, rfl⟩
  | arrival =>
      obtain ⟨-, rfl, rfl⟩ := advance_arrival h
      exact ⟨Function.update_of_ne hne _ _, rfl⟩
  | whileLength =>
      obtain ⟨rfl, -⟩ := advance_whileLength h
      exact ⟨rfl, rfl⟩
  | sleep =>
      obtain ⟨-, -, rfl⟩ := advance_sleep h
      exact ⟨rfl, rfl⟩
  | departure =>
      obtain ⟨-, -, rfl⟩ := advance_departure h
      exact ⟨rfl, rfl⟩
  | sendStats departureTime =>
      obtain ⟨rfl, -, statsArray, rfl⟩ := advance_sendStats h
      exact ⟨rfl, rfl⟩
  | notCreated =>
      simp only [processInstr, Threads.Instr.advance] at h
      split at h <;> cases h
      exact ⟨rfl, rfl⟩
  | add =>
      simp only [processInstr, Threads.Instr.advance] at h
      split at h <;> cases h
      exact ⟨rfl, rfl⟩
  | clearWaiting =>
      cases h
      constructor <;> split <;> rfl
  | _ => cases h <;> exact ⟨rfl, rfl⟩

theorem scheduler_sameLocals {workload : Workload} {k : Nat} {shared shared' : Shared}
    {p next : SchedulerPC}
    (h : (schedulerInstr workload p).advance shared = some (shared', next)) :
    SameLocals k shared shared' := by
  cases p with
  | select =>
      simp only [schedulerInstr, Threads.Instr.advance] at h
      split at h <;> cases h
      exact ⟨rfl, rfl⟩
  | unlockRq pcb => cases pcb <;> cases h <;> exact ⟨rfl, rfl⟩
  | _ => cases h <;> exact ⟨rfl, rfl⟩

theorem generator_sameLocals {workload : Workload} {k : Nat} {shared shared' : Shared}
    {p next : GeneratorPC}
    (h : (generatorInstr workload p).advance shared = some (shared', next)) :
    SameLocals k shared shared' := by
  cases p with
  | whileNext =>
      simp only [generatorInstr, Threads.Instr.advance] at h
      split at h <;> cases h <;> exact ⟨rfl, rfl⟩
  | _ => cases h <;> exact ⟨rfl, rfl⟩

/-- **A step, seen from one process**: it takes it itself, and the others stay; or it stays where
it is, with what it has, and the clock may tick. -/
inductive OwnTurn (k : Nat) (l : Label Thread) (s s' : State) : Prop
  | own (hl : l = .run (.process k) ∨
        ∃ c next, processInstr k (s.pc (.process k)) = .signal c next)
      (hother : ∀ j, j ≠ k → s'.pc (.process j) = s.pc (.process j))
      (hadvance : (processInstr k (s.pc (.process k))).advance s.shared
        = some (s'.shared, s'.pc (.process k)))
  | other (hpc : s'.pc (.process k) = s.pc (.process k))
      (hwaits : l = .run (.process k) → s.pc (.process k) = .whileReady)
      (hlocals : s'.shared.locals k = s.shared.locals k)
      (hclock : s'.shared.clock = s.shared.clock ∨ s'.shared.clock = s.shared.clock + 1)
      (hpcb : (s'.shared.pcbs k).cpuTime = (s.shared.pcbs k).cpuTime)

section Steps

variable {workload : Workload} {s s' : State} {l : Label Thread}

/-- The locals of a process and the clock, over a step of a thread that is not this process. -/
theorem locals_step (hturn : Threads.Turn (program workload) s l s') (k : Nat)
    (hl : l ≠ .run (.process k)) (hl' : ∀ w, l ≠ .wake (.process k) w) :
    s'.shared.locals k = s.shared.locals k ∧
      (s'.shared.clock = s.shared.clock ∨ s'.shared.clock = s.shared.clock + 1) := by
  cases hturn with
  | spurious hmode => exact ⟨rfl, Or.inl rfl⟩
  | relock hmode => exact ⟨rfl, Or.inl rfl⟩
  | wait hmode hinstr => exact ⟨rfl, Or.inl rfl⟩
  | wake hmode hinstr => exact ⟨rfl, Or.inl rfl⟩
  | @go t shared next owner hmode hawake hadvance =>
      cases t with
      | process j =>
          have hsame : SameLocals k s.shared shared := by
            apply process_sameLocals _ hadvance
            rintro rfl
            exact hl rfl
          exact ⟨hsame.locals, Or.inl hsame.clock⟩
      | scheduler =>
          have hsame : SameLocals k s.shared shared := scheduler_sameLocals hadvance
          exact ⟨hsame.locals, Or.inl hsame.clock⟩
      | generator =>
          have hsame : SameLocals k s.shared shared := generator_sameLocals hadvance
          exact ⟨hsame.locals, Or.inl hsame.clock⟩
      | main =>
          obtain ⟨printed, statsFreed, argumentsFreed, rfl⟩ := main_frame hadvance
          exact ⟨rfl, Or.inl rfl⟩
      | clock =>
          obtain rfl := clock_frame (p := s.pc .clock) hadvance
          exact ⟨rfl, Or.inr rfl⟩

/-- A process that stays where it is does not pay. -/
theorem cpuTime_of_pc_eq (hs : (cfs workload).Reachable s)
    (hstep : (cfs workload).step l s = some s') {k : Nat}
    (hpc : s'.pc (.process k) = s.pc (.process k)) :
    (s'.shared.pcbs k).cpuTime = (s.shared.pcbs k).cpuTime := by
  rcases step_process (PlaceInv.reachable hs) hstep k with
    ⟨-, hadvance⟩ | ⟨-, ⟨state, h⟩ | ⟨hfresh, h⟩⟩
  · apply (process_effect hadvance).cpuTime
    intro hrun
    rw [hpc, hrun] at hadvance
    have := (advance_run hadvance).1
    cases this
  · rw [h]
  · have hcharged := (AccountInv.reachable hs).charged k
    rw [hfresh] at hcharged
    exact h.trans hcharged.symm

/-- **Whose turn it is**, from the label. -/
theorem ownTurn_of_step (hs : (cfs workload).Reachable s)
    (hstep : (cfs workload).step l s = some s') (k : Nat) : OwnTurn k l s s' := by
  have hturn := Threads.turn_of_step hstep
  by_cases hl : l = .run (.process k) ∨ ∃ w, l = .wake (.process k) w
  · have hother : ∀ j, j ≠ k → s'.pc (.process j) = s.pc (.process j) := by
      intro j hj
      rcases hl with rfl | ⟨w, rfl⟩ <;>
        exact hturn.pc_of_ne (by simp [Ne.symm hj]) (by simp [Ne.symm hj])
    have hpcb := cpuTime_of_pc_eq (k := k) hs hstep
    cases hturn with
    | spurious hmode => rcases hl with h | ⟨w, h⟩ <;> cases h
    | @relock t m hmode =>
        refine .other rfl (fun _ => ?_) rfl (Or.inl rfl) (hpcb rfl)
        by_contra hne
        obtain rfl : t = .process k := by
          rcases hl with h | ⟨w, h⟩ <;> cases h
          rfl
        rw [process_running (Inv.reachable hs).locks hne] at hmode
        cases hmode
    | @wait t c m next hmode hinstr =>
        obtain rfl : t = .process k := by
          rcases hl with h | ⟨w, h⟩ <;> cases h
          rfl
        have hinstr : processInstr k (s.pc (.process k)) = .wait c m next := hinstr
        refine .own (Or.inl rfl) hother ?_
        rw [Threads.State.goto_pc_self, hinstr]
        rfl
    | @wake t w c next hmode hinstr =>
        obtain rfl : t = .process k := by
          rcases hl with h | ⟨w, h⟩ <;> cases h
          rfl
        have hinstr : processInstr k (s.pc (.process k)) = .signal c next := hinstr
        refine .own (Or.inr ⟨c, next, hinstr⟩) hother ?_
        rw [Threads.State.wakeUp_pc, Threads.State.goto_pc_self, hinstr]
        rfl
    | @go t shared next owner hmode hawake hadvance =>
        obtain rfl : t = .process k := by
          rcases hl with h | ⟨w, h⟩ <;> cases h
          rfl
        refine .own (Or.inl rfl) hother ?_
        rw [Threads.State.goto_pc_self]
        exact hadvance
  · obtain ⟨hrun, hwake⟩ := not_or.mp hl
    have hwake := not_exists.mp hwake
    have hpc := hturn.pc_of_ne hrun hwake
    obtain ⟨hlocals, hclock⟩ := locals_step hturn k hrun hwake
    exact .other hpc (fun h => absurd h hrun) hlocals hclock (cpuTime_of_pc_eq hs hstep hpc)

end Steps

end Cs342.Cfs
