import Mathlib
import Cs342.Cfs.Places

/-!
# What the generator creates

The processes of the workload, in their order and with the pids from 1 on: **`CreationInv`** says
what the control blocks of the created processes hold for the rest of the run. The counter of the
run queue is never written, so `get_runqueue_item_count` returns zero, and the generator goes on
after the first process exactly if the limit is not zero (`Workload.creatable`).
-/

namespace Cs342.Cfs

open Threads (Label)

/-- The processes that can be created. With a limit of zero, it is the first one only: the generator
then asks for the length of the queue for ever. -/
def Workload.creatable (workload : Workload) : List ProcessParams :=
  if workload.maxRunqueueLength = 0 then workload.processes.take 1 else workload.processes

theorem Workload.getElem?_processes {workload : Workload} {k : Nat} {params : ProcessParams}
    (h : workload.creatable[k]? = some params) : workload.processes[k]? = some params := by
  unfold Workload.creatable at h
  split at h
  · rw [List.getElem?_take] at h
    split at h
    · exact h
    · cases h
  · exact h

/-- The fields of a control block that are written when it is created. -/
def Pcb.identity (pcb : Pcb) : Int × Int × Int := (pcb.pid, pcb.priority, pcb.processLength)

/-- What a step of a process does to its control block, to the queue's counter, to the number of
remaining processes and to the results. -/
structure ProcessEffect (k : Nat) (shared shared' : Shared) (p next : ProcessPC) : Prop where
  identity : (shared'.pcbs k).identity = (shared.pcbs k).identity
  cpuTime : p ≠ .run → (shared'.pcbs k).cpuTime = (shared.pcbs k).cpuTime
  count : ∀ rq', shared'.rq = some rq' → ∃ rq, shared.rq = some rq ∧ rq'.count = rq.count
  remaining : shared'.remainingProcessCount
    = if p = .decrement then shared.remainingProcessCount - 1 else shared.remainingProcessCount
  stats : (∃ departureTime, p = .sendStats departureTime ∧ next = .exited ∧
      sendProcessStats (processStatistics (shared.pcbs k) (shared.locals k) departureTime) shared
        = some shared') ∨
    (next ≠ .exited ∧ shared'.statsArray = shared.statsArray)
  schedulerExited : shared'.schedulerExited = shared.schedulerExited

theorem process_effect {k : Nat} {shared shared' : Shared} {p next : ProcessPC}
    (h : (processInstr k p).advance shared = some (shared', next)) :
    ProcessEffect k shared shared' p next := by
  have hsame : ∀ rq', shared.rq = some rq' → ∃ rq, shared.rq = some rq ∧ rq'.count = rq.count :=
    fun rq' h => ⟨rq', h, rfl⟩
  cases p with
  | add =>
      simp only [processInstr, Threads.Instr.advance] at h
      split at h
      · next rq hrq =>
          cases h
          refine ⟨rfl, fun _ => rfl, ?_, rfl, Or.inr ⟨by simp, rfl⟩, rfl⟩
          intro rq' h
          cases h
          exact ⟨rq, hrq, rfl⟩
      · cases h
  | run =>
      obtain ⟨rfl, hslice⟩ := advance_run h
      obtain ⟨rq, timeslice, cpuTime, vruntime, hrq, -, -, -, rfl⟩ := runSlice_spec hslice
      refine ⟨?_, by simp, ?_, rfl, Or.inr ⟨by simp, rfl⟩, rfl⟩
      · simp [Shared.setPcb, Pcb.identity]
      · intro rq' h
        cases h
        exact ⟨rq, hrq, rfl⟩
  | setReady =>
      cases h
      refine ⟨?_, ?_, hsame, rfl, Or.inr ⟨by simp, rfl⟩, rfl⟩ <;>
        simp [Shared.setState, Shared.setPcb, Pcb.identity]
  | sendStats departureTime =>
      obtain ⟨rfl, hstats, statsArray, rfl⟩ := advance_sendStats h
      exact ⟨rfl, fun _ => rfl, hsame, rfl, Or.inl ⟨departureTime, rfl, rfl, hstats⟩, rfl⟩
  | _ =>
      simp only [processInstr, Threads.Instr.advance] at h
      have hpcbs : shared'.pcbs = shared.pcbs := by grind
      have hrq : shared'.rq = shared.rq := by grind
      have hstats : next ≠ .exited ∧ shared'.statsArray = shared.statsArray := by grind
      exact ⟨by rw [hpcbs], fun _ => by rw [hpcbs], by rw [hrq]; exact hsame, by grind,
        Or.inr hstats, by grind⟩

/-- From the end of the scheduler's loop on. -/
def SchedulerPC.ShutDown : SchedulerPC → Prop
  | .destroy | .freeRq | .pthreadExit | .exited => True
  | _ => False

/-- What a step of the scheduler does to the queue, to the number of remaining processes and to the
results. -/
structure SchedulerEffect (workload : Workload) (shared shared' : Shared) (p next : SchedulerPC) :
    Prop where
  rq : shared'.rq = shared.rq ∨ (p = .freeRq ∧ shared'.rq = none)
  remaining : shared'.remainingProcessCount
    = if p = .start then workload.totalProcessCount else shared.remainingProcessCount
  started : next ≠ .start
  shutDown : next.ShutDown → p.ShutDown ∨ (p = .whileRemaining ∧ shared.remainingProcessCount = 0)
  stats : shared'.statsArray = shared.statsArray
  exited : shared'.schedulerExited = true → shared.schedulerExited = true ∨ next = .exited
  /-- The thread ends once. -/
  alive : p ≠ .exited

theorem scheduler_effect {workload : Workload} {shared shared' : Shared} {p next : SchedulerPC}
    (h : (schedulerInstr workload p).advance shared = some (shared', next)) :
    SchedulerEffect workload shared shared' p next := by
  cases p with
  | whileRemaining =>
      cases h
      refine ⟨Or.inl rfl, rfl, ?_, ?_, rfl, Or.inl, by simp⟩ <;> grind [SchedulerPC.ShutDown]
  | whileBusy =>
      cases h
      refine ⟨Or.inl rfl, rfl, ?_, ?_, rfl, Or.inl, by simp⟩ <;> grind [SchedulerPC.ShutDown]
  | select =>
      simp only [schedulerInstr, Threads.Instr.advance] at h
      split at h <;> cases h
      exact ⟨Or.inl rfl, rfl, by simp, by simp [SchedulerPC.ShutDown], rfl, Or.inl, by simp⟩
  | unlockRq pcb =>
      cases pcb <;> cases h <;>
        exact ⟨Or.inl rfl, rfl, by simp, by simp [SchedulerPC.ShutDown], rfl, Or.inl, by simp⟩
  | freeRq =>
      cases h
      exact ⟨Or.inr ⟨rfl, rfl⟩, rfl, by simp, by simp [SchedulerPC.ShutDown], rfl, Or.inl, by simp⟩
  | pthreadExit =>
      cases h
      exact ⟨Or.inl rfl, rfl, by simp, by simp [SchedulerPC.ShutDown], rfl, fun _ => Or.inr rfl,
        by simp⟩
  | exited => cases h
  | _ =>
      cases h
      exact ⟨Or.inl rfl, rfl, by simp, by simp [SchedulerPC.ShutDown], rfl, Or.inl, by simp⟩

/-- Asking for the length of the run queue, and sleeping before that. -/
def GeneratorPC.Polls : GeneratorPC → Prop
  | .sleep | .lockRq | .readCount | .unlockRq _ => True
  | _ => False

/-- What a step of the generator does: it creates the process it is about to create. -/
structure GeneratorEffect (workload : Workload) (shared shared' : Shared) (p next : GeneratorPC) :
    Prop where
  rq : shared'.rq = shared.rq
  remaining : shared'.remainingProcessCount = shared.remainingProcessCount
  results : shared'.statsArray = shared.statsArray ∧
    shared'.schedulerExited = shared.schedulerExited
  flags : shared'.haveRunningProcess = shared.haveRunningProcess ∧
    shared'.waitingForNewProcess = shared.waitingForNewProcess
  created : (∃ params, p = .create params ∧ next = .sleep ∧
      shared'.created = shared.created + 1 ∧
      shared'.pcbs
        = Function.update shared.pcbs shared.created (initPcb params (shared.created + 1))) ∨
    ((∀ params, p ≠ .create params) ∧ shared'.created = shared.created ∧
      shared'.pcbs = shared.pcbs)
  creates : ∀ params, next = .create params → workload.processes[shared.created]? = some params
  exit : next = .pthreadExit → workload.processes.length ≤ shared.created
  exited : next = .exited → p = .pthreadExit
  checked : ∀ count, next = .unlockRq count →
    count = match shared.rq with | some rq => rq.count | none => 0
  polls : p.Polls → next.Polls ∨ next = .whileNext
  stillPolls : next.Polls → p.Polls ∨ ∃ params, p = .create params
  /-- The polling ends when the counter is not at the limit. -/
  goesOn : next = .whileNext → ∃ count, p = .unlockRq count ∧ count ≠ workload.maxRunqueueLength

theorem generator_effect {workload : Workload} {shared shared' : Shared} {p next : GeneratorPC}
    (h : (generatorInstr workload p).advance shared = some (shared', next)) :
    GeneratorEffect workload shared shared' p next := by
  cases p with
  | whileNext =>
      simp only [generatorInstr, Threads.Instr.advance] at h
      split at h
      · next params hparams =>
          cases h
          refine ⟨rfl, rfl, ⟨rfl, rfl⟩, ⟨rfl, rfl⟩, by simp, ?_, by simp, by simp, by simp,
            by simp [GeneratorPC.Polls], by simp [GeneratorPC.Polls], by simp⟩
          intro params' h
          cases h
          exact hparams
      · next hnone =>
          cases h
          refine ⟨rfl, rfl, ⟨rfl, rfl⟩, ⟨rfl, rfl⟩, by simp, by simp, ?_, by simp, by simp,
            by simp [GeneratorPC.Polls], by simp [GeneratorPC.Polls], by simp⟩
          intro _
          exact List.getElem?_eq_none_iff.mp hnone
  | create params =>
      cases h
      exact ⟨rfl, rfl, ⟨rfl, rfl⟩, ⟨rfl, rfl⟩, Or.inl ⟨params, rfl, rfl, rfl, rfl⟩, by simp,
        by simp, by simp, by simp, by simp [GeneratorPC.Polls], by simp [GeneratorPC.Polls],
        by simp⟩
  | readCount =>
      cases h
      refine ⟨rfl, rfl, ⟨rfl, rfl⟩, ⟨rfl, rfl⟩, by simp, by simp, by simp, by simp, ?_,
        by simp [GeneratorPC.Polls], by simp [GeneratorPC.Polls], by simp⟩
      intro count h
      cases h
      rfl
  | unlockRq count =>
      -- at the limit it sleeps again, below the limit it goes on
      cases h
      refine ⟨rfl, rfl, ⟨rfl, rfl⟩, ⟨rfl, rfl⟩, by simp, ?_, ?_, ?_, ?_, ?_, ?_, ?_⟩ <;>
        grind [GeneratorPC.Polls]
  | exited => cases h
  | _ =>
      cases h
      exact ⟨rfl, rfl, ⟨rfl, rfl⟩, ⟨rfl, rfl⟩, by simp, by simp, by simp, by simp, by simp,
        by simp [GeneratorPC.Polls], by simp [GeneratorPC.Polls], by simp⟩

/-- The queue, the flags, the number of remaining processes and the results are as they were. -/
structure SameSchedule (shared shared' : Shared) : Prop where
  rq : shared'.rq = shared.rq
  flags : shared'.haveRunningProcess = shared.haveRunningProcess ∧
    shared'.waitingForNewProcess = shared.waitingForNewProcess
  remaining : shared'.remainingProcessCount = shared.remainingProcessCount
  results : shared'.statsArray = shared.statsArray ∧
    shared'.schedulerExited = shared.schedulerExited

/-- Only the scheduler and the processes write these. -/
inductive ScheduleStep (workload : Workload) (s s' : State) : Prop
  | process (k : Nat) (next : ProcessPC)
      (hadvance : (processInstr k (s.pc (.process k))).advance s.shared = some (s'.shared, next))
      (hself : s'.pc (.process k) = next) (hother : ∀ t, t ≠ .process k → s'.pc t = s.pc t)
  | scheduler (next : SchedulerPC)
      (hadvance : (schedulerInstr workload (s.pc .scheduler)).advance s.shared
        = some (s'.shared, next))
      (hself : s'.pc .scheduler = next) (hother : ∀ t, t ≠ .scheduler → s'.pc t = s.pc t)
  | same (hsame : SameSchedule s.shared s'.shared) (hscheduler : s'.pc .scheduler = s.pc .scheduler)
      (hprocess : ∀ k, s'.pc (.process k) = s.pc (.process k))

theorem scheduleStep_of_step {workload : Workload} {l : Label Thread} {s s' : State}
    (hstep : (cfs workload).step l s = some s') : ScheduleStep workload s s' := by
  cases step_of hstep with
  | process k next _ hadvance hself hother => exact .process k next hadvance hself hother
  | scheduler next hadvance hself hother => exact .scheduler next hadvance hself hother
  | generator next hadvance _ hother =>
      have heffect := generator_effect hadvance
      exact .same ⟨heffect.rq, heffect.flags, heffect.remaining, heffect.results⟩
        (hother _ (by simp)) fun k => hother _ (by simp)
  | aside hshared hother =>
      refine .same ?_ (hother _ (by simp)) fun k => hother _ (by simp)
      rw [hshared]
      exact ⟨rfl, ⟨rfl, rfl⟩, rfl, ⟨rfl, rfl⟩⟩

/-! ## The created processes -/

structure CreationInv (workload : Workload) (s : State) : Prop where
  pcb : ∀ k, k < s.shared.created → ∃ params, workload.processes[k]? = some params ∧
    (s.shared.pcbs k).identity = ((k : Int) + 1, params.priority, params.length)
  creates : ∀ params, s.pc .generator = .create params →
    workload.processes[s.shared.created]? = some params
  exits : s.pc .generator = .pthreadExit ∨ s.pc .generator = .exited →
    workload.processes.length ≤ s.shared.created
  polled : (s.pc .generator).Polls → 0 < s.shared.created
  count : ∀ rq, s.shared.rq = some rq → rq.count = 0
  checked : ∀ count, s.pc .generator = .unlockRq count → count = 0
  /-- With a limit of zero, the generator asks for ever after the first process. -/
  limit : workload.maxRunqueueLength = 0 →
    s.shared.created = 0 ∨ (s.shared.created = 1 ∧ (s.pc .generator).Polls)

section Creation

variable {workload : Workload} {s s' : State} {l : Label Thread}

/-- What a step does to a process and its pcb: the process takes the step itself, or it stays where
it is, with the time it has used, or it is not created yet. -/
theorem step_process (hplaces : PlaceInv s) (hstep : (cfs workload).step l s = some s') (k : Nat) :
    (s.mode (.process k) = .running ∧
        (processInstr k (s.pc (.process k))).advance s.shared
          = some (s'.shared, s'.pc (.process k))) ∨
      (s'.pc (.process k) = s.pc (.process k) ∧
        ((∃ state, s'.shared.pcbs k = { s.shared.pcbs k with state := state }) ∨
          (s.pc (.process k) = .notCreated ∧ (s'.shared.pcbs k).cpuTime = 0))) := by
  cases step_of hstep with
  | process j next hmode hadvance hself hother =>
      by_cases h : k = j
      · subst h
        left
        rw [hself]
        exact ⟨hmode, hadvance⟩
      · right
        exact ⟨hother _ (by simpa using h), Or.inl ⟨_, (process_frame hadvance).pcb_eq k h⟩⟩
  | scheduler next hadvance _ hother =>
      right
      exact ⟨hother _ (by simp), Or.inl ((scheduler_frame hadvance).2 k)⟩
  | generator next hadvance _ hother =>
      right
      refine ⟨hother _ (by simp), ?_⟩
      rcases (generator_effect hadvance).created with
        ⟨params, -, -, -, hpcbs⟩ | ⟨-, -, hpcbs⟩ <;> rw [hpcbs]
      · by_cases h : k = s.shared.created
        · subst h
          exact Or.inr ⟨hplaces.fresh _ le_rfl, by rw [Function.update_self]; rfl⟩
        · exact Or.inl ⟨_, Function.update_of_ne h _ _⟩
      · exact Or.inl ⟨_, rfl⟩
  | aside hshared hother =>
      right
      exact ⟨hother _ (by simp), Or.inl ⟨_, by rw [hshared]⟩⟩

/-- The generator stays where it is, and the pcbs keep what they were created with. -/
theorem CreationInv.of_frame (hinv : CreationInv workload s)
    (hpc : s'.pc .generator = s.pc .generator) (hcreated : s'.shared.created = s.shared.created)
    (hpcb : ∀ k, (s'.shared.pcbs k).identity = (s.shared.pcbs k).identity)
    (hcount : ∀ rq', s'.shared.rq = some rq' →
      ∃ rq, s.shared.rq = some rq ∧ rq'.count = rq.count) : CreationInv workload s' := by
  refine ⟨?_, ?_, ?_, ?_, ?_, ?_, ?_⟩
  · intro k hk
    rw [hcreated] at hk
    rw [hpcb k]
    exact hinv.pcb k hk
  · rw [hpc, hcreated]
    exact hinv.creates
  · rw [hpc, hcreated]
    exact hinv.exits
  · rw [hpc, hcreated]
    exact hinv.polled
  · intro rq' hrq'
    obtain ⟨rq, hrq, heq⟩ := hcount rq' hrq'
    rw [heq]
    exact hinv.count rq hrq
  · rw [hpc]
    exact hinv.checked
  · rw [hpc, hcreated]
    exact hinv.limit

/-- A step of the generator. -/
theorem CreationInv.generator {next : GeneratorPC} (hinv : CreationInv workload s)
    (hpc : s'.pc .generator = next)
    (heffect : GeneratorEffect workload s.shared s'.shared (s.pc .generator) next) :
    CreationInv workload s' := by
  have hcount : ∀ rq, s'.shared.rq = some rq → rq.count = 0 := by
    rw [heffect.rq]
    exact hinv.count
  have hchecked : ∀ count, next = .unlockRq count → count = 0 := by
    intro count h
    rw [heffect.checked count h]
    cases hrq : s.shared.rq with
    | none => rfl
    | some rq => exact hinv.count rq hrq
  obtain ⟨params, hp, rfl, hcreated, hpcbs⟩ | ⟨hp, hcreated, hpcbs⟩ := heffect.created
  · -- a process is created, the one that comes next
    refine ⟨?_, by simp [hpc], by simp [hpc], by simp [hcreated], hcount, by simp [hpc], ?_⟩
    · intro k hk
      rw [hcreated] at hk
      rw [hpcbs]
      by_cases h : k = s.shared.created
      · subst h
        exact ⟨params, hinv.creates params hp, by rw [Function.update_self]; rfl⟩
      · rw [Function.update_of_ne h]
        exact hinv.pcb k (by omega)
    · intro hlimit
      rcases hinv.limit hlimit with h | ⟨-, h⟩
      · exact Or.inr ⟨by rw [hcreated, h], by rw [hpc]; trivial⟩
      · rw [hp] at h
        cases h
  · refine ⟨?_, ?_, ?_, ?_, hcount, by rw [hpc]; exact hchecked, ?_⟩
    · rw [hcreated, hpcbs]
      exact hinv.pcb
    · rw [hcreated, hpc]
      exact heffect.creates
    · rw [hcreated, hpc]
      rintro (h | h)
      · exact heffect.exit h
      · exact hinv.exits (Or.inl (heffect.exited h))
    · rw [hcreated, hpc]
      intro h
      exact hinv.polled ((heffect.stillPolls h).resolve_right fun ⟨params, h⟩ => hp params h)
    · -- with a limit of zero, the counter is at the limit
      intro hlimit
      rw [hcreated, hpc]
      refine (hinv.limit hlimit).imp_right fun ⟨hone, hpolls⟩ => ⟨hone, ?_⟩
      rcases heffect.polls hpolls with h | h
      · exact h
      · obtain ⟨count, hunlock, hne⟩ := heffect.goesOn h
        rw [hlimit] at hne
        exact absurd (hinv.checked count hunlock) hne

theorem CreationInv.step (hinv : CreationInv workload s)
    (hstep : (cfs workload).step l s = some s') : CreationInv workload s' := by
  have hsame : ∀ rq', s.shared.rq = some rq' → ∃ rq, s.shared.rq = some rq ∧ rq'.count = rq.count :=
    fun rq' h => ⟨rq', h, rfl⟩
  cases step_of hstep with
  | process j next _ hadvance _ hother =>
      have hframe := process_frame hadvance
      have heffect := process_effect hadvance
      refine hinv.of_frame (hother _ (by simp)) hframe.created_eq ?_ heffect.count
      intro k
      by_cases h : k = j
      · subst h
        exact heffect.identity
      · rw [hframe.pcb_eq k h]
  | scheduler next hadvance _ hother =>
      obtain ⟨hcreated, hpcbs⟩ := scheduler_frame hadvance
      refine hinv.of_frame (hother _ (by simp)) hcreated ?_ ?_
      · intro k
        obtain ⟨state, heq⟩ := hpcbs k
        rw [heq]
        rfl
      · rcases (scheduler_effect hadvance).rq with h | ⟨-, h⟩ <;> rw [h]
        · exact hsame
        · simp
  | generator next hadvance hself _ => exact hinv.generator hself (generator_effect hadvance)
  | aside hshared hother =>
      refine hinv.of_frame (hother _ (by simp)) (by rw [hshared]) (fun k => by rw [hshared]) ?_
      rw [hshared]
      exact hsame

theorem CreationInv.reachable (hs : (cfs workload).Reachable s) : CreationInv workload s := by
  apply hs.invariant
  · refine ⟨?_, ?_, ?_, fun h => absurd h id, ?_, ?_, fun _ => Or.inl rfl⟩
    · intro k hk
      cases hk
    · intro params h
      cases h
    · rintro (h | h) <;> cases h
    · intro rq h
      cases h
      rfl
    · intro count h
      cases h
  · exact fun s l s' hinv hstep => hinv.step hstep

/-- **A created process** is one of those that can be created, with its parameters. -/
theorem CreationInv.creatable (hinv : CreationInv workload s) {k : Nat}
    (hk : k < s.shared.created) : ∃ params, workload.creatable[k]? = some params ∧
      (s.shared.pcbs k).identity = ((k : Int) + 1, params.priority, params.length) := by
  obtain ⟨params, hparams, hpcb⟩ := hinv.pcb k hk
  refine ⟨params, ?_, hpcb⟩
  unfold Workload.creatable
  split
  · next hlimit =>
      have hone : s.shared.created ≤ 1 := by
        rcases hinv.limit hlimit with h | ⟨h, -⟩ <;> omega
      rw [List.getElem?_take, if_pos (by omega)]
      exact hparams
  · exact hparams

theorem CreationInv.created_le (hinv : CreationInv workload s) :
    s.shared.created ≤ workload.processes.length := by
  by_contra h
  obtain ⟨params, hparams, -⟩ := hinv.pcb workload.processes.length (not_le.mp h)
  rw [List.getElem?_eq_none le_rfl] at hparams
  cases hparams

end Creation

end Cs342.Cfs
