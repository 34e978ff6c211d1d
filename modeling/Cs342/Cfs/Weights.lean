import Mathlib
import Cs342.Cfs.Accounting
import Cs342.Cfs.Timeslice
import Cs342.Cfs.WorkloadBounds
import Cs342.Cfs.Slots

/-!
# Priorities and the table of weights (`get_weight`)

A priority is an index into a table of 40 entries, and nothing checks it: neither the records of a
workload file nor the range on the command line. A slice asks for the weight of its process and of
all that are queued. So the table is left by the first process with another priority that gets a
slice, and none does if the scheduler is told that there is no process (`weightsInTable_iff`).
-/

namespace Cs342.Cfs

open Threads (Label)

/-! ## The calls of a slice -/

/-- `priority + 20` is an index of the table. -/
def InTable (priority : Int) : Prop := 0 ≤ priority + 20 ∧ priority + 20 < prioToWeight.length

theorem inTable_iff {priority : Int} : InTable priority ↔ ValidPriority priority := by
  have hlength : (prioToWeight.length : Int) = 40 := rfl
  rw [InTable, ValidPriority, hlength]
  omega

/-- What `get_weight` is called with in a slice: `runqueue_timeslice` asks for the process and for
those that are left in the queue, `runqueue_vruntime` for zero and the process. -/
def weightCalls (k : Nat) (shared : Shared) : List Int :=
  match shared.rq with
  | some rq =>
    (shared.pcbs k).priority
      :: ((runqueueRemovePcb rq k).head.map fun node => (shared.pcbs node).priority)
      ++ [0, (shared.pcbs k).priority]
  | none => []

/-- Every call of `get_weight`, in every run, is one for an entry of the table. -/
def WeightsInTable (workload : Workload) : Prop :=
  ∀ s, (cfs workload).Reachable s → ∀ k, s.pc (.process k) = .run →
    ∀ priority ∈ weightCalls k s.shared, InTable priority

/-- The processes that can be created with a length have priorities of the table. -/
def Workload.PrioritiesValid (workload : Workload) : Prop :=
  ∀ params ∈ workload.creatable, 0 < params.length → ValidPriority params.priority

/-- A lookup needs an index of the table. -/
theorem inTable_of_getWeight {priority weight : Int} (h : getWeight priority = .ok weight) :
    InTable priority := by
  unfold getWeight at h
  split at h
  · next hmin =>
      have hlt := (List.getElem?_eq_some_iff.mp (Outcome.ofOption_eq_ok.mp h)).1
      exact ⟨hmin, by omega⟩
  · cases h

theorem inTable_of_foldlM {pcbs : Nat → Pcb} {nodes : List Nat} {total total' : Int}
    (h : nodes.foldlM (fun total node => do
        let nodeWeight ← getWeight (pcbs node).priority
        Scanf.toInt (total + nodeWeight)) total = .ok total') :
    ∀ node ∈ nodes, InTable (pcbs node).priority := by
  induction nodes generalizing total with
  | nil =>
      intro node hnode
      cases hnode
  | cons first nodes ih =>
      rw [List.foldlM_cons] at h
      obtain ⟨sum, hsum, hrest⟩ := Outcome.bind_eq_ok.mp h
      obtain ⟨weight, hweight, -⟩ := Outcome.bind_eq_ok.mp hsum
      intro node hnode
      rcases List.mem_cons.mp hnode with rfl | hnode
      · exact inTable_of_getWeight hweight
      · exact ih hrest node hnode

/-- **The calls are those of the slice**, which is not defined where one is outside. -/
theorem inTable_of_runSlice {k : Nat} {shared shared' : Shared}
    (h : runSlice k shared = .ok shared') :
    ∀ priority ∈ weightCalls k shared, InTable priority := by
  obtain ⟨rq, timeslice, cpuTime, vruntime, hrq, htimeslice, -, hvruntime, -⟩ := runSlice_spec h
  obtain ⟨weight, hweight, htimeslice⟩ := Outcome.bind_eq_ok.mp htimeslice
  obtain ⟨total, htotal, -⟩ := Outcome.bind_eq_ok.mp htimeslice
  obtain ⟨niceWeight, hniceWeight, -⟩ := Outcome.bind_eq_ok.mp hvruntime
  have hself := inTable_of_getWeight hweight
  intro priority hpriority
  unfold weightCalls at hpriority
  rw [hrq] at hpriority
  rcases List.mem_append.mp hpriority with h | h
  · rcases List.mem_cons.mp h with rfl | h
    · exact hself
    · obtain ⟨node, hnode, rfl⟩ := List.mem_map.mp h
      exact inTable_of_foldlM htotal node hnode
  · rcases List.mem_cons.mp h with rfl | h
    · exact inTable_of_getWeight hniceWeight
    · rw [List.mem_singleton.mp h]
      exact hself

section Calls

variable {workload : Workload} {s s' : State} {l : Label Thread}

/-! ## The processes that ask -/

/-- A queued process has been created with a length. -/
theorem creatable_of_queued (hs : (cfs workload).Reachable s) {k : Nat}
    (hqueued : (s.pc (.process k)).Queued) : ∃ params, workload.creatable[k]? = some params ∧
      0 < params.length ∧ (s.shared.pcbs k).priority = params.priority := by
  have hinv := AccountInv.reachable hs
  have hk : k < s.shared.created := by
    by_contra h
    rw [hinv.inv.places.fresh k (not_lt.mp h)] at hqueued
    exact hqueued
  obtain ⟨params, hparams, hidentity⟩ := hinv.creation.creatable hk
  have hpriority : (s.shared.pcbs k).priority = params.priority :=
    congrArg (fun identity => identity.2.1) hidentity
  have hlength : (s.shared.pcbs k).processLength = params.length :=
    congrArg (fun identity => identity.2.2) hidentity
  have hcharged : 0 ≤ (s.shared.pcbs k).cpuTime ∧
      (s.shared.pcbs k).cpuTime < (s.shared.pcbs k).processLength := by
    have h := hinv.charged k
    generalize s.pc (.process k) = p at h hqueued
    cases p <;> first | exact h | exact absurd hqueued id
  refine ⟨params, hparams, ?_, hpriority⟩
  rw [← hlength]
  omega

/-- **Enough**: the processes that can be queued have priorities of the table. -/
theorem weightsInTable_of_valid (hvalid : workload.PrioritiesValid) :
    WeightsInTable workload := by
  intro s hs k hrun priority hpriority
  have hqueued : ∀ j, (s.pc (.process j)).Queued → ValidPriority (s.shared.pcbs j).priority := by
    intro j hj
    obtain ⟨params, hparams, hlength, heq⟩ := creatable_of_queued hs hj
    rw [heq]
    exact hvalid params (List.mem_of_getElem? hparams) hlength
  have hself : ValidPriority (s.shared.pcbs k).priority := by
    apply hqueued
    rw [hrun]
    trivial
  rw [inTable_iff]
  unfold weightCalls at hpriority
  split at hpriority
  · next rq hrq =>
      rcases List.mem_append.mp hpriority with h | h
      · rcases List.mem_cons.mp h with rfl | h
        · exact hself
        · obtain ⟨node, hnode, rfl⟩ := List.mem_map.mp h
          have hqueue := ((Inv.reachable hs).queue hrq).2 node
          exact hqueued node (hqueue.mp (List.mem_of_mem_erase hnode))
      · rcases List.mem_cons.mp h with rfl | h
        · decide
        · rw [List.mem_singleton.mp h]
          exact hself
  · exact absurd hpriority List.not_mem_nil

/-! ## No process to schedule -/

/-- The scheduler has found nothing to do, and no process has been called. -/
structure Unscheduled (s : State) : Prop where
  remaining : s.shared.remainingProcessCount = 0
  scheduler : s.pc .scheduler = .start ∨ s.pc .scheduler = .whileRemaining ∨
    (s.pc .scheduler).ShutDown
  ready : ∀ k, (s.shared.pcbs k).state = .ready
  offCpu : ∀ k, ¬ (s.pc (.process k)).OnCpu

theorem process_offCpu {k : Nat} {shared shared' : Shared} {p next : ProcessPC}
    (h : (processInstr k p).advance shared = some (shared', next)) (hp : ¬ p.OnCpu)
    (hready : (shared.pcbs k).state = .ready) :
    ¬ next.OnCpu ∧ shared'.pcbs = shared.pcbs := by
  cases p with
  | run => exact absurd trivial hp
  | setReady => exact absurd trivial hp
  | sendStats departureTime =>
      obtain ⟨rfl, -, statsArray, rfl⟩ := advance_sendStats h
      exact ⟨id, rfl⟩
  | _ =>
      simp only [processInstr, Threads.Instr.advance] at h
      grind [ProcessPC.OnCpu]

theorem scheduler_unscheduled {shared shared' : Shared} {p next : SchedulerPC}
    (h : (schedulerInstr workload p).advance shared = some (shared', next))
    (hp : p = .start ∨ p = .whileRemaining ∨ p.ShutDown)
    (hremaining : shared.remainingProcessCount = 0) (htotal : workload.totalProcessCount = 0) :
    (next = .start ∨ next = .whileRemaining ∨ next.ShutDown) ∧
      shared'.remainingProcessCount = 0 ∧ shared'.pcbs = shared.pcbs := by
  cases p <;> simp only [schedulerInstr, Threads.Instr.advance] at h <;>
    grind [SchedulerPC.ShutDown]

theorem Unscheduled.step (hinv : Unscheduled s) (htotal : workload.totalProcessCount = 0)
    (hstep : (cfs workload).step l s = some s') : Unscheduled s' := by
  cases step_of hstep with
  | process k next _ hadvance hself hother =>
      obtain ⟨hoff, hpcbs⟩ := process_offCpu hadvance (hinv.offCpu k) (hinv.ready k)
      refine ⟨?_, ?_, ?_, ?_⟩
      · have hne : s.pc (.process k) ≠ .decrement := by
          intro h
          apply hinv.offCpu k
          rw [h]
          trivial
        rw [(process_effect hadvance).remaining, if_neg hne]
        exact hinv.remaining
      · rw [hother _ (by simp)]
        exact hinv.scheduler
      · rw [hpcbs]
        exact hinv.ready
      · intro j
        by_cases h : j = k
        · rw [h, hself]
          exact hoff
        · rw [hother _ (by simpa using h)]
          exact hinv.offCpu j
  | scheduler next hadvance hself hother =>
      obtain ⟨hnext, hremaining, hpcbs⟩ :=
        scheduler_unscheduled hadvance hinv.scheduler hinv.remaining htotal
      refine ⟨hremaining, by rw [hself]; exact hnext, ?_, ?_⟩
      · rw [hpcbs]
        exact hinv.ready
      · intro k
        rw [hother _ (by simp)]
        exact hinv.offCpu k
  | generator next hadvance _ hother =>
      have heffect := generator_effect hadvance
      refine ⟨by rw [heffect.remaining]; exact hinv.remaining, ?_, ?_, ?_⟩
      · rw [hother _ (by simp)]
        exact hinv.scheduler
      · intro k
        rcases heffect.created with ⟨params, -, -, -, hpcbs⟩ | ⟨-, -, hpcbs⟩
        · rw [hpcbs, Function.update_apply]
          split
          · rfl
          · exact hinv.ready k
        · rw [hpcbs]
          exact hinv.ready k
      · intro k
        rw [hother _ (by simp)]
        exact hinv.offCpu k
  | aside hshared hother =>
      refine ⟨by rw [hshared]; exact hinv.remaining, ?_, by rw [hshared]; exact hinv.ready, ?_⟩
      · rw [hother _ (by simp)]
        exact hinv.scheduler
      · intro k
        rw [hother _ (by simp)]
        exact hinv.offCpu k

theorem Unscheduled.reachable (htotal : workload.totalProcessCount = 0)
    (hs : (cfs workload).Reachable s) : Unscheduled s := by
  apply hs.invariant
  · exact ⟨rfl, .inl rfl, fun k => rfl, fun k => id⟩
  · exact fun s l s' hinv hstep => hinv.step htotal hstep

/-- With a total of zero, no process gets a slice. -/
theorem weightsInTable_of_zero (htotal : workload.totalProcessCount = 0) :
    WeightsInTable workload := by
  intro s hs k hrun
  have hoff := (Unscheduled.reachable htotal hs).offCpu k
  rw [hrun] at hoff
  exact absurd trivial hoff

/-! ## A process that gets a slice -/

/-- The scheduler has taken its first step and nobody but the generator has taken another one; it
has come to `p` with `i` processes created. -/
structure Alone (workload : Workload) (i : Nat) (p : GeneratorPC) (s : State) : Prop where
  scheduler : s.pc .scheduler = .whileRemaining
  generator : s.pc .generator = p
  process : ∀ k, s.pc (.process k) = .notCreated
  created : s.shared.created = i
  mode : ∀ t, s.mode t = .running
  owner : ∀ m, s.owner m = none
  kept : s.shared.argumentsFreed = false
  rq : s.shared.rq = some runqueueInit
  haveRunningProcess : s.shared.haveRunningProcess = false
  remaining : s.shared.remainingProcessCount = workload.totalProcessCount

/-- Nobody waits where all are awake. -/
theorem waiters_nil (hs : (cfs workload).Reachable s) (hmode : ∀ t, s.mode t = .running)
    (c : CondVar) : s.waiters c = [] := by
  apply List.eq_nil_iff_forall_not_mem.mpr
  intro t ht
  obtain ⟨m, hsleeping⟩ := ((Threads.WaitInv.reachable hs).mem_iff c t).mp ht
  rw [hmode] at hsleeping
  cases hsleeping

theorem alone_zero (workload : Workload) :
    ∃ s, (cfs workload).Reachable s ∧ Alone workload 0 .whileNext s :=
  ⟨_, ⟨turns .scheduler 1, rfl⟩, rfl, rfl, fun _ => rfl, rfl, fun _ => rfl, fun _ => rfl, rfl, rfl,
    rfl, rfl⟩

/-- The generator takes some steps more. -/
theorem Alone.generator_steps {i i' : Nat} {p next : GeneratorPC} (h : Alone workload i p s)
    (hpc : s'.pc = Function.update s.pc .generator next) (hmode : s'.mode = s.mode)
    (howner : s'.owner = s.owner) (hcreated : s'.shared.created = i')
    (hkept : s'.shared.argumentsFreed = s.shared.argumentsFreed)
    (hrq : s'.shared.rq = s.shared.rq)
    (hflag : s'.shared.haveRunningProcess = s.shared.haveRunningProcess)
    (hremaining : s'.shared.remainingProcessCount = s.shared.remainingProcessCount) :
    Alone workload i' next s' where
  scheduler := by rw [hpc]; exact h.scheduler
  generator := by rw [hpc, Function.update_self]
  process := by rw [hpc]; exact h.process
  created := hcreated
  mode := by rw [hmode]; exact h.mode
  owner := by rw [howner]; exact h.owner
  kept := hkept.trans h.kept
  rq := hrq.trans h.rq
  haveRunningProcess := hflag.trans h.haveRunningProcess
  remaining := hremaining.trans h.remaining

/-- It creates one process more. -/
theorem Alone.create {i : Nat} (h : Alone workload i .whileNext s)
    (hs : (cfs workload).Reachable s) {params : ProcessParams}
    (hparams : workload.processes[i]? = some params) :
    ∃ s', (cfs workload).Reachable s' ∧ Alone workload (i + 1) .sleep s' ∧
      s'.shared.pcbs i = initPcb params (i + 1) := by
  obtain ⟨s', hrun, hpc, hmode, howner, hshared⟩ :=
    run_create workload (h.mode .generator) h.generator (by rw [h.created]; exact hparams)
  rw [h.created] at hshared
  refine ⟨s', hs.run hrun, ?_, ?_⟩
  · exact h.generator_steps hpc hmode howner (by rw [hshared]) (by rw [hshared]; rfl)
      (by rw [hshared]; rfl) (by rw [hshared]; rfl) (by rw [hshared]; rfl)
  · rw [hshared]
    exact Function.update_self _ _ _

/-- Nothing is counted in the queue, so it goes on. -/
theorem Alone.check {i : Nat} (h : Alone workload i .sleep s) (hs : (cfs workload).Reachable s)
    (hlimit : workload.maxRunqueueLength ≠ 0) :
    ∃ s', (cfs workload).Reachable s' ∧ Alone workload i .whileNext s' := by
  obtain ⟨s', hrun, hpc, hmode, howner, hshared⟩ := run_check workload (h.mode .generator)
    h.generator (h.owner _) h.rq hlimit.symm
  refine ⟨s', hs.run hrun, ?_⟩
  exact h.generator_steps hpc hmode howner (by rw [hshared]; exact h.created) (by rw [hshared])
    (by rw [hshared]) (by rw [hshared]) (by rw [hshared])

/-- Each process that can be created is the last one of some run. -/
theorem exists_alone {k : Nat} {params : ProcessParams}
    (hparams : workload.creatable[k]? = some params) :
    ∃ s, (cfs workload).Reachable s ∧ Alone workload (k + 1) .sleep s ∧
      s.shared.pcbs k = initPcb params (k + 1) := by
  have hbefore : ∃ s, (cfs workload).Reachable s ∧ Alone workload k .whileNext s := by
    induction k generalizing params with
    | zero => exact alone_zero workload
    | succ k ih =>
        have hlimit : workload.maxRunqueueLength ≠ 0 := by
          intro hlimit
          rw [Workload.creatable, if_pos hlimit, List.getElem?_take, if_neg (by omega)] at hparams
          cases hparams
        have hk : k < workload.creatable.length := by
          have h := (List.getElem?_eq_some_iff.mp hparams).1
          omega
        have hprevious := List.getElem?_eq_getElem hk
        obtain ⟨s, hs, halone⟩ := ih hprevious
        obtain ⟨s₁, hs₁, halone₁, -⟩ :=
          halone.create hs (Workload.getElem?_processes hprevious)
        exact halone₁.check hs₁ hlimit
  obtain ⟨s, hs, halone⟩ := hbefore
  exact halone.create hs (Workload.getElem?_processes hparams)

section Steps

variable (workload)

/-- A queued process wakes the scheduler, if nobody runs. -/
theorem run_signals {k : Nat} (hmode : s.mode (.process k) = .running)
    (hp : s.pc (.process k) = .lockNew) (howner : s.owner .needScheduling = none)
    (hwaiters : s.waiters .needScheduling = []) (hfree : s.shared.haveRunningProcess = false) :
    ∃ s', (cfs workload).run (turns (.process k) 4) s = some s' ∧
      s'.pc = Function.update s.pc (.process k) .lockPcb ∧ s'.mode = s.mode ∧
      s'.owner = s.owner ∧ s'.shared = { s.shared with waitingForNewProcess := false } := by
  simp [turns, List.replicate, System.run, Threads.Program.system, Threads.Program.step, program,
    processInstr, Threads.State.goto, Threads.State.setOwner, hmode, hp, howner, hwaiters, hfree]

/-- The scheduler calls the process that it selects. -/
theorem run_calls {k : Nat} {rq : Runqueue} (hmode : s.mode .scheduler = .running)
    (hp : s.pc .scheduler = .whileRemaining) (hremaining : s.shared.remainingProcessCount ≠ 0)
    (hfree : s.shared.haveRunningProcess = false) (hnew : s.shared.waitingForNewProcess = false)
    (hrq : s.shared.rq = some rq) (hselected : runqueueSmallestPcb s.shared.pcbs rq = some k)
    (howner : ∀ m, s.owner m = none) (hwaiters : s.waiters (.pcb k) = []) :
    ∃ s', (cfs workload).run (turns .scheduler 10) s = some s' ∧
      s'.pc = Function.update s.pc .scheduler (.setHaveRunning k) ∧ s'.mode = s.mode ∧
      s'.owner = Function.update s.owner .needScheduling (some .scheduler) ∧
      s'.shared = s.shared.setState k .running := by
  simp [turns, List.replicate, System.run, Threads.Program.system, Threads.Program.step, program,
    schedulerInstr, Threads.State.goto, Threads.State.setOwner, hmode, hp, hremaining, hfree, hnew,
    hrq, hselected, howner, hwaiters]
  -- the queue and the pcb have been unlocked again
  funext m
  cases m <;> simp [Function.update_apply, howner]

/-- A process that has been called comes to its slice. -/
theorem run_takes {k : Nat} (hmode : s.mode (.process k) = .running)
    (hp : s.pc (.process k) = .lockPcb) (hrunning : (s.shared.pcbs k).state = .running)
    (howner : s.owner (.pcb k) = none) (hfree : s.owner .runqueue = none) :
    ∃ s', (cfs workload).run (turns (.process k) 3) s = some s' ∧
      s'.pc (.process k) = .run ∧ s'.shared = s.shared := by
  simp [turns, List.replicate, System.run, Threads.Program.system, Threads.Program.step, program,
    processInstr, Threads.State.goto, Threads.State.setOwner, hmode, hp, hrunning, howner, hfree]

end Steps

/-- **A process with a length gets a slice**, if the scheduler does anything at all. -/
theorem exists_run {k : Nat} {params : ProcessParams} (htotal : workload.totalProcessCount ≠ 0)
    (hparams : workload.creatable[k]? = some params) (hlength : 0 < params.length) :
    ∃ s rq, (cfs workload).Reachable s ∧ s.pc (.process k) = .run ∧ s.shared.rq = some rq ∧
      (s.shared.pcbs k).priority = params.priority := by
  obtain ⟨s, hs, halone, hpcb⟩ := exists_alone hparams
  -- the process enters the queue
  obtain ⟨s₁, hrun₁, hpc₁, hmode₁, howner₁, hshared₁⟩ := run_enters workload
    (halone.mode (.process k)) (halone.process k) (by rw [halone.created]; exact Nat.lt_succ_self k)
    (halone.owner .runqueue) halone.kept halone.rq (by rw [hpcb]; exact hlength)
  have hs₁ := hs.run hrun₁
  have hmode : ∀ t, s₁.mode t = .running := by
    rw [hmode₁]
    exact halone.mode
  have howner : ∀ m, s₁.owner m = none := by
    rw [howner₁]
    exact halone.owner
  -- and wakes the scheduler
  obtain ⟨s₂, hrun₂, hpc₂, hmode₂, howner₂, hshared₂⟩ := run_signals workload
    (hmode (.process k)) (by rw [hpc₁]; exact Function.update_self _ _ _) (howner .needScheduling)
    (waiters_nil hs₁ hmode .needScheduling) (by rw [hshared₁]; exact halone.haveRunningProcess)
  have hs₂ := hs₁.run hrun₂
  rw [← hmode₂] at hmode
  rw [← howner₂] at howner
  rw [hshared₁] at hshared₂
  -- which selects it, as it is the only one
  have hselected :
      runqueueSmallestPcb s₂.shared.pcbs (runqueueAddPcb runqueueInit k) = some k := by
    simp [runqueueAddPcb, runqueueInit, runqueueSmallestPcb, smallerNode]
  obtain ⟨s₃, hrun₃, hpc₃, hmode₃, howner₃, hshared₃⟩ := run_calls workload (hmode .scheduler)
    (by rw [hpc₂, hpc₁]; exact halone.scheduler)
    (by rw [hshared₂]; exact halone.remaining.trans_ne htotal)
    (by rw [hshared₂]; exact halone.haveRunningProcess) (by rw [hshared₂])
    (by rw [hshared₂]) hselected howner (waiters_nil hs₂ hmode (.pcb k))
  obtain ⟨s₄, hrun₄, hpc₄, hshared₄⟩ := run_takes workload (k := k)
    (by rw [hmode₃]; exact hmode _) (by rw [hpc₃, hpc₂]; exact Function.update_self _ _ _)
    (by rw [hshared₃]; simp [Shared.setState, Shared.setPcb])
    (by rw [howner₃]; exact howner _) (by rw [howner₃]; exact howner _)
  refine ⟨s₄, runqueueAddPcb runqueueInit k, (hs₂.run hrun₃).run hrun₄, hpc₄, ?_, ?_⟩
  · rw [hshared₄, hshared₃, hshared₂]
    rfl
  · rw [hshared₄, hshared₃, hshared₂]
    simp [Shared.setState, Shared.setPcb, hpcb, initPcb]

/-- **The calls stay in the table** exactly if no process is scheduled at all, or every process that
can be created with a length has a priority of the table. -/
theorem weightsInTable_iff :
    WeightsInTable workload ↔ workload.totalProcessCount = 0 ∨ workload.PrioritiesValid := by
  constructor
  · intro h
    by_cases htotal : workload.totalProcessCount = 0
    · exact .inl htotal
    · right
      intro params hparams hlength
      obtain ⟨k, hk⟩ := List.mem_iff_getElem?.mp hparams
      obtain ⟨s, rq, hs, hrun, hrq, hpriority⟩ := exists_run htotal hk hlength
      rw [← hpriority, ← inTable_iff]
      apply h s hs k hrun
      unfold weightCalls
      rw [hrq]
      exact List.mem_cons_self
  · rintro (htotal | hvalid)
    · exact weightsInTable_of_zero htotal
    · exact weightsInTable_of_valid hvalid

end Calls

end Cs342.Cfs
