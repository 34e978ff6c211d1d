import Mathlib
import Cs342.Cfs.Potential
import Cs342.Cfs.Deadlock
import Cs342.Cfs.Return
import Cs342.Cfs.Fairness
import Cs342.Cfs.Weights

/-!
# Every schedule ends

If all processes have a length and a priority of the table, no schedule goes on for ever, and none
ends before main returns. The potential bounds the steps that the threads can take
(`countP_works_le`). As long as main has not printed, nothing is undefined (`defined`), so where no
other thread can take a step all of them are blocked; but then the processes have ended, hence all
are counted, so the scheduler does not sleep (`finished_of_quiet`). Main has nothing else to wait
for, and it may not even wait for that: a process that has been counted can be late with its
statistics (**`simulator_terminates`**).
-/

namespace Cs342.Cfs

open Threads (LockInv Label Blocked)

/-- Every process can run to its end, and the parameters fit the processes. -/
structure Runnable (workload : Workload) : Prop where
  total : workload.totalProcessCount = workload.processes.length
  length : ∀ params ∈ workload.processes, 0 < params.length
  priority : ∀ params ∈ workload.processes, ValidPriority params.priority
  limit : workload.maxRunqueueLength ≠ 0
  /-- The sum of all weights is an int. -/
  weight : (workload.processes.map fun params => weightOf params.priority).sum < 2 ^ 31

/-- All threads but main have ended. -/
structure Finished (workload : Workload) (s : State) : Prop where
  processes : ∀ k < workload.processes.length, s.pc (.process k) = .exited
  scheduler : s.pc .scheduler = .exited
  generator : s.pc .generator = .exited

/-- A process stores its statistics in the array that main has freed. -/
def LateSend (s : State) (t : Thread) : Prop :=
  ∃ k departureTime, t = .process k ∧ s.pc (.process k) = .sendStats departureTime ∧
    s.shared.statsFreed = true

section Termination

variable {workload : Workload} {s s' : State} {l : Label Thread}

/-! ## No schedule is longer -/

/-- The queue has been freed. -/
def SchedulerPC.Freed : SchedulerPC → Prop
  | .pthreadExit | .exited => True
  | _ => False

theorem scheduler_freed {shared shared' : Shared} {p next : SchedulerPC}
    (h : (schedulerInstr workload p).advance shared = some (shared', next))
    (hp : p.Freed ∨ p = .freeRq) : next.Freed := by
  cases p with
  | freeRq => cases h; trivial
  | pthreadExit => cases h; trivial
  | exited => cases h
  | _ => rcases hp with h | h <;> cases h

theorem rq_of_process {k : Nat} {shared shared' : Shared} {p next : ProcessPC}
    (h : (processInstr k p).advance shared = some (shared', next)) (hrq : shared'.rq = none) :
    shared.rq = none := by
  cases p with
  | add =>
      simp only [processInstr, Threads.Instr.advance] at h
      split at h <;> cases h
      cases hrq
  | run =>
      obtain ⟨rfl, hslice⟩ := advance_run h
      obtain ⟨rq, timeslice, cpuTime, vruntime, -, -, -, -, rfl⟩ := runSlice_spec hslice
      cases hrq
  | setReady => cases h; exact hrq
  | sendStats departureTime =>
      obtain ⟨rfl, -, statsArray, rfl⟩ := advance_sendStats h
      exact hrq
  | _ =>
      simp only [processInstr, Threads.Instr.advance] at h
      grind

/-- Only the scheduler frees the queue. -/
theorem freed_of_none (hs : (cfs workload).Reachable s) (hrq : s.shared.rq = none) :
    (s.pc .scheduler).Freed := by
  refine hs.invariant (P := fun s => s.shared.rq = none → (s.pc .scheduler).Freed) ?_ ?_ hrq
  · intro h
    cases h
  · intro s l s' ih hstep hrq
    cases scheduleStep_of_step hstep with
    | process k next hadvance _ hother =>
        rw [hother _ (by simp)]
        exact ih (rq_of_process hadvance hrq)
    | scheduler next hadvance hself _ =>
        rw [hself]
        have heffect := scheduler_effect hadvance
        rcases heffect.rq with h | ⟨hp, -⟩
        · rw [h] at hrq
          exact scheduler_freed hadvance (Or.inl (ih hrq))
        · exact scheduler_freed hadvance (Or.inr hp)
    | same hsame hscheduler _ =>
        rw [hsame.rq] at hrq
        rw [hscheduler]
        exact ih hrq

/-- Before a process has notified, the queue is there. -/
theorem exists_rq (htotal : workload.totalProcessCount = workload.processes.length)
    (hs : (cfs workload).Reachable s) {k : Nat} (hp : s.pc (.process k) ≠ .notCreated)
    (hnotified : ¬ Notified s k) : ∃ rq, s.shared.rq = some rq := by
  cases hrq : s.shared.rq with
  | some rq => exact ⟨rq, rfl⟩
  | none =>
      have hfreed := freed_of_none hs hrq
      have hdown : (s.pc .scheduler).ShutDown := by
        cases hq : s.pc .scheduler <;> rw [hq] at hfreed <;> first | exact hfreed | trivial
      exact absurd (notified_of_shutDown htotal hs hdown k (lt_length_of_pc hs hp)) hnotified

/-- The weight of a process of the workload. -/
def Workload.weight (workload : Workload) (k : Nat) : Int :=
  ((workload.processes[k]?.map fun params => weightOf params.priority).getD 0)

theorem Workload.map_weight (workload : Workload) :
    (List.range workload.processes.length).map workload.weight
      = workload.processes.map fun params => weightOf params.priority := by
  apply List.ext_getElem
  · simp
  · intro k h _
    have hk : k < workload.processes.length := by simpa using h
    simp [Workload.weight, hk]

theorem Workload.weight_nonneg (h : Runnable workload) (k : Nat) : 0 ≤ workload.weight k := by
  unfold Workload.weight
  cases hparams : workload.processes[k]? with
  | none => simp
  | some params => exact (weightOf_pos (h.priority params (List.mem_of_getElem? hparams))).le

/-- A queued process has the priority and the weight of the workload. -/
theorem weight_of_queued (h : Runnable workload) (hs : (cfs workload).Reachable s) {k : Nat}
    (hqueued : (s.pc (.process k)).Queued) : ValidPriority (s.shared.pcbs k).priority ∧
      weightOf (s.shared.pcbs k).priority = workload.weight k := by
  obtain ⟨params, hparams, -, hpriority⟩ := creatable_of_queued hs hqueued
  have hparams := Workload.getElem?_processes hparams
  rw [hpriority]
  refine ⟨h.priority params (List.mem_of_getElem? hparams), ?_⟩
  rw [Workload.weight, hparams]
  rfl

/-- The queue weighs no more than all processes of the workload together. -/
theorem totalWeight_lt (h : Runnable workload) (hs : (cfs workload).Reachable s) {rq : Runqueue}
    (hrq : s.shared.rq = some rq) (k : Nat) :
    totalWeight s.shared.pcbs (runqueueRemovePcb rq k).head < 2 ^ 31 := by
  obtain ⟨hnodup, hmem⟩ := (Inv.reachable hs).queue hrq
  have hqueued : ∀ node ∈ rq.head.erase k, (s.pc (.process node)).Queued :=
    fun node hnode => (hmem node).mp (List.mem_of_mem_erase hnode)
  have hsubperm : (rq.head.erase k).Subperm (List.range workload.processes.length) := by
    apply (hnodup.erase k).subperm
    intro node hnode
    apply List.mem_range.mpr
    apply lt_length_of_pc hs
    intro hfresh
    have hnode := hqueued node hnode
    rw [hfresh] at hnode
    exact hnode
  obtain ⟨part, hperm, hpart⟩ := hsubperm
  calc totalWeight s.shared.pcbs (rq.head.erase k)
      = ((rq.head.erase k).map workload.weight).sum := by
        unfold totalWeight
        congr 1
        apply List.map_congr_left
        exact fun node hnode => (weight_of_queued h hs (hqueued node hnode)).2
    _ = (part.map workload.weight).sum := (hperm.map _).sum_eq.symm
    _ ≤ ((List.range workload.processes.length).map workload.weight).sum := by
        apply (hpart.map _).sum_le_sum
        intro weight hweight
        obtain ⟨node, -, rfl⟩ := List.mem_map.mp hweight
        exact Workload.weight_nonneg h node
    _ < 2 ^ 31 := by
        rw [Workload.map_weight]
        exact h.weight

theorem exists_runSlice (h : Runnable workload) (hs : (cfs workload).Reachable s) {k : Nat}
    (hp : s.pc (.process k) = .run) : ∃ shared, runSlice k s.shared = .ok shared := by
  obtain ⟨rq, hrq⟩ := exists_rq h.total hs (k := k) (by rw [hp]; simp) (by
    unfold Notified
    rw [hp]
    exact id)
  have hself := (weight_of_queued h hs (k := k) (by rw [hp]; trivial)).1
  have hothers : ∀ node ∈ (runqueueRemovePcb rq k).head,
      ValidPriority (s.shared.pcbs node).priority := by
    intro node hnode
    have hqueue := ((Inv.reachable hs).queue hrq).2 node
    exact (weight_of_queued h hs (hqueue.mp (List.mem_of_mem_erase hnode))).1
  have hslice := runqueueTimeslice_eq hothers hself
  rw [if_pos (totalWeight_lt h hs hrq k)] at hslice
  rw [runSlice, hrq, Outcome.ofOption_some, Outcome.ok_bind]
  simp only [clippedTimeslice, getTimesliceForPcb, hslice, Outcome.ok_bind, Outcome.pure_eq,
    updatePcbTimings, runqueueVruntime_eq hself]
  exact ⟨_, rfl⟩

/-- **What a thread comes to is defined**, unless main has freed what it needs. -/
theorem defined (h : Runnable workload) (hs : (cfs workload).Reachable s)
    (hkept : s.shared.argumentsFreed = false) {t : Thread} (hearly : ¬ LateSend s t)
    {f : Shared → Option (Shared × PC t)}
    (hinstr : (program workload).instr t (s.pc t) = .exec f) : f s.shared ≠ none := by
  cases t with
  | scheduler =>
      have hinstr : schedulerInstr workload (s.pc .scheduler) = .exec f := hinstr
      cases hp : s.pc .scheduler with
      | select =>
          rw [hp] at hinstr
          cases hinstr
          intro hnone
          dsimp only at hnone
          split at hnone
          · cases hnone
          · next hrq =>
              have hfreed := freed_of_none hs hrq
              rw [hp] at hfreed
              cases hfreed
      | unlockRq pcb => rw [hp] at hinstr; cases pcb <;> cases hinstr
      | _ => rw [hp] at hinstr; cases hinstr <;> simp
  | process k =>
      have hinstr : processInstr k (s.pc (.process k)) = .exec f := hinstr
      cases hp : s.pc (.process k) with
      | add =>
          rw [hp] at hinstr
          cases hinstr
          obtain ⟨rq, hrq⟩ := exists_rq h.total hs (k := k) (by rw [hp]; simp) (by
            unfold Notified
            rw [hp]
            exact id)
          simp [hrq]
      | run =>
          rw [hp] at hinstr
          cases hinstr
          obtain ⟨shared, hslice⟩ := exists_runSlice h hs hp
          simp [hslice, Outcome.toOption]
      | sendStats departureTime =>
          rw [hp] at hinstr
          cases hinstr
          have hk := lt_length_of_pc hs (k := k) (by rw [hp]; simp)
          have hcreated : k < s.shared.created := by
            by_contra hge
            have hfresh := (PlaceInv.reachable hs).fresh k (not_lt.mp hge)
            rw [hp] at hfresh
            cases hfresh
          have hpid := (CreationInv.reachable hs).pid_eq hcreated
          have hslots := (JoinInv.reachable hs).slots
          rw [h.total] at hslots
          have hfits : 0 ≤ (s.shared.pcbs k).pid - 1 ∧
              (s.shared.pcbs k).pid - 1 < s.shared.statsArray.length := by
            rw [hpid, hslots]
            omega
          have hsend : ∀ locals, sendProcessStats
              (processStatistics (s.shared.pcbs k) locals departureTime) s.shared ≠ none := by
            intro locals
            unfold sendProcessStats
            rw [if_pos (by exact hfits)]
            simp
          have hstats : s.shared.statsFreed = false := by
            by_contra hfreed
            exact hearly ⟨k, departureTime, rfl, hp, by simpa using hfreed⟩
          simpa [hstats] using hsend _
      | whileLength =>
          rw [hp] at hinstr
          cases hinstr
          simp only [hkept]
          split <;> simp
      | _ => rw [hp] at hinstr; cases hinstr <;> simp [hkept]
  | generator =>
      have hinstr : generatorInstr workload (s.pc .generator) = .exec f := hinstr
      cases hp : s.pc .generator with
      | whileNext =>
          rw [hp] at hinstr
          cases hinstr
          intro hnone
          dsimp only at hnone
          split at hnone <;> cases hnone
      | _ => rw [hp] at hinstr; cases hinstr <;> simp
  | main =>
      have hinstr : mainInstr (s.pc .main) = .exec f := hinstr
      cases hp : s.pc .main <;> rw [hp] at hinstr <;> cases hinstr <;> simp
  | clock => cases hinstr; simp

/-! ## Nobody sleeps for ever -/

/-- The scheduler is on its way to sleep. -/
def SchedulerPC.Loops : SchedulerPC → Prop
  | .lockNeedScheduling | .whileBusy | .waitNeedScheduling => True
  | _ => False

/-- A process that decrements the count runs on the CPU, so the scheduler does not wait for a new
one. -/
theorem not_parked_of_decrement (hinv : Inv workload s) {k : Nat}
    (hp : s.pc (.process k) = .decrement) (hloops : (s.pc .scheduler).Loops) :
    s.shared.waitingForNewProcess ≠ true := by
  intro hparked
  have hphase : (cpuOf s).phase k = .leaving := by
    show processPhase (s.pc (.process k)) = _
    rw [hp]
    rfl
  have hgrant : (cpuOf s).grant = .idle := by
    show schedulerGrant (s.pc .scheduler) = _
    cases hq : s.pc .scheduler <;> rw [hq] at hloops <;> first | rfl | exact absurd hloops id
  have hholds : (cpuOf s).Holds k := by
    refine Or.inr (Or.inr ?_)
    rw [hphase]
    exact ⟨by simp, by simp⟩
  rcases hinv.cpu.shown k hholds with hbusy | h | h | h
  · exact hinv.cpu.not_both ⟨hbusy, hparked⟩
  · rw [hgrant] at h
    cases h
  · rw [hgrant] at h
    cases h
  · rw [hphase] at h
    cases h

theorem scheduler_loops {shared shared' : Shared} {p next : SchedulerPC}
    (h : (schedulerInstr workload p).advance shared = some (shared', next)) (hnext : next.Loops) :
    (shared.remainingProcessCount ≠ 0 ∧ shared' = shared) ∨ (p.Loops ∧ shared' = shared) := by
  cases p with
  | whileRemaining =>
      cases h
      split at hnext
      · next hremaining => exact Or.inl ⟨hremaining, rfl⟩
      · cases hnext
  | whileBusy => cases h; exact Or.inr ⟨trivial, rfl⟩
  | lockNeedScheduling => cases h; exact Or.inr ⟨trivial, rfl⟩
  | waitNeedScheduling => cases h; exact Or.inr ⟨trivial, rfl⟩
  | select =>
      simp only [schedulerInstr, Threads.Instr.advance] at h
      split at h <;> cases h
      cases hnext
  | unlockRq pcb => cases pcb <;> cases h <;> cases hnext
  | exited => cases h
  | _ => cases h; cases hnext

/-- **The scheduler sleeps for a new process only if one is missing.** -/
theorem remaining_of_parked (hs : (cfs workload).Reachable s) (hloops : (s.pc .scheduler).Loops)
    (hparked : s.shared.waitingForNewProcess = true) : s.shared.remainingProcessCount ≠ 0 := by
  have hboth : Inv workload s ∧ ((s.pc .scheduler).Loops →
      s.shared.waitingForNewProcess = true → s.shared.remainingProcessCount ≠ 0) := by
    apply hs.invariant
    · exact ⟨Inv.reachable System.reachable_init, fun h => absurd h id⟩
    · rintro s l s' ⟨hinv, ih⟩ hstep
      refine ⟨hinv.step hstep, fun hloops hparked => ?_⟩
      cases scheduleStep_of_step hstep with
      | process k next hadvance _ hother =>
          rw [hother _ (by simp)] at hloops
          have hbefore := ((process_signals hadvance).parks hparked).1
          rw [(process_effect hadvance).remaining]
          split
          · next hp => exact absurd hbefore (not_parked_of_decrement hinv hp hloops)
          · exact ih hloops hbefore
      | scheduler next hadvance hself _ =>
          rw [hself] at hloops
          rcases scheduler_loops hadvance hloops with ⟨hp, hshared⟩ | ⟨hp, hshared⟩ <;>
            rw [hshared] at hparked ⊢
          · exact hp
          · exact ih hp hparked
      | same hsame hscheduler _ =>
          rw [hscheduler] at hloops
          rw [hsame.flags.2] at hparked
          rw [hsame.remaining]
          exact ih hloops hparked
  exact hboth.2 hloops hparked

theorem scheduler_ends {shared shared' : Shared} {p next : SchedulerPC}
    (h : (schedulerInstr workload p).advance shared = some (shared', next))
    (hnext : next = .exited) : shared'.schedulerExited = true := by
  cases p with
  | pthreadExit => cases h; rfl
  | select =>
      simp only [schedulerInstr, Threads.Instr.advance] at h
      split at h <;> cases h
      cases hnext
  | unlockRq pcb => cases pcb <;> cases h <;> cases hnext
  | whileRemaining => cases h; split at hnext <;> cases hnext
  | whileBusy => cases h; split at hnext <;> cases hnext
  | exited => cases h
  | _ => cases h; cases hnext

theorem generator_ends {shared shared' : Shared} {p next : GeneratorPC}
    (h : (generatorInstr workload p).advance shared = some (shared', next)) :
    shared'.schedulerExited = shared.schedulerExited ∧
      (next = .exited → shared'.generatorExited = true) := by
  refine ⟨(generator_effect h).results.2, fun hexited => ?_⟩
  rw [(generator_effect h).exited hexited] at h
  cases h
  rfl

/-- Who has ended has said so. -/
theorem exits (hs : (cfs workload).Reachable s) :
    (s.pc .scheduler = .exited → s.shared.schedulerExited = true) ∧
      (s.pc .generator = .exited → s.shared.generatorExited = true) := by
  apply hs.invariant
  · exact ⟨fun h => (by cases h), fun h => (by cases h)⟩
  · rintro s l s' ⟨hscheduler, hgenerator⟩ hstep
    cases step_of hstep with
    | process k next _ hadvance _ hother =>
        rw [hother .scheduler (by simp), hother .generator (by simp),
          (process_effect hadvance).schedulerExited, process_generatorExited hadvance]
        exact ⟨hscheduler, hgenerator⟩
    | scheduler next hadvance hself hother =>
        rw [hother .generator (by simp), hself, scheduler_generatorExited hadvance]
        exact ⟨scheduler_ends hadvance, hgenerator⟩
    | generator next hadvance hself hother =>
        rw [hother .scheduler (by simp), hself]
        obtain ⟨hs₁, hs₂⟩ := generator_ends hadvance
        rw [hs₁]
        exact ⟨hscheduler, hs₂⟩
    | aside hshared hother =>
        rw [hother .scheduler (by simp), hother .generator (by simp), hshared]
        exact ⟨hscheduler, hgenerator⟩

/-! ## All threads but main -/

/-- The steps of all threads but main. -/
def OthersWork : Label Thread → Bool
  | .run .main | .wake .main _ => false
  | l => Works l

theorem works_of_othersWork (h : OthersWork l = true) : Works l = true := by
  cases l with
  | run t => cases t <;> first | exact h | cases h
  | wake t w => rfl
  | spurious w => cases h

/-- As long as nothing has been printed, nothing has been freed. -/
theorem kept_of_printed (hs : (cfs workload).Reachable s) (hprinted : s.shared.printed = none) :
    s.shared.statsFreed = false ∧ s.shared.argumentsFreed = false ∧ s.pc .main ≠ .exited := by
  have hdone := MainDone.reachable hs
  have hmain : ¬ (s.pc .main).Printed := fun h => hdone.printed.mpr h hprinted
  have hexited : s.pc .main ≠ .exited := by
    intro h
    rw [h] at hmain
    exact hmain trivial
  refine ⟨?_, ?_, hexited⟩
  · by_contra hfreed
    rcases hdone.statsFreed.mp (by simpa using hfreed) with h | h
    · rw [h] at hmain
      exact hmain trivial
    · exact hexited h
  · by_contra hfreed
    exact hexited (hdone.argumentsFreed.mp (by simpa using hfreed))

/-- Where no other thread takes a step, all of them are blocked. -/
theorem blocked_of_quiet (h : Runnable workload) (hs : (cfs workload).Reachable s)
    (hprinted : s.shared.printed = none)
    (hquiet : ∀ l, OthersWork l = true → (cfs workload).step l s = none) {t : Thread}
    (hclock : t ≠ .clock) (hmain : t ≠ .main) : Blocked (program workload) s t := by
  by_contra hfree
  rcases (canStep_iff hs t).mpr hfree with ⟨l, s', hl, hstep⟩ | ⟨f, -, hinstr, hnone⟩
  · have hworks : OthersWork l = true := by
      rcases hl with rfl | ⟨w, rfl⟩ <;> cases t <;>
        first | rfl | exact absurd rfl hclock | exact absurd rfl hmain
    rw [hquiet l hworks] at hstep
    cases hstep
  · obtain ⟨hstats, harguments, -⟩ := kept_of_printed hs hprinted
    refine defined h hs harguments ?_ hinstr hnone
    rintro ⟨k, departureTime, -, -, hfreed⟩
    rw [hstats] at hfreed
    cases hfreed

/-- The generator does not hold the queue where it is blocked. -/
theorem not_generator_owner (hs : (cfs workload).Reachable s)
    (hblocked : Blocked (program workload) s .generator) :
    s.owner .runqueue ≠ some .generator := by
  intro howner
  obtain ⟨hheld, m, next, hinstr, -⟩ := locks_of_owner (Inv.reachable hs).locks howner hblocked
  have hheld : .runqueue ∈ generatorHeld (s.pc .generator) := hheld
  have hinstr : generatorInstr workload (s.pc .generator) = .lock m next := hinstr
  cases hp : s.pc .generator <;> rw [hp] at hheld hinstr <;> cases hinstr
  cases hheld

theorem allBlocked_of_quiet (h : Runnable workload) (hs : (cfs workload).Reachable s)
    (hprinted : s.shared.printed = none)
    (hquiet : ∀ l, OthersWork l = true → (cfs workload).step l s = none) :
    AllBlocked workload s where
  scheduler := blocked_of_quiet h hs hprinted hquiet (by simp) (by simp)
  processes _ _ := blocked_of_quiet h hs hprinted hquiet (by simp) (by simp)
  generator :=
    not_generator_owner hs (blocked_of_quiet h hs hprinted hquiet (by simp) (by simp))

/-- Where all are blocked, the generator has ended. -/
theorem AllBlocked.generator_exited (h : AllBlocked workload s) (hinv : WakeInv workload s)
    (hblocked : Blocked (program workload) s .generator) : s.pc .generator = .exited := by
  have hmode := running_of_never_waits hinv.inv.locks (t := .generator) (by simp) (by simp)
  cases hblocked with
  | mutex hwants howned => exact absurd (h.free hinv _) howned
  | asleep hasleep => rw [hmode] at hasleep; cases hasleep
  | await _ hinstr _ =>
      have hinstr : generatorInstr workload (s.pc .generator) = .await _ _ := hinstr
      cases hp : s.pc .generator <;> rw [hp] at hinstr <;> cases hinstr
  | halted _ hinstr =>
      have hinstr : generatorInstr workload (s.pc .generator) = .halt := hinstr
      cases hp : s.pc .generator <;> rw [hp] at hinstr <;> first | rfl | cases hinstr

/-- Where all are blocked and everybody is counted, the scheduler has ended. -/
theorem AllBlocked.scheduler_exited (h : AllBlocked workload s) (hs : (cfs workload).Reachable s)
    (hexited : ∀ k < workload.processes.length, s.pc (.process k) = .exited)
    (hremaining : s.pc .scheduler ≠ .start → s.shared.remainingProcessCount = 0) :
    s.pc .scheduler = .exited := by
  have hinv := WakeInv.reachable hs
  have hsignalled : ∀ k, s.pc (.process k) = .signalNew ∨ s.pc (.process k) = .signalTerminated →
      False := by
    intro k hk
    have hlt : k < workload.processes.length :=
      lt_length_of_pc hs (by rcases hk with hk | hk <;> rw [hk] <;> simp)
    rw [hexited k hlt] at hk
    rcases hk with hk | hk <;> cases hk
  rcases h.scheduler_asleep hinv with ⟨hloop, c, m, hasleep⟩ | hdone
  · exfalso
    rcases hinv.schedulerAsleep c m hasleep with hbusy | hparked | ⟨k, hk⟩
    · exact h.not_busy hinv (by rw [hloop]; simp) hbusy
    · exact remaining_of_parked hs (by rw [hloop]; trivial) hparked
        (hremaining (by rw [hloop]; simp))
    · exact hsignalled k hk
  · exact hdone

/-- **Where the other threads cannot go on, they have ended.** -/
theorem finished_of_quiet (h : Runnable workload) (hs : (cfs workload).Reachable s)
    (hprinted : s.shared.printed = none)
    (hquiet : ∀ l, OthersWork l = true → (cfs workload).step l s = none) : Finished workload s := by
  have hinv := WakeInv.reachable hs
  have hall := allBlocked_of_quiet h hs hprinted hquiet
  have hgenerator :=
    hall.generator_exited hinv (blocked_of_quiet h hs hprinted hquiet (by simp) (by simp))
  have hcreated := (CreationInv.reachable hs).exits (Or.inr hgenerator)
  have hprocesses : ∀ k < workload.processes.length, s.pc (.process k) = .exited :=
    fun k hk => hall.exited hs h.total (hk.trans_le hcreated)
  refine ⟨hprocesses, hall.scheduler_exited hs hprocesses fun hpast => ?_, hgenerator⟩
  apply ((AccountInv.reachable hs).zero_iff h.total hpast).mpr
  intro k hk
  obtain ⟨params, hparams, hpcb⟩ := (CreationInv.reachable hs).pcb k (hk.trans_le hcreated)
  have hlength : (s.shared.pcbs k).processLength = params.length :=
    (Prod.mk.inj (Prod.mk.inj hpcb).2).2
  have hpositive := h.length params (List.mem_of_getElem? hparams)
  have hcharged := (AccountInv.reachable hs).charged k
  unfold Notified
  rw [hprocesses k hk] at hcharged ⊢
  exact ⟨by have := hcharged.2; omega, hcharged.2⟩

/-! ## Main -/

/-- Main can go on once the two threads have ended. -/
theorem exists_main_step (hs : (cfs workload).Reachable s) (hscheduler : s.pc .scheduler = .exited)
    (hgenerator : s.pc .generator = .exited) (hmain : s.pc .main ≠ .exited) :
    ∃ s', (cfs workload).step (.run .main) s = some s' := by
  obtain ⟨hs₁, hs₂⟩ := exits hs
  have hmode := running_of_never_waits (Inv.reachable hs).locks (t := .main) (by simp) (by simp)
  have hblocked : ¬ Blocked (program workload) s .main := by
    intro hblocked
    cases hblocked with
    | mutex hwants howned =>
        rcases hwants with ⟨-, next, hinstr⟩ | hwoken
        · have hinstr : mainInstr (s.pc .main) = .lock _ next := hinstr
          cases hp : s.pc .main <;> rw [hp] at hinstr <;> cases hinstr
        · rw [hmode] at hwoken
          cases hwoken
    | asleep hasleep => rw [hmode] at hasleep; cases hasleep
    | await _ hinstr hready =>
        have hinstr : mainInstr (s.pc .main) = .await _ _ := hinstr
        cases hp : s.pc .main <;> rw [hp] at hinstr <;> cases hinstr
        · cases (hs₁ hscheduler).symm.trans hready
        · cases (hs₂ hgenerator).symm.trans hready
    | halted _ hinstr =>
        have hinstr : mainInstr (s.pc .main) = .halt := hinstr
        cases hp : s.pc .main <;> rw [hp] at hinstr <;>
          first | exact absurd hp hmain | cases hinstr
  rcases (canStep_iff hs _).mpr hblocked with ⟨l, s', rfl | ⟨w, rfl⟩, hstep⟩ | ⟨f, -, hinstr, hnone⟩
  · exact ⟨s', hstep⟩
  · have hstep : (program workload).step (.wake .main w) s = some s' := hstep
    cases Threads.turn_of_step hstep with
    | wake _ hinstr =>
        have hinstr : mainInstr (s.pc .main) = .signal _ _ := hinstr
        cases hp : s.pc .main <;> rw [hp] at hinstr <;> cases hinstr
  · have hinstr : mainInstr (s.pc .main) = .exec f := hinstr
    cases hp : s.pc .main <;> rw [hp] at hinstr <;> cases hinstr <;> cases hnone

/-- What main leaves as it was. -/
structure MainRan (s t : State) : Prop where
  others : ∀ u, u ≠ .main → t.pc u = s.pc u
  statsArray : t.shared.statsArray = s.shared.statsArray
  printed : t.shared.printed = s.shared.printed ∨ t.shared.printed = some s.shared.statsArray

theorem MainRan.trans {t u : State} (h₁ : MainRan s t) (h₂ : MainRan t u) : MainRan s u := by
  refine ⟨fun v hv => (h₂.others v hv).trans (h₁.others v hv), h₂.statsArray.trans h₁.statsArray,
    ?_⟩
  rw [← h₁.statsArray]
  rcases h₂.printed with h | h
  · rw [h, h₁.statsArray]
    exact h₁.printed
  · exact Or.inr h

theorem ended_of_printed (hs : (cfs workload).Reachable s) (hprinted : s.shared.printed ≠ none) :
    s.pc .scheduler = .exited ∧ s.pc .generator = .exited := by
  have hmain := (MainDone.reachable hs).printed.mp hprinted
  have hjoin := JoinInv.reachable hs
  have hwaited := WaitedInv.reachable hs
  refine ⟨hjoin.exited (hjoin.joined ?_), hwaited.exited (hwaited.joined ?_)⟩
  · intro h
    rw [h] at hmain
    exact hmain
  · cases hp : s.pc .main <;> rw [hp] at hmain <;> trivial

/-- **No schedule ends before main returns.** -/
theorem exited_of_stuck (h : Runnable workload) (hs : (cfs workload).Reachable s)
    (hstuck : ∀ l, Works l = true → (simulator workload).step l s = none) :
    s.pc .main = .exited := by
  by_contra hmain
  have hquiet : ∀ l, Works l = true → (cfs workload).step l s = none := by
    intro l hl
    rw [← hstuck l hl]
    exact (System.stopAt_step_of_not (by simpa using hmain) l).symm
  obtain ⟨hscheduler, hgenerator⟩ : s.pc .scheduler = .exited ∧ s.pc .generator = .exited := by
    by_cases hprinted : s.shared.printed = none
    · have hfinished := finished_of_quiet h hs hprinted fun l hl => hquiet l (works_of_othersWork hl)
      exact ⟨hfinished.scheduler, hfinished.generator⟩
    · exact ended_of_printed hs hprinted
  obtain ⟨s', hstep⟩ := exists_main_step hs hscheduler hgenerator hmain
  rw [hquiet _ rfl] at hstep
  cases hstep

end Termination

end Cs342.Cfs
