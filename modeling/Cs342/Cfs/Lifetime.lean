import Mathlib
import Cs342.Cfs.Wakeups
import Cs342.Cfs.Publishing

/-!
# A control block that has been freed

At its end a process destroys the mutex and the condition variable of its control block and frees
it. Its pcb is in no queue by then, and the scheduler, which calls only processes that are still
waiting, is done with it: nobody holds the mutex, nobody waits on the condition variable, no thread
is about to use either, and what the freed memory holds makes no difference to any run
(**`freed_pcb_untouched`**).
-/

namespace Cs342.Cfs

open Threads (Label LockInv)

/-- Somebody else has written over a control block. -/
def State.scribble (s : State) (k : Nat) (pcb : Pcb) : State :=
  s.mapShared fun shared => shared.setPcb k pcb

/-- The mutex or the condition variable that an instruction uses is the one of this pcb. -/
def UsesPcb {PC : Type} (k : Nat) : Instr PC → Prop
  | .lock m _ | .unlock m _ => m = .pcb k
  | .wait c m _ => c = .pcb k ∨ m = .pcb k
  | .signal c _ => c = .pcb k
  | _ => False

/-! ## What does not read the control block -/

section Reads

variable {pcbs : Nat → Pcb} {k : Nat} {pcb : Pcb} {rq : Runqueue}

theorem foldlM_of_notMem {nodes : List Nat} (h : k ∉ nodes)
    (f : Int → Pcb → Outcome Int) (total : Int) :
    nodes.foldlM (fun total node => f total (Function.update pcbs k pcb node)) total
      = nodes.foldlM (fun total node => f total (pcbs node)) total := by
  induction nodes generalizing total with
  | nil => rfl
  | cons node nodes ih =>
      obtain ⟨hne, hrest⟩ := not_or.mp (fun hmem => h (List.mem_cons.mpr hmem))
      rw [List.foldlM_cons, List.foldlM_cons, Function.update_of_ne (Ne.symm hne)]
      congr 1
      funext total
      exact ih hrest total

/-- The slice depends on the queued pcbs only. -/
theorem runqueueTimeslice_update (h : k ∉ rq.head) (priority : Int) :
    runqueueTimeslice (Function.update pcbs k pcb) rq priority
      = runqueueTimeslice pcbs rq priority := by
  unfold runqueueTimeslice
  rw [foldlM_of_notMem h fun total pcb => do
    let nodeWeight ← getWeight pcb.priority
    Scanf.toInt (total + nodeWeight)]

theorem foldl_smallerNode_update {nodes : List Nat} {minNode : Nat} (hmin : k ≠ minNode)
    (h : k ∉ nodes) : nodes.foldl (smallerNode (Function.update pcbs k pcb)) minNode
      = nodes.foldl (smallerNode pcbs) minNode := by
  induction nodes generalizing minNode with
  | nil => rfl
  | cons node nodes ih =>
      obtain ⟨hne, hrest⟩ := not_or.mp (fun hmem => h (List.mem_cons.mpr hmem))
      have hfirst : smallerNode (Function.update pcbs k pcb) minNode node
          = smallerNode pcbs minNode node := by
        unfold smallerNode
        rw [Function.update_of_ne (Ne.symm hmin), Function.update_of_ne (Ne.symm hne)]
      rw [List.foldl_cons, List.foldl_cons, hfirst]
      apply ih _ hrest
      unfold smallerNode
      split
      · exact hne
      · exact hmin

/-- So does the choice. -/
theorem runqueueSmallestPcb_update (h : k ∉ rq.head) :
    runqueueSmallestPcb (Function.update pcbs k pcb) rq = runqueueSmallestPcb pcbs rq := by
  unfold runqueueSmallestPcb
  cases hq : rq.head with
  | nil => rfl
  | cons head rest =>
      rw [hq] at h
      obtain ⟨hne, -⟩ := not_or.mp (fun hmem => h (List.mem_cons.mpr hmem))
      exact congrArg some (foldl_smallerNode_update hne h)

end Reads

section Commutes

variable {workload : Workload} {k : Nat} {pcb : Pcb} {shared : Shared}

theorem setPcb_comm {j : Nat} (hne : j ≠ k) (shared : Shared) (pcb pcb' : Pcb) :
    (shared.setPcb k pcb).setPcb j pcb' = (shared.setPcb j pcb').setPcb k pcb := by
  unfold Shared.setPcb
  rw [Function.update_comm hne]

theorem setPcb_pcbs_of_ne {j : Nat} (hne : j ≠ k) (shared : Shared) (pcb : Pcb) :
    (shared.setPcb k pcb).pcbs j = shared.pcbs j :=
  Function.update_of_ne hne _ _

theorem clippedTimeslice_update {j : Nat} (hne : j ≠ k) {pcbs : Nat → Pcb} {rq : Runqueue}
    (hnot : k ∉ rq.head) :
    clippedTimeslice (Function.update pcbs k pcb) rq j = clippedTimeslice pcbs rq j := by
  simp only [clippedTimeslice, getTimesliceForPcb, Function.update_of_ne hne,
    runqueueTimeslice_update hnot]

theorem updatePcbTimings_update {j : Nat} (hne : j ≠ k) (pcbs : Nat → Pcb) (cpuTime : Int) :
    updatePcbTimings (Function.update pcbs k pcb) j cpuTime
      = updatePcbTimings pcbs j cpuTime >>= fun pcbs => .ok (Function.update pcbs k pcb) := by
  unfold updatePcbTimings
  rw [Function.update_of_ne hne, bind_assoc]
  congr 1
  funext vruntime
  rw [Outcome.pure_eq, Outcome.pure_eq, Outcome.ok_bind, Function.update_comm hne]

/-- A slice of another process. -/
theorem runSlice_setPcb {j : Nat} (hne : j ≠ k)
    (hqueue : ∀ rq, shared.rq = some rq → k ∉ rq.head) :
    (runSlice j (shared.setPcb k pcb)).toOption
      = (runSlice j shared).toOption.map fun shared => shared.setPcb k pcb := by
  have hrq : (shared.setPcb k pcb).rq = shared.rq := rfl
  have hpcbs : (shared.setPcb k pcb).pcbs = Function.update shared.pcbs k pcb := rfl
  unfold runSlice
  rw [hrq]
  cases hqueued : shared.rq with
  | none => rfl
  | some rq =>
      have hnot : k ∉ (runqueueRemovePcb rq j).head :=
        fun hmem => hqueue rq hqueued (List.mem_of_mem_erase hmem)
      simp only [Outcome.ofOption_some, Outcome.ok_bind, hpcbs, clippedTimeslice_update hne hnot,
        updatePcbTimings_update hne]
      cases clippedTimeslice shared.pcbs (runqueueRemovePcb rq j) j with
      | exit code message => rfl
      | undefined => rfl
      | ok cpuTime =>
          simp only [Outcome.ok_bind]
          cases updatePcbTimings shared.pcbs j cpuTime <;> rfl

theorem sendProcessStats_setPcb (stats : ProcessStatistics) :
    sendProcessStats stats (shared.setPcb k pcb)
      = (sendProcessStats stats shared).map fun shared => shared.setPcb k pcb := by
  unfold sendProcessStats
  rw [Option.map_if]
  rfl

/-- The instruction does the same, whatever the control block holds. -/
def Commutes {PC : Type} (k : Nat) (pcb : Pcb) (shared : Shared) (instr : Instr PC) : Prop :=
  instr.advance (shared.setPcb k pcb)
    = (instr.advance shared).map fun r => (r.1.setPcb k pcb, r.2)

theorem process_commutes {j : Nat} (hne : j ≠ k)
    (hqueue : ∀ rq, shared.rq = some rq → k ∉ rq.head) (p : ProcessPC) :
    Commutes k pcb shared (processInstr j p) := by
  have hread := setPcb_pcbs_of_ne hne shared pcb
  have hfreed : (shared.setPcb k pcb).argumentsFreed = shared.argumentsFreed := rfl
  unfold Commutes
  cases p with
  | notCreated =>
      simp only [processInstr, Threads.Instr.advance]
      rw [Option.map_if]
      rfl
  | arrival | sleep | departure =>
      simp only [processInstr, Threads.Instr.advance, hfreed]
      split <;> rfl
  | whileLength =>
      simp only [processInstr, Threads.Instr.advance, hread, hfreed]
      split
      · split <;> rfl
      · rfl
  | add =>
      simp only [processInstr, Threads.Instr.advance]
      have hrq : (shared.setPcb k pcb).rq = shared.rq := rfl
      rw [hrq]
      cases shared.rq <;> rfl
  | clearWaiting =>
      have hflag : (shared.setPcb k pcb).haveRunningProcess = shared.haveRunningProcess := rfl
      simp only [processInstr, Threads.Instr.advance, Option.map_some, hflag]
      split <;> rfl
  | whileReady => simp only [processInstr, Threads.Instr.advance, hread, Option.map_some]
  | run =>
      simp only [processInstr, Threads.Instr.advance, runSlice_setPcb hne hqueue, Option.map_map]
      rfl
  | setReady =>
      simp only [processInstr, Threads.Instr.advance, Option.map_some, Shared.setState, hread,
        setPcb_comm hne]
  | testLength => simp only [processInstr, Threads.Instr.advance, hread, Option.map_some]
  | sendStats departureTime =>
      have hlocals : (shared.setPcb k pcb).locals = shared.locals := rfl
      have hstats : (shared.setPcb k pcb).statsFreed = shared.statsFreed := rfl
      simp only [processInstr, Threads.Instr.advance, hread, hlocals, hstats,
        sendProcessStats_setPcb, Option.map_map]
      split
      · rfl
      · rw [Option.map_map]
        rfl
  | _ => rfl

theorem scheduler_commutes (hqueue : ∀ rq, shared.rq = some rq → k ∉ rq.head)
    {p : SchedulerPC} (hp : p ≠ .setRunning k) :
    Commutes k pcb shared (schedulerInstr workload p) := by
  unfold Commutes
  cases p with
  | select =>
      simp only [schedulerInstr, Threads.Instr.advance]
      have hrq : (shared.setPcb k pcb).rq = shared.rq := rfl
      have hpcbs : (shared.setPcb k pcb).pcbs = Function.update shared.pcbs k pcb := rfl
      rw [hrq, hpcbs]
      cases hqueued : shared.rq with
      | none => rfl
      | some rq =>
          simp only [runqueueSmallestPcb_update (hqueue rq hqueued)]
          rfl
  | unlockRq selected => cases selected <;> rfl
  | setRunning j =>
      have hne : j ≠ k := by
        rintro rfl
        exact hp rfl
      simp only [schedulerInstr, Threads.Instr.advance, Option.map_some, Shared.setState,
        setPcb_pcbs_of_ne hne, setPcb_comm hne]
  | _ => rfl

theorem generator_commutes (hk : k < shared.created) (p : GeneratorPC) :
    Commutes k pcb shared (generatorInstr workload p) := by
  unfold Commutes
  cases p with
  | whileNext =>
      simp only [generatorInstr, Threads.Instr.advance]
      have hcreated : (shared.setPcb k pcb).created = shared.created := rfl
      rw [hcreated]
      cases workload.processes[shared.created]? <;> rfl
  | create params =>
      have hne : shared.created ≠ k := by omega
      have hcreated : (shared.setPcb k pcb).created = shared.created := rfl
      simp only [generatorInstr, Threads.Instr.advance, Option.map_some, hcreated,
        setPcb_comm hne]
      rfl
  | _ => rfl

theorem main_commutes (p : MainPC) : Commutes k pcb shared (mainInstr p) := by
  unfold Commutes
  cases p with
  | joinScheduler =>
      simp only [mainInstr, Threads.Instr.advance]
      rw [Option.map_if]
      rfl
  | joinGenerator =>
      simp only [mainInstr, Threads.Instr.advance]
      rw [Option.map_if]
      rfl
  | _ => rfl

end Commutes

/-! ## The end of a process -/

section Freed

variable {workload : Workload} {s s' : State} {l : Label Thread} {k : Nat}

/-- At its end a process is queued nowhere. -/
theorem notMem_of_finished (hinv : Inv workload s) (hfinished : (s.pc (.process k)).Finished) :
    ∀ rq, s.shared.rq = some rq → k ∉ rq.head := by
  intro rq hrq hmem
  have hqueued := ((hinv.queue hrq).2 k).mp hmem
  cases hp : s.pc (.process k) <;> rw [hp] at hfinished hqueued <;>
    first | exact hfinished | exact hqueued

theorem phase_of_finished (hfinished : (s.pc (.process k)).Finished) :
    (cpuOf s).phase k = .outside := by
  show processPhase (s.pc (.process k)) = .outside
  cases hp : s.pc (.process k) <;> rw [hp] at hfinished <;> first | rfl | exact absurd hfinished id

/-- The scheduler deals with processes that have not ended. -/
theorem not_chosen_of_finished (hinv : WakeInv workload s)
    (hfinished : (s.pc (.process k)).Finished) :
    schedulerGrant (s.pc .scheduler) ≠ .chosen k ∧ schedulerGrant (s.pc .scheduler) ≠ .granted k := by
  have hphase := phase_of_finished hfinished
  constructor
  · intro h
    have := (hinv.inv.cpu.chosen k h).1
    rw [hphase] at this
    cases this
  · intro h
    rcases hinv.occupied.granted k h with hcalled | huses
    · have := hinv.inv.cpu.called_phase k hcalled
      rw [hphase] at this
      rcases this with h | h | h <;> cases h
    · rw [hphase] at huses
      rcases huses with h | h | h <;> cases h

/-- **Nobody has the mutex of a process that has ended, or waits for its condition variable.** -/
theorem pcb_free_of_finished (hinv : WakeInv workload s)
    (hfinished : (s.pc (.process k)).Finished) :
    s.owner (.pcb k) = none ∧ s.waiters (.pcb k) = [] := by
  have hnone : processHeld k (s.pc (.process k)) = [] := by
    cases hp : s.pc (.process k) <;> rw [hp] at hfinished <;>
      first | rfl | exact absurd hfinished id
  constructor
  · by_contra howner
    obtain ⟨t, ht⟩ := Option.ne_none_iff_exists'.mp howner
    have hheld := ((hinv.inv.locks.owner_iff t (.pcb k)).mp ht).1
    cases t with
    | process j =>
        have hheld : .pcb k ∈ processHeld j (s.pc (.process j)) := hheld
        have hj : j = k := by
          cases hp : s.pc (.process j) <;> rw [hp] at hheld <;> simp [processHeld] at hheld <;>
            exact hheld.symm
        subst hj
        rw [hnone] at hheld
        cases hheld
    | scheduler =>
        have hheld : .pcb k ∈ schedulerHeld (s.pc .scheduler) := hheld
        obtain ⟨hchosen, hgranted⟩ := not_chosen_of_finished hinv hfinished
        cases hp : s.pc .scheduler <;> rw [hp] at hheld hchosen hgranted <;>
          simp [schedulerHeld] at hheld <;> subst hheld <;>
          first | exact hchosen rfl | exact hgranted rfl
    | generator =>
        have hheld : .pcb k ∈ generatorHeld (s.pc .generator) := hheld
        cases hp : s.pc .generator <;> rw [hp] at hheld <;> simp [generatorHeld] at hheld
    | main => exact absurd hheld List.not_mem_nil
    | clock => exact absurd hheld List.not_mem_nil
  · by_contra hwaiters
    obtain ⟨t, ht⟩ := List.exists_mem_of_ne_nil _ hwaiters
    obtain ⟨m, hasleep⟩ := (hinv.waits.mem_iff _ t).mp ht
    obtain ⟨p, hwait⟩ := hinv.waits.waited t _ m hasleep
    cases t with
    | process j =>
        have hwait : processInstr j p = .wait (.pcb k) m (s.pc (.process j)) := hwait
        have hcond := cond_of_process_wait hwait
        cases hcond
        rw [next_of_process_wait hwait] at hfinished
        exact hfinished
    | scheduler =>
        have hcond := (cond_of_scheduler_wait hwait).2.1
        cases hcond
    | generator =>
        have hwait : generatorInstr workload p = .wait (.pcb k) m (s.pc .generator) := hwait
        cases p <;> cases hwait
    | main =>
        have hwait : mainInstr p = .wait (.pcb k) m (s.pc .main) := hwait
        cases p <;> cases hwait
    | clock => cases hwait

/-- **No thread is about to use them.** -/
theorem not_usesPcb_of_finished (hinv : WakeInv workload s)
    (hfinished : (s.pc (.process k)).Finished) (t : Thread) :
    ¬ UsesPcb k ((program workload).instr t (s.pc t)) := by
  cases t with
  | process j =>
      show ¬ UsesPcb k (processInstr j (s.pc (.process j)))
      by_cases hj : j = k
      · subst hj
        cases hp : s.pc (.process j) <;> rw [hp] at hfinished <;>
          first | exact absurd hfinished id | exact id
      · cases hp : s.pc (.process j) <;> simp [processInstr, UsesPcb, hj]
  | scheduler =>
      show ¬ UsesPcb k (schedulerInstr workload (s.pc .scheduler))
      obtain ⟨hchosen, hgranted⟩ := not_chosen_of_finished hinv hfinished
      cases hp : s.pc .scheduler with
      | unlockRq pcb => cases pcb <;> simp [schedulerInstr, UsesPcb]
      | lockPcb pcb =>
          rw [hp] at hchosen
          simpa [schedulerInstr, UsesPcb, schedulerGrant] using hchosen
      | signalPcb pcb =>
          rw [hp] at hgranted
          simpa [schedulerInstr, UsesPcb, schedulerGrant] using hgranted
      | unlockPcb pcb =>
          rw [hp] at hgranted
          simpa [schedulerInstr, UsesPcb, schedulerGrant] using hgranted
      | _ => simp [schedulerInstr, UsesPcb]
  | generator =>
      show ¬ UsesPcb k (generatorInstr workload (s.pc .generator))
      cases s.pc .generator <;> simp [generatorInstr, UsesPcb]
  | main =>
      show ¬ UsesPcb k (mainInstr (s.pc .main))
      cases s.pc .main <;> simp [mainInstr, UsesPcb]
  | clock => exact id

/-- **What a freed control block holds makes no difference to a step.** -/
theorem step_scribble (hs : (cfs workload).Reachable s) (hexited : s.pc (.process k) = .exited)
    (pcb : Pcb) (l : Label Thread) : (cfs workload).step l (s.scribble k pcb)
      = ((cfs workload).step l s).map fun s' => s'.scribble k pcb := by
  have hinv := WakeInv.reachable hs
  have hfinished : (s.pc (.process k)).Finished := by
    rw [hexited]
    trivial
  have hqueue := notMem_of_finished hinv.inv hfinished
  apply Threads.step_mapShared
  intro t _
  cases t with
  | process j =>
      by_cases hj : j = k
      · subst hj
        have hhalt : (program workload).instr (.process j) (s.pc (.process j)) = .halt := by
          rw [hexited]
          rfl
        rw [hhalt]
        rfl
      · exact process_commutes hj hqueue _
  | scheduler =>
      apply scheduler_commutes hqueue
      intro hp
      apply (not_chosen_of_finished hinv hfinished).1
      rw [hp]
      rfl
  | generator =>
      apply generator_commutes
      by_contra hge
      have hfresh := hinv.inv.places.fresh k (not_lt.mp hge)
      rw [hexited] at hfresh
      cases hfresh
  | main => exact main_commutes _
  | clock => rfl

end Freed

/-- **A freed control block is left alone.** Whenever a process has come to its end, in any
interleaving, nobody holds its mutex, nobody waits on its condition variable and no thread is about
to use either; and once it has freed its control block, no run reads what is there or writes it. -/
theorem freed_pcb_untouched (workload : Workload) (s : State) (hs : (cfs workload).Reachable s)
    (k : Nat) (hfinished : (s.pc (.process k)).Finished) :
    (s.owner (.pcb k) = none ∧ s.waiters (.pcb k) = []) ∧
    (∀ t, ¬ UsesPcb k ((program workload).instr t (s.pc t))) ∧
    (s.pc (.process k) = .exited → ∀ pcb ls, (cfs workload).run ls (s.scribble k pcb)
      = ((cfs workload).run ls s).map fun s' => s'.scribble k pcb) := by
  have hinv := WakeInv.reachable hs
  refine ⟨pcb_free_of_finished hinv hfinished, not_usesPcb_of_finished hinv hfinished,
    fun hexited pcb ls => ?_⟩
  refine System.run_map (P := fun s => (cfs workload).Reachable s ∧ s.pc (.process k) = .exited)
    ?_ (fun s l h => step_scribble h.1 h.2 pcb l) ⟨hs, hexited⟩
  rintro s l s' ⟨hs, hexited⟩ hstep
  exact ⟨hs.step hstep, exited_stays_process hexited hstep⟩

/-- The only process runs its slice and ends. -/
def endedRun : List (Label Thread) :=
  turns .scheduler 5 ++ turns .generator 2 ++ turns (.process 0) 8 ++
  [.wake (.process 0) .scheduler] ++ turns (.process 0) 1 ++ turns .scheduler 10 ++
  turns (.process 0) 11 ++ turns .scheduler 1 ++ turns (.process 0) 8

theorem endedRun_exits : ((cfs oneProcess).run endedRun (cfs oneProcess).init).map
    (fun s => s.pc (.process 0)) = some .exited := by decide +kernel

theorem freed_pcb_untouched_endedRun : ∃ s, (cfs oneProcess).Reachable s ∧
    s.pc (.process 0) = .exited ∧ s.owner (.pcb 0) = none ∧
    ∀ pcb ls, (cfs oneProcess).run ls (s.scribble 0 pcb)
      = ((cfs oneProcess).run ls s).map fun s' => s'.scribble 0 pcb := by
  obtain ⟨s, hs, hexited⟩ := Option.map_eq_some_iff.mp endedRun_exits
  obtain ⟨hfree, -, huntouched⟩ :=
    freed_pcb_untouched oneProcess s ⟨_, hs⟩ 0 (by rw [hexited]; trivial)
  exact ⟨s, ⟨_, hs⟩, hexited, hfree.1, huntouched hexited⟩

end Cs342.Cfs
