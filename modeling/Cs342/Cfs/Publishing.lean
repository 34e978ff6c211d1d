import Mathlib
import Cs342.Cfs.Accounting

/-!
# The results that are printed

A process stores its statistics at the end of its thread, after the scheduler has been told that
there is one process less. Main waits for the scheduler and the generator only, so it can print
while a process stands between the two (`not_published_oneProcess`). Nothing else can go wrong: all
processes have been counted by then, and each one writes its own slot, so what is printed is
complete if none of them stands there (**`published_iff`**).
-/

namespace Cs342.Cfs

open Threads (Label)

/-- The step in which a process stores its statistics. -/
def Sends (k : Nat) (stats : ProcessStatistics) (s s' : State) : Prop :=
  s'.pc (.process k) = .exited ∧ ∃ departureTime, s.pc (.process k) = .sendStats departureTime ∧
    stats = processStatistics (s.shared.pcbs k) (s.shared.locals k) departureTime

/-- In the run, the process has stored these statistics. -/
def Sent (workload : Workload) (ls : List (Label Thread)) (k : Nat) (stats : ProcessStatistics) :
    Prop :=
  ∃ before l after s s', ls = before ++ l :: after ∧
    (cfs workload).run before (cfs workload).init = some s ∧
    (cfs workload).step l s = some s' ∧ Sends k stats s s'

/-- Every slot holds what the process with the pid after its index has stored. -/
def Published (workload : Workload) (ls : List (Label Thread))
    (statsArray : List (Option ProcessStatistics)) : Prop :=
  (statsArray.length : Int) = workload.totalProcessCount ∧
    ∀ k : Nat, (k : Int) < workload.totalProcessCount → ∃ stats, Sent workload ls k stats ∧
      stats.pid = k + 1 ∧ statsArray[k]? = some (some stats)

/-- The process has called `notify_process_termination` and has not stored its statistics yet. -/
def InTail (s : State) (k : Nat) : Prop := Notified s k ∧ s.pc (.process k) ≠ .exited

section Publishing

variable {workload : Workload} {s s' : State} {l : Label Thread}

/-! ## The slots -/

/-- The pids count from 1. -/
theorem CreationInv.pid_eq (hinv : CreationInv workload s) {k : Nat} (hk : k < s.shared.created) :
    (s.shared.pcbs k).pid = k + 1 := by
  obtain ⟨params, -, hidentity⟩ := hinv.pcb k hk
  exact congrArg Prod.fst hidentity

/-- The results of the process with pid `j + 1` go to slot `j`, which is there. -/
theorem sendProcessStats_slots {stats : ProcessStatistics} {shared shared' : Shared} {j : Nat}
    (hpid : stats.pid = j + 1) (h : sendProcessStats stats shared = some shared') :
    j < shared.statsArray.length ∧ shared'.statsArray = shared.statsArray.set j (some stats) := by
  unfold sendProcessStats at h
  rw [hpid] at h
  split at h
  · next hbounds =>
      refine ⟨by omega, ?_⟩
      rw [← Option.some.inj h]
      simp
  · cases h

/-- A process writes its own slot, and nobody else does. -/
theorem sends_or_same (hcreation : CreationInv workload s) (hplaces : PlaceInv s)
    (hstep : (cfs workload).step l s = some s') (k : Nat) :
    (∃ stats, Sends k stats s s' ∧ stats.pid = k + 1 ∧
      s'.shared.statsArray[k]? = some (some stats)) ∨
    ((s'.pc (.process k) = .exited → s.pc (.process k) = .exited) ∧
      s'.shared.statsArray[k]? = s.shared.statsArray[k]?) := by
  cases scheduleStep_of_step hstep with
  | process j next hadvance hself hother =>
      have heffect := process_effect hadvance
      rcases heffect.stats with ⟨departureTime, hp, hnext, hsend⟩ | ⟨hnext, hsame⟩
      · have hcreated : j < s.shared.created := by
          by_contra h
          rw [hplaces.fresh j (not_lt.mp h)] at hp
          cases hp
        have hslots := sendProcessStats_slots (hcreation.pid_eq hcreated) hsend
        by_cases h : k = j
        · subst h
          left
          refine ⟨_, ⟨by rw [hself, hnext], departureTime, hp, rfl⟩, hcreation.pid_eq hcreated, ?_⟩
          rw [hslots.2, List.getElem?_set_self hslots.1]
        · right
          rw [hother _ (by simpa using h), hslots.2, List.getElem?_set_ne (Ne.symm h)]
          exact ⟨id, rfl⟩
      · right
        rw [hsame]
        refine ⟨fun hexited => ?_, rfl⟩
        by_cases h : k = j
        · subst h
          rw [hself] at hexited
          exact absurd hexited hnext
        · rwa [hother _ (by simpa using h)] at hexited
  | scheduler next hadvance _ hother =>
      right
      rw [hother _ (by simp), (scheduler_effect hadvance).stats]
      exact ⟨id, rfl⟩
  | same hsame _ hprocess =>
      right
      rw [hprocess, hsame.results.1]
      exact ⟨id, rfl⟩

/-- Later steps do not take back what has been stored. -/
theorem Sent.append {ls : List (Label Thread)} {k : Nat} {stats : ProcessStatistics}
    (h : Sent workload ls k stats) (l : Label Thread) : Sent workload (ls ++ [l]) k stats := by
  obtain ⟨before, m, after, u, v, rfl, hrun, hstep, hsends⟩ := h
  exact ⟨before, m, after ++ [l], u, v, by simp, hrun, hstep, hsends⟩

theorem Sent.of_sends {ls : List (Label Thread)} {k : Nat} {stats : ProcessStatistics}
    (hrun : (cfs workload).run ls (cfs workload).init = some s)
    (hstep : (cfs workload).step l s = some s') (h : Sends k stats s s') :
    Sent workload (ls ++ [l]) k stats :=
  ⟨ls, l, [], s, s', rfl, hrun, hstep, h⟩

/-- **A process that has ended has its statistics in its slot**, by induction on the run. -/
theorem slot_of_exited {ls : List (Label Thread)}
    (hrun : (cfs workload).run ls (cfs workload).init = some s) {k : Nat}
    (hexited : s.pc (.process k) = .exited) :
    ∃ stats, Sent workload ls k stats ∧ stats.pid = k + 1 ∧
      s.shared.statsArray[k]? = some (some stats) := by
  refine System.history_induction (S := cfs workload)
    (P := fun ls s => s.pc (.process k) = .exited → ∃ stats, Sent workload ls k stats ∧
      stats.pid = k + 1 ∧ s.shared.statsArray[k]? = some (some stats)) ?_ ?_ hrun hexited
  · intro h
    cases h
  · intro ls s l s' hrun ih hstep hexited
    have hs : (cfs workload).Reachable s := ⟨ls, hrun⟩
    rcases sends_or_same (CreationInv.reachable hs) (PlaceInv.reachable hs) hstep k with
      ⟨stats, hsends, hpid, hslot⟩ | hsame
    · exact ⟨stats, Sent.of_sends hrun hstep hsends, hpid, hslot⟩
    · obtain ⟨hbefore, hslot⟩ := hsame
      obtain ⟨stats, hsent, hpid, hstored⟩ := ih (hbefore hexited)
      exact ⟨stats, hsent.append l, hpid, by rw [hslot]; exact hstored⟩

/-- A process that has ended stays so. -/
theorem exited_stays_process {k : Nat} (hexited : s.pc (.process k) = .exited)
    (hstep : (cfs workload).step l s = some s') : s'.pc (.process k) = .exited := by
  have hhalt : (program workload).instr (.process k) (s.pc (.process k)) = .halt :=
    congrArg (processInstr k) hexited
  exact (Threads.pc_of_halt hstep hhalt).trans hexited

/-- A process that has stored its statistics stays ended. -/
theorem exited_of_sent {ls : List (Label Thread)}
    (hrun : (cfs workload).run ls (cfs workload).init = some s) {k : Nat}
    {stats : ProcessStatistics} (hsent : Sent workload ls k stats) :
    s.pc (.process k) = .exited := by
  obtain ⟨before, l, after, u, v, rfl, hu, hv, hsends⟩ := hsent
  rw [System.run_append, hu, Option.bind_some, System.run_cons hv] at hrun
  exact System.run_induction (P := fun s => s.pc (.process k) = .exited)
    (fun s l s' hexited hstep => exited_stays_process hexited hstep) hsends.1 hrun

/-- Main has waited for the scheduler, and no slot comes or goes. -/
structure JoinInv (workload : Workload) (s : State) : Prop where
  joined : s.pc .main ≠ .joinScheduler → s.shared.schedulerExited = true
  exited : s.shared.schedulerExited = true → s.pc .scheduler = .exited
  slots : s.shared.statsArray.length = workload.totalProcessCount.toNat

theorem main_joined {shared shared' : Shared} {p next : MainPC}
    (h : (mainInstr p).advance shared = some (shared', next)) :
    next ≠ .joinScheduler ∧ (p = .joinScheduler → shared.schedulerExited = true) := by
  cases p with
  | joinScheduler =>
      simp only [mainInstr, Threads.Instr.advance] at h
      split at h
      · next hexited => cases h; exact ⟨by simp, fun _ => hexited⟩
      · cases h
  | joinGenerator =>
      simp only [mainInstr, Threads.Instr.advance] at h
      split at h <;> cases h
      exact ⟨by simp, by simp⟩
  | exited => cases h
  | _ => cases h; exact ⟨by simp, by simp⟩

theorem sendProcessStats_length {stats : ProcessStatistics} {shared shared' : Shared}
    (h : sendProcessStats stats shared = some shared') :
    shared'.statsArray.length = shared.statsArray.length := by
  unfold sendProcessStats at h
  split at h <;> cases h
  exact List.length_set

theorem JoinInv.step (hinv : JoinInv workload s) (hstep : (cfs workload).step l s = some s') :
    JoinInv workload s' := by
  -- what all threads but the scheduler and main have in common
  have hframe : s'.pc .main = s.pc .main → s'.pc .scheduler = s.pc .scheduler →
      s'.shared.schedulerExited = s.shared.schedulerExited →
      s'.shared.statsArray.length = s.shared.statsArray.length → JoinInv workload s' := by
    intro hmain hscheduler hexited hlength
    refine ⟨?_, ?_, by rw [hlength]; exact hinv.slots⟩
    · rw [hmain, hexited]
      exact hinv.joined
    · rw [hscheduler, hexited]
      exact hinv.exited
  rcases Threads.step_advance hstep with ⟨hshared, hpc⟩ | ⟨t, next, -, hadvance, hpc⟩
  · exact hframe (by rw [hpc]) (by rw [hpc]) (by rw [hshared]) (by rw [hshared])
  · have hother : ∀ u, u ≠ t → s'.pc u = s.pc u := by
      intro u hu
      rw [hpc, Function.update_of_ne hu]
    cases t with
    | process k =>
        have heffect := process_effect hadvance
        refine hframe (hother _ (by simp)) (hother _ (by simp)) heffect.schedulerExited ?_
        rcases heffect.stats with ⟨departureTime, -, -, hsend⟩ | ⟨-, hsame⟩
        · exact sendProcessStats_length hsend
        · rw [hsame]
    | scheduler =>
        have heffect := scheduler_effect hadvance
        -- a scheduler that takes a step has not ended, so main still waits for it
        have hnot : s.shared.schedulerExited ≠ true := fun h => heffect.alive (hinv.exited h)
        have hwaits : s.pc .main = .joinScheduler := by
          by_contra h
          exact hnot (hinv.joined h)
        refine ⟨fun h => absurd ?_ h, fun h => ?_, by rw [heffect.stats]; exact hinv.slots⟩
        · rw [hother _ (by simp)]
          exact hwaits
        · rw [hpc, Function.update_self]
          exact (heffect.exited h).resolve_left hnot
    | generator =>
        have hresults := (generator_effect hadvance).results
        exact hframe (hother _ (by simp)) (hother _ (by simp)) hresults.2 (by rw [hresults.1])
    | main =>
        obtain ⟨hnext, hjoins⟩ := main_joined hadvance
        obtain ⟨printed, statsFreed, argumentsFreed, hshared⟩ := main_frame hadvance
        refine ⟨fun _ => ?_, ?_, by rw [hshared]; exact hinv.slots⟩
        · rw [hshared]
          by_cases h : s.pc .main = .joinScheduler
          · exact hjoins h
          · exact hinv.joined h
        · rw [hother _ (by simp), hshared]
          exact hinv.exited
    | clock =>
        have hshared := clock_frame (p := s.pc .clock) hadvance
        exact hframe (hother _ (by simp)) (hother _ (by simp)) (by rw [hshared]) (by rw [hshared])

theorem JoinInv.reachable (hs : (cfs workload).Reachable s) : JoinInv workload s := by
  apply hs.invariant
  · refine ⟨fun h => absurd rfl h, ?_, List.length_replicate⟩
    intro h
    cases h
  · exact fun s l s' hinv hstep => hinv.step hstep

/-- Main prints what is in the slots. -/
theorem printed_eq (hlocks : Threads.LockInv (program workload) (fun t p m => m ∈ held t p) s)
    (hprint : s.pc .main = .printTable) (hstep : (cfs workload).step (.run .main) s = some s') :
    s'.shared.printed = some s.shared.statsArray := by
  have hmode : s.mode .main = .running := running_of_never_waits hlocks (by simp) (by simp)
  have hinstr : (program workload).instr .main (s.pc .main) = mainInstr .printTable := by
    rw [hprint]
    rfl
  have hnext := (Threads.step_exec hmode hinstr rfl).symm.trans hstep
  cases hnext
  rfl

end Publishing

/-- **What main prints is complete exactly if no process is in its tail**, in every run. -/
theorem published_iff (workload : Workload)
    (htotal : workload.totalProcessCount = workload.processes.length) (ls : List (Label Thread))
    (s s' : State) (hrun : (cfs workload).run ls (cfs workload).init = some s)
    (hprint : s.pc .main = .printTable) (hstep : (cfs workload).step (.run .main) s = some s') :
    ∃ statsArray, s'.shared.printed = some statsArray ∧
      (Published workload ls statsArray ↔ ∀ k, ¬ InTail s k) := by
  have hs : (cfs workload).Reachable s := ⟨ls, hrun⟩
  have hinv : AccountInv workload s := AccountInv.reachable hs
  have hjoin := JoinInv.reachable hs
  have hexited : s.pc .scheduler = .exited := hjoin.exited (hjoin.joined (by rw [hprint]; simp))
  have hnotified := notified_of_shutDown htotal hs (by rw [hexited]; trivial)
  refine ⟨s.shared.statsArray, printed_eq hinv.inv.locks hprint hstep, ?_, ?_⟩
  · rintro ⟨-, hslots⟩ k ⟨htail, hrunning⟩
    have hlt : k < workload.processes.length := by
      refine lt_of_lt_of_le ?_ hinv.creation.created_le
      by_contra h
      unfold Notified at htail
      rw [hinv.inv.places.fresh k (not_lt.mp h)] at htail
      exact htail
    obtain ⟨stats, hsent, -⟩ := hslots k (by omega)
    exact hrunning (exited_of_sent hrun hsent)
  · -- everybody has been counted, so nobody but those in the tail is missing
    intro hnone
    refine ⟨by rw [hjoin.slots]; omega, fun k hk => ?_⟩
    apply slot_of_exited hrun
    by_contra h
    exact hnone k ⟨hnotified k (by omega), h⟩

/-! ## A process that is late -/

def oneProcess : Workload where
  processes := [{ length := 10, priority := 0, interarrivalTime := 0 }]
  totalProcessCount := 1
  maxRunqueueLength := 10

/-- The process runs its slice and is counted, while the scheduler is still inside of its loop. -/
def countedRun : List (Label Thread) :=
  turns .scheduler 5 ++ turns .generator 2 ++
  turns (.process 0) 8 ++ [.wake (.process 0) .scheduler] ++ turns (.process 0) 1 ++
  turns .scheduler 10 ++ turns (.process 0) 11

/-- The scheduler and the generator end, and main gets to `print_table`. -/
def lateRun : List (Label Thread) :=
  countedRun ++ turns .scheduler 5 ++ turns .generator 6 ++ turns .main 2

theorem lateRun_prints : ∃ s s', (cfs oneProcess).run lateRun (cfs oneProcess).init = some s ∧
    s.pc .main = .printTable ∧ (cfs oneProcess).step (.run .main) s = some s' ∧
    s'.shared.printed = some [none] := by
  have hbefore : ((cfs oneProcess).run lateRun (cfs oneProcess).init).map (fun s => s.pc .main)
      = some .printTable := by decide +kernel
  have hafter : ((cfs oneProcess).run (lateRun ++ [.run .main]) (cfs oneProcess).init).map
      (fun s => s.shared.printed) = some (some [none]) := by decide +kernel
  obtain ⟨s, hs, hprint⟩ := Option.map_eq_some_iff.mp hbefore
  obtain ⟨s', hs', hprinted⟩ := Option.map_eq_some_iff.mp hafter
  rw [System.run_append, hs, Option.bind_some, System.run_singleton] at hs'
  exact ⟨s, s', hs, hprint, hs', hprinted⟩

theorem published_iff_oneProcess : ∃ s s',
    (cfs oneProcess).run lateRun (cfs oneProcess).init = some s ∧
    (cfs oneProcess).step (.run .main) s = some s' ∧
    ∃ statsArray, s'.shared.printed = some statsArray ∧
      (Published oneProcess lateRun statsArray ↔ ∀ k, ¬ InTail s k) := by
  obtain ⟨s, s', hrun, hprint, hstep, -⟩ := lateRun_prints
  exact ⟨s, s', hrun, hstep, published_iff oneProcess rfl lateRun s s' hrun hprint hstep⟩

/-- A slot is printed that nobody has written. -/
theorem not_published_oneProcess : ¬ ∀ ls s s',
    (cfs oneProcess).run ls (cfs oneProcess).init = some s → s.pc .main = .printTable →
    (cfs oneProcess).step (.run .main) s = some s' →
    ∃ statsArray, s'.shared.printed = some statsArray ∧ Published oneProcess ls statsArray := by
  intro h
  obtain ⟨s, s', hrun, hprint, hstep, hprinted⟩ := lateRun_prints
  obtain ⟨statsArray, heq, -, hslots⟩ := h lateRun s s' hrun hprint hstep
  obtain ⟨stats, -, -, hslot⟩ := hslots 0 (by decide)
  rw [hprinted] at heq
  cases heq
  cases hslot

end Cs342.Cfs
