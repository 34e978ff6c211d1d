import Mathlib
import Cs342.Cfs.OneCpu
import Cs342.Cfs.Creation

/-!
# Wake-ups

Why no signal is missed. A sleeping scheduler has found one of its flags set, and whoever clears a
flag goes on to signal (`WakeInv.schedulerAsleep`). While the scheduler waits for a new process, the
processes in the queue have not called `signal_scheduler_new_process` yet (`WakeInv.announced`): the
queue was empty when it was looked at, and the mutex has kept later ones from announcing themselves.
A sleeping process has not been called, or the signal for it is next (`WakeInv.processAsleep`).
-/

namespace Cs342.Cfs

open Threads (LockInv WaitInv Label)

/-- In the queue, and not yet past the flag in `signal_scheduler_new_process`. -/
def ProcessPC.Announcing : ProcessPC → Prop
  | .unlockRqAdd | .lockNew | .clearWaiting => True
  | _ => False

/-- The scheduler waits for a new process, or is about to. -/
def Announced (s : State) : Prop :=
  s.shared.waitingForNewProcess = true ∨ s.pc .scheduler = .unlockRq none ∨
    s.pc .scheduler = .setWaiting

structure WakeInv (workload : Workload) (s : State) : Prop where
  inv : Inv workload s
  waits : WaitInv (program workload) s
  occupied : (cpuOf s).Occupied
  schedulerWaits : s.pc .scheduler = .waitNeedScheduling →
    s.shared.haveRunningProcess = true ∨ s.shared.waitingForNewProcess = true
  schedulerAsleep : ∀ c m, s.mode .scheduler = .sleeping c m →
    s.shared.haveRunningProcess = true ∨ s.shared.waitingForNewProcess = true ∨
      ∃ k, s.pc (.process k) = .signalNew ∨ s.pc (.process k) = .signalTerminated
  announced : Announced s → ∀ k, (s.pc (.process k)).Queued → (s.pc (.process k)).Announcing
  processWaits : ∀ k, s.pc (.process k) = .waitPcb → (s.shared.pcbs k).state = .ready
  processAsleep : ∀ k c m, s.mode (.process k) = .sleeping c m →
    (s.shared.pcbs k).state = .ready ∨ s.pc .scheduler = .signalPcb k

/-! ## The flags and the calls -/

/-- What a step of the scheduler does to the flags and the states. -/
structure SchedulerSignals (shared shared' : Shared) (p next : SchedulerPC) : Prop where
  busy : shared.haveRunningProcess = true → shared'.haveRunningProcess = true
  parked : shared.waitingForNewProcess = true → shared'.waitingForNewProcess = true
  waits : next = .waitNeedScheduling → shared' = shared ∧
    (shared.haveRunningProcess = true ∨ shared.waitingForNewProcess = true)
  parks : shared'.waitingForNewProcess = true → shared.waitingForNewProcess = true ∨ p = .setWaiting
  empty : next = .unlockRq none → p = .select ∧ ∃ rq, shared.rq = some rq ∧ rq.head = []
  announces : next = .setWaiting → p = .unlockRq none
  calls : ∀ k, (shared.pcbs k).state = .ready →
    (shared'.pcbs k).state = .ready ∨ (p = .setRunning k ∧ next = .signalPcb k)

theorem scheduler_signals {workload : Workload} {shared shared' : Shared} {p next : SchedulerPC}
    (h : (schedulerInstr workload p).advance shared = some (shared', next)) :
    SchedulerSignals shared shared' p next := by
  cases p with
  | select =>
      simp only [schedulerInstr, Threads.Instr.advance] at h
      split at h
      · next rq hrq =>
          cases h
          refine ⟨id, id, by simp, Or.inl, fun hnone => ⟨rfl, rq, hrq, ?_⟩, by simp,
            fun _ => Or.inl⟩
          have hnone : runqueueSmallestPcb shared.pcbs rq = none := SchedulerPC.unlockRq.inj hnone
          unfold runqueueSmallestPcb at hnone
          split at hnone
          · assumption
          · cases hnone
      · cases h
  | whileBusy =>
      cases h
      refine ⟨id, id, ?_, Or.inl, ?_, ?_, fun _ => Or.inl⟩ <;> grind
  | unlockRq pcb =>
      cases pcb <;> cases h <;>
        exact ⟨id, id, by simp, Or.inl, by simp, by simp, fun _ => Or.inl⟩
  | setRunning j =>
      cases h
      refine ⟨id, id, by simp, Or.inl, by simp, by simp, fun k hk => ?_⟩
      by_cases hkj : k = j
      · subst hkj
        exact Or.inr ⟨rfl, rfl⟩
      · left
        simpa [Shared.setState, Shared.setPcb, Function.update_of_ne hkj] using hk
  | exited => cases h
  | _ =>
      cases h
      exact ⟨by simp, by simp, by grind, by grind, by grind, by grind, fun _ => Or.inl⟩

/-- What a step of a process does. -/
structure ProcessSignals (k : Nat) (shared shared' : Shared) (p next : ProcessPC) : Prop where
  busy : shared.haveRunningProcess = true →
    shared'.haveRunningProcess = true ∨ (p = .clearRunning ∧ next = .signalTerminated)
  parked : shared.waitingForNewProcess = true →
    shared'.waitingForNewProcess = true ∨ (p = .clearWaiting ∧ next = .signalNew)
  parks : shared'.waitingForNewProcess = true → shared.waitingForNewProcess = true ∧
    (p = .clearWaiting → shared.haveRunningProcess = true)
  ready : (shared.pcbs k).state = .ready → (shared'.pcbs k).state = .ready
  waits : next = .waitPcb → (shared'.pcbs k).state = .ready
  queued : next.Queued → next.Announcing ∨ p = .clearWaiting ∨ (p.Queued ∧ ¬ p.Announcing)

theorem process_signals {k : Nat} {shared shared' : Shared} {p next : ProcessPC}
    (h : (processInstr k p).advance shared = some (shared', next)) :
    ProcessSignals k shared shared' p next := by
  cases p with
  | whileReady =>
      cases h
      refine ⟨Or.inl, Or.inl, fun h => ⟨h, by simp⟩, id, ?_, ?_⟩
      · intro hnext
        by_contra hstate
        have hrunning : (shared.pcbs k).state = .running := by
          cases hs : (shared.pcbs k).state with
          | ready => exact absurd hs hstate
          | running => rfl
        rw [if_neg (not_not.mpr hrunning)] at hnext
        cases hnext
      · exact fun _ => Or.inr (Or.inr ⟨trivial, id⟩)
  | clearWaiting =>
      cases h
      refine ⟨?_, ?_, ?_, ?_, by simp, fun _ => Or.inr (Or.inl rfl)⟩ <;> grind
  | run =>
      obtain ⟨rfl, hslice⟩ := advance_run h
      obtain ⟨rq, timeslice, cpuTime, vruntime, hrq, -, -, -, rfl⟩ := runSlice_spec hslice
      refine ⟨Or.inl, Or.inl, fun h => ⟨h, by simp⟩, ?_, by simp, fun h => absurd h id⟩
      simp [Shared.setPcb]
  | setReady =>
      cases h
      refine ⟨Or.inl, Or.inl, fun h => ⟨h, by simp⟩, fun _ => ?_, by simp, fun h => absurd h id⟩
      simp [Shared.setState, Shared.setPcb]
  | sendStats departureTime =>
      obtain ⟨rfl, -, statsArray, rfl⟩ := advance_sendStats h
      exact ⟨Or.inl, Or.inl, fun h => ⟨h, by simp⟩, id, by simp, fun h => absurd h id⟩
  | _ =>
      simp only [processInstr, Threads.Instr.advance] at h
      have hpcbs : shared'.pcbs = shared.pcbs := by grind
      refine ⟨?_, ?_, ?_, by rw [hpcbs]; exact id, ?_, ?_⟩ <;>
        grind [ProcessPC.Queued, ProcessPC.Announcing]

section Wakeups

variable {workload : Workload} {s s' : State} {l : Label Thread}

/-! ## Over a step -/

/-- A flag is cleared by a process that goes on to signal. -/
theorem flags_step (hstep : (cfs workload).step l s = some s') :
    (s.shared.haveRunningProcess = true → s'.shared.haveRunningProcess = true ∨
      ∃ k, s.pc (.process k) = .clearRunning ∧ s'.pc (.process k) = .signalTerminated) ∧
    (s.shared.waitingForNewProcess = true → s'.shared.waitingForNewProcess = true ∨
      ∃ k, s.pc (.process k) = .clearWaiting ∧ s'.pc (.process k) = .signalNew) := by
  cases scheduleStep_of_step hstep with
  | process k next hadvance hself _ =>
      have hsignals := process_signals hadvance
      rw [← hself] at hsignals
      exact ⟨fun h => (hsignals.busy h).imp_right fun h => ⟨k, h⟩,
        fun h => (hsignals.parked h).imp_right fun h => ⟨k, h⟩⟩
  | scheduler next hadvance _ _ =>
      have hsignals := scheduler_signals hadvance
      exact ⟨fun h => Or.inl (hsignals.busy h), fun h => Or.inl (hsignals.parked h)⟩
  | same hsame _ _ =>
      rw [hsame.flags.1, hsame.flags.2]
      exact ⟨Or.inl, Or.inl⟩

/-- A process that has not been called is called by the scheduler, which goes on to signal. -/
theorem state_step (hstep : (cfs workload).step l s = some s') {k : Nat}
    (hk : (s.shared.pcbs k).state = .ready) : (s'.shared.pcbs k).state = .ready ∨
      (s.pc .scheduler = .setRunning k ∧ s'.pc .scheduler = .signalPcb k) := by
  cases step_of hstep with
  | process j next _ hadvance _ _ =>
      left
      by_cases h : k = j
      · subst h
        exact (process_signals hadvance).ready hk
      · rw [(process_frame hadvance).pcb_eq k h]
        exact hk
  | scheduler next hadvance hself _ =>
      rw [hself]
      exact (scheduler_signals hadvance).calls k hk
  | generator next hadvance _ _ =>
      left
      rcases (generator_effect hadvance).created with
        ⟨params, -, -, -, hpcbs⟩ | ⟨-, -, hpcbs⟩ <;> rw [hpcbs]
      · rw [Function.update_apply]
        split
        · rfl
        · exact hk
      · exact hk
  | aside hshared _ =>
      rw [hshared]
      exact Or.inl hk

/-- Nobody but the scheduler waits for scheduling to be needed. -/
theorem scheduler_alone (hwaits : WaitInv (program workload) s) {t : Thread}
    (ht : t ∈ s.waiters .needScheduling) : t = .scheduler := by
  obtain ⟨m, hm⟩ := (hwaits.mem_iff _ _).mp ht
  obtain ⟨p, hp⟩ := hwaits.waited _ _ _ hm
  cases t with
  | scheduler => rfl
  | process k =>
      cases cond_of_process_wait hp
  | generator =>
      have hp : generatorInstr workload p = .wait .needScheduling m (s.pc .generator) := hp
      cases p <;> cases hp
  | main =>
      have hp : mainInstr p = .wait .needScheduling m (s.pc .main) := hp
      cases p <;> cases hp
  | clock => cases hp

/-- Nobody but the process waits for its own call. -/
theorem process_alone (hwaits : WaitInv (program workload) s) {k : Nat} {t : Thread}
    (ht : t ∈ s.waiters (.pcb k)) : t = .process k := by
  obtain ⟨m, hm⟩ := (hwaits.mem_iff _ _).mp ht
  obtain ⟨p, hp⟩ := hwaits.waited _ _ _ hm
  cases t with
  | scheduler => cases (cond_of_scheduler_wait hp).2.1
  | process j =>
      cases cond_of_process_wait hp
      rfl
  | generator =>
      have hp : generatorInstr workload p = .wait (.pcb k) m (s.pc .generator) := hp
      cases p <;> cases hp
  | main =>
      have hp : mainInstr p = .wait (.pcb k) m (s.pc .main) := hp
      cases p <;> cases hp
  | clock => cases hp

/-! ## The scheduler's sleep -/

/-- Until the scheduler sleeps, its mutex keeps the flags as it has found them. -/
theorem WakeInv.schedulerWaits_step (hinv : WakeInv workload s)
    (hstep : (cfs workload).step l s = some s') (hp : s'.pc .scheduler = .waitNeedScheduling) :
    s'.shared.haveRunningProcess = true ∨ s'.shared.waitingForNewProcess = true := by
  -- while the scheduler holds its mutex, nobody clears a flag
  have hheld : s'.pc .scheduler = s.pc .scheduler → ∀ k,
      .needScheduling ∉ processHeld k (s.pc (.process k)) := by
    intro hsame k
    rw [hsame] at hp
    apply needScheduling_exclusive hinv.inv.locks <;> rw [hp] <;> simp [schedulerHeld]
  have hkeep : s'.pc .scheduler = s.pc .scheduler →
      s'.shared.haveRunningProcess = true ∨ s'.shared.waitingForNewProcess = true := by
    intro hsame
    obtain ⟨hbusy, hparked⟩ := flags_step hstep
    rcases hinv.schedulerWaits (by rw [← hsame]; exact hp) with h | h
    · rcases hbusy h with h | ⟨k, hk, -⟩
      · exact Or.inl h
      · exact absurd (by rw [hk]; simp [processHeld]) (hheld hsame k)
    · rcases hparked h with h | ⟨k, hk, -⟩
      · exact Or.inr h
      · exact absurd (by rw [hk]; simp [processHeld]) (hheld hsame k)
  rcases Threads.step_pc hstep .scheduler with hpc | ⟨-, hadvance⟩
  · exact hkeep hpc
  · obtain ⟨hshared, hflags⟩ := (scheduler_signals hadvance).waits hp
    rw [hshared]
    exact hflags

theorem WakeInv.schedulerAsleep_step (hinv : WakeInv workload s)
    (hstep : (cfs workload).step l s = some s') {c : CondVar} {m : Mutex}
    (hm : s'.mode .scheduler = .sleeping c m) :
    s'.shared.haveRunningProcess = true ∨ s'.shared.waitingForNewProcess = true ∨
      ∃ k, s'.pc (.process k) = .signalNew ∨ s'.pc (.process k) = .signalTerminated := by
  obtain ⟨hbusy, hparked⟩ := flags_step hstep
  -- a flag that was set is set, or its process is about to signal
  have hset : s.shared.haveRunningProcess = true ∨ s.shared.waitingForNewProcess = true →
      s'.shared.haveRunningProcess = true ∨ s'.shared.waitingForNewProcess = true ∨
        ∃ k, s'.pc (.process k) = .signalNew ∨ s'.pc (.process k) = .signalTerminated := by
    rintro (h | h)
    · rcases hbusy h with h | ⟨k, -, hk⟩
      · exact Or.inl h
      · exact Or.inr (Or.inr ⟨k, Or.inr hk⟩)
    · rcases hparked h with h | ⟨k, -, hk⟩
      · exact Or.inr (Or.inl h)
      · exact Or.inr (Or.inr ⟨k, Or.inl hk⟩)
  rcases hinv.waits.asleep hstep hm with ⟨-, hinstr, -⟩ | ⟨hasleep, -, hsignal⟩
  · exact hset (hinv.schedulerWaits (cond_of_scheduler_wait hinstr).1)
  · rcases hinv.schedulerAsleep c m hasleep with h | h | ⟨k, hk⟩
    · exact hset (Or.inl h)
    · exact hset (Or.inr h)
    · -- its signal would wake the scheduler
      right
      right
      refine ⟨k, ?_⟩
      obtain ⟨p, hp⟩ := hinv.waits.waited _ _ _ hasleep
      obtain rfl : c = .needScheduling := (cond_of_scheduler_wait hp).2.1
      have hinstr : ∃ next, (program workload).instr (.process k) (s.pc (.process k))
          = .signal .needScheduling next := by
        rcases hk with h | h <;> rw [h] <;> exact ⟨_, rfl⟩
      obtain ⟨next, hinstr⟩ := hinstr
      have hstays : s'.pc (.process k) = s.pc (.process k) := by
        by_contra hmoved
        obtain ⟨v, hv, hne⟩ := hsignal _ next hinstr hmoved
        exact hne (scheduler_alone hinv.waits hv)
      rw [hstays]
      exact hk

/-! ## The announcements -/

/-- Between the look at the queue and the first announcement, the mutex keeps the processes off. -/
theorem WakeInv.announced_step (hinv : WakeInv workload s)
    (hstep : (cfs workload).step l s = some s') (hannounced : Announced s') {k : Nat}
    (hqueued : (s'.pc (.process k)).Queued) : (s'.pc (.process k)).Announcing := by
  cases scheduleStep_of_step hstep with
  | process j next hadvance hself hother =>
      have hsignals := process_signals hadvance
      have hscheduler : s'.pc .scheduler = s.pc .scheduler := hother _ (by simp)
      have hbefore : Announced s := by
        unfold Announced at hannounced ⊢
        rw [hscheduler] at hannounced
        exact hannounced.imp_left fun h => (hsignals.parks h).1
      by_cases h : k = j
      · subst h
        rw [hself] at hqueued ⊢
        rcases hsignals.queued hqueued with h | hclear | ⟨hold, hpast⟩
        · exact h
        · -- the flag is cleared here, and the scheduler does not set it meanwhile
          exfalso
          have hheld : ∀ {p}, s.pc .scheduler = p → .needScheduling ∈ schedulerHeld p →
              p ≠ .whileBusy → False := by
            rintro p hp hmem hne
            apply needScheduling_exclusive hinv.inv.locks (by rw [hp]; exact hmem)
              (by rw [hp]; exact hne) k
            rw [hclear]
            simp [processHeld]
          unfold Announced at hannounced
          rw [hscheduler] at hannounced
          rcases hannounced with h | h | h
          · obtain ⟨hparked, hbusy⟩ := hsignals.parks h
            exact hinv.inv.cpu.not_both ⟨hbusy hclear, hparked⟩
          · exact hheld h (by simp [schedulerHeld]) (by simp)
          · exact hheld h (by simp [schedulerHeld]) (by simp)
        · exact absurd (hinv.announced hbefore k hold) hpast
      · rw [hother _ (by simpa using h)] at hqueued ⊢
        exact hinv.announced hbefore k hqueued
  | scheduler next hadvance hself hother =>
      have hsignals := scheduler_signals hadvance
      unfold Announced at hannounced
      rw [hself] at hannounced
      rw [hother _ (by simp)] at hqueued ⊢
      rcases hannounced with h | h | h
      · rcases hsignals.parks h with h | h
        · exact hinv.announced (Or.inl h) k hqueued
        · exact hinv.announced (Or.inr (Or.inr h)) k hqueued
      · -- the queue is empty
        obtain ⟨-, rq, hrq, hempty⟩ := hsignals.empty h
        have hmem := ((hinv.inv.queue hrq).2 k).mpr hqueued
        rw [hempty] at hmem
        cases hmem
      · exact hinv.announced (Or.inr (Or.inl (hsignals.announces h))) k hqueued
  | same hsame hscheduler hprocess =>
      unfold Announced at hannounced
      rw [hsame.flags.2, hscheduler] at hannounced
      rw [hprocess] at hqueued ⊢
      exact hinv.announced hannounced k hqueued

/-! ## A process's sleep -/

/-- Until the process sleeps, its mutex keeps the state as it has found it. -/
theorem WakeInv.processWaits_step (hinv : WakeInv workload s)
    (hstep : (cfs workload).step l s = some s') {k : Nat} (hp : s'.pc (.process k) = .waitPcb) :
    (s'.shared.pcbs k).state = .ready := by
  have hkeep : s'.pc (.process k) = s.pc (.process k) → (s'.shared.pcbs k).state = .ready := by
    intro hsame
    rw [hsame] at hp
    rcases state_step hstep (hinv.processWaits k hp) with h | ⟨hcalls, -⟩
    · exact h
    · -- the scheduler would hold the mutex of the process, too
      have heq : Thread.scheduler = .process k := by
        apply hinv.inv.locks.exclusive (m := .pcb k)
        · rw [hcalls]
          simp [held, schedulerHeld]
        · rw [hp]
          simp [held, processHeld]
        · intro p c hwait
          cases (cond_of_scheduler_wait hwait).2.2
        · intro p c hwait
          rw [hp] at hwait
          cases next_of_process_wait hwait
      cases heq
  rcases Threads.step_pc hstep (.process k) with hpc | ⟨-, hadvance⟩
  · exact hkeep hpc
  · exact (process_signals hadvance).waits hp

theorem WakeInv.processAsleep_step (hinv : WakeInv workload s)
    (hstep : (cfs workload).step l s = some s') {k : Nat} {c : CondVar} {m : Mutex}
    (hm : s'.mode (.process k) = .sleeping c m) :
    (s'.shared.pcbs k).state = .ready ∨ s'.pc .scheduler = .signalPcb k := by
  rcases hinv.waits.asleep hstep hm with ⟨-, hinstr, hshared⟩ | ⟨hasleep, -, hsignal⟩
  · left
    rw [hshared]
    exact hinv.processWaits k (point_of_process_wait hinstr)
  · rcases hinv.processAsleep k c m hasleep with hready | hcalls
    · exact (state_step hstep hready).imp_right fun h => h.2
    · -- the signal would wake the process
      right
      obtain ⟨p, hp⟩ := hinv.waits.waited _ _ _ hasleep
      obtain rfl : c = .pcb k := cond_of_process_wait hp
      have hstays : s'.pc .scheduler = s.pc .scheduler := by
        by_contra hmoved
        obtain ⟨v, hv, hne⟩ := hsignal .scheduler (.unlockPcb k) (by rw [hcalls]; rfl) hmoved
        exact hne (process_alone hinv.waits hv)
      rw [hstays]
      exact hcalls

/-! ## Every run -/

theorem WakeInv.step (hinv : WakeInv workload s) (hstep : (cfs workload).step l s = some s') :
    WakeInv workload s' where
  inv := hinv.inv.step hstep
  waits := hinv.waits.step hstep
  occupied := by
    rcases cpuOf_step hinv.inv hstep with h | h
    · rw [h]
      exact hinv.occupied
    · exact hinv.occupied.step hinv.inv.cpu h
  schedulerWaits := hinv.schedulerWaits_step hstep
  schedulerAsleep _ _ := hinv.schedulerAsleep_step hstep
  announced h _ := hinv.announced_step hstep h
  processWaits _ := hinv.processWaits_step hstep
  processAsleep _ _ _ := hinv.processAsleep_step hstep

theorem WakeInv.reachable (hs : (cfs workload).Reachable s) : WakeInv workload s := by
  apply hs.invariant
  · exact {
      inv := Inv.reachable System.reachable_init
      waits := WaitInv.reachable System.reachable_init
      occupied := Cpu.occupied_init
      schedulerWaits := fun h => by cases h
      schedulerAsleep := fun c m h => by cases h
      announced := fun _ k h => absurd h id
      processWaits := fun k h => by cases h
      processAsleep := fun k c m h => by cases h }
  · exact fun s l s' hinv hstep => hinv.step hstep

end Wakeups

end Cs342.Cfs
