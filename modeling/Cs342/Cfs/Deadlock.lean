import Mathlib
import Cs342.Cfs.Accounting
import Cs342.Cfs.Wakeups

/-!
# Deadlock

The scheduler locks its own mutex and then that of a process, a process does it the other way round.
They do not wait for each other: the scheduler only locks the mutex of a process that is in the
queue, and such a process does not hold its mutex where it locks the scheduler's
(`wants_pcb_of_queued`). So a scheduler and processes that are all blocked are all asleep, and that
would be a missed wake-up (**`no_deadlock`**). What remains is the generator, which keeps everybody
from the queue while it asks for its length.
-/

namespace Cs342.Cfs

open Threads (LockInv WaitInv Label Wants Blocked)

/-- The thread takes a step by itself, or its next instruction is not defined. -/
def CanStep (workload : Workload) (s : State) (t : Thread) : Prop :=
  (∃ l s', (l = .run t ∨ ∃ w, l = .wake t w) ∧ (cfs workload).step l s = some s') ∨
    ∃ f, s.mode t = .running ∧ (program workload).instr t (s.pc t) = .exec f ∧ f s.shared = none

/-- A created process has not ended, and neither the scheduler nor a created process can take a
step. -/
def Deadlocked (workload : Workload) (s : State) : Prop :=
  (∃ k, k < s.shared.created ∧ s.pc (.process k) ≠ .exited) ∧ ¬ CanStep workload s .scheduler ∧
    ∀ k, k < s.shared.created → ¬ CanStep workload s (.process k)

section Blocking

variable {workload : Workload} {s : State}

theorem unlock_held {t : Thread} {p : PC t} {m : Mutex} {next : PC t}
    (h : (program workload).instr t p = .unlock m next) : m ∈ held t p := by
  cases t with
  | scheduler =>
      have h : schedulerInstr workload p = .unlock m next := h
      cases p with
      | unlockRq pcb =>
          cases pcb
          · cases h
            simp [held, schedulerHeld]
          · cases h
            simp [held, schedulerHeld]
      | _ => cases h <;> simp [held, schedulerHeld]
  | process k =>
      have h : processInstr k p = .unlock m next := h
      cases p <;> cases h <;> simp [held, processHeld]
  | generator =>
      have h : generatorInstr workload p = .unlock m next := h
      cases p <;> cases h
      simp [held, generatorHeld]
  | main =>
      have h : mainInstr p = .unlock m next := h
      cases p <;> cases h
  | clock => cases h

theorem wait_held {t : Thread} {p : PC t} {c : CondVar} {m : Mutex} {next : PC t}
    (h : (program workload).instr t p = .wait c m next) : m ∈ held t p := by
  have hrespects := (discipline workload).respects t p
  rw [h] at hrespects
  exact hrespects.1

/-- Where a thread waits for others or ends, it has nothing locked. -/
theorem held_of_await {t : Thread} {p : PC t} {ready : Shared → Bool} {next : PC t}
    (h : (program workload).instr t p = .await ready next) : held t p = [] := by
  cases t with
  | scheduler =>
      have h : schedulerInstr workload p = .await ready next := h
      cases p with
      | unlockRq pcb => cases pcb <;> cases h
      | _ => cases h
  | process k =>
      have h : processInstr k p = .await ready next := h
      cases p <;> cases h
      rfl
  | generator =>
      have h : generatorInstr workload p = .await ready next := h
      cases p <;> cases h
  | main => rfl
  | clock => rfl

theorem held_of_halt {t : Thread} {p : PC t} (h : (program workload).instr t p = .halt) :
    held t p = [] := by
  cases t with
  | scheduler =>
      have h : schedulerInstr workload p = .halt := h
      cases p with
      | unlockRq pcb => cases pcb <;> cases h
      | exited => rfl
      | _ => cases h
  | process k =>
      have h : processInstr k p = .halt := h
      cases p <;> cases h
      rfl
  | generator =>
      have h : generatorInstr workload p = .halt := h
      cases p <;> cases h
      rfl
  | main => rfl
  | clock => rfl

/-- To be able to take a step is not to be blocked. -/
theorem canStep_iff (hs : (cfs workload).Reachable s) (t : Thread) :
    CanStep workload s t ↔ ¬ Blocked (program workload) s t := by
  constructor
  · rintro (⟨l, s', hl, hstep⟩ | ⟨f, hmode, hinstr, -⟩) hblocked
    · have hnone := hblocked.no_step hl
      have hstep : (program workload).step l s = some s' := hstep
      rw [hnone] at hstep
      cases hstep
    · apply Threads.not_blocked_of_free hmode _ hblocked
      rw [hinstr]
      trivial
  · exact Threads.exists_step_of_not_blocked (Inv.reachable hs).locks
      (fun m next h => unlock_held h) (fun c m next h => wait_held h)

/-- A created process that is blocked waits for a mutex, sleeps, or has ended. -/
theorem process_blocked {k : Nat} (hk : k < s.shared.created)
    (h : Blocked (program workload) s (.process k)) :
    (∃ m, Wants (program workload) s (.process k) m ∧ s.owner m ≠ none) ∨
      (∃ c m, s.mode (.process k) = .sleeping c m) ∨ s.pc (.process k) = .exited := by
  cases h with
  | mutex hwants howned => exact Or.inl ⟨_, hwants, howned⟩
  | asleep hmode => exact Or.inr (Or.inl ⟨_, _, hmode⟩)
  | await _ hinstr hready =>
      have hinstr : processInstr k (s.pc (.process k)) = .await _ _ := hinstr
      cases hp : s.pc (.process k) <;> rw [hp] at hinstr <;> cases hinstr
      simp [hk] at hready
  | halted _ hinstr =>
      have hinstr : processInstr k (s.pc (.process k)) = .halt := hinstr
      cases hp : s.pc (.process k) <;> rw [hp] at hinstr <;> cases hinstr
      exact Or.inr (Or.inr rfl)

theorem scheduler_blocked (h : Blocked (program workload) s .scheduler) :
    (∃ m, Wants (program workload) s .scheduler m ∧ s.owner m ≠ none) ∨
      (∃ c m, s.mode .scheduler = .sleeping c m) ∨ s.pc .scheduler = .exited := by
  cases h with
  | mutex hwants howned => exact Or.inl ⟨_, hwants, howned⟩
  | asleep hmode => exact Or.inr (Or.inl ⟨_, _, hmode⟩)
  | await _ hinstr _ =>
      have hinstr : schedulerInstr workload (s.pc .scheduler) = .await _ _ := hinstr
      cases hp : s.pc .scheduler with
      | unlockRq pcb => rw [hp] at hinstr; cases pcb <;> cases hinstr
      | _ => rw [hp] at hinstr; cases hinstr
  | halted _ hinstr =>
      have hinstr : schedulerInstr workload (s.pc .scheduler) = .halt := hinstr
      cases hp : s.pc .scheduler with
      | unlockRq pcb => rw [hp] at hinstr; cases pcb <;> cases hinstr
      | exited => exact Or.inr (Or.inr rfl)
      | _ => rw [hp] at hinstr; cases hinstr

/-! ## Who has what a blocked thread waits for -/

/-- A thread that waits has given away the only mutex it had. -/
theorem running_of_owner (hlocks : LockInv (program workload) (fun t p m => m ∈ held t p) s)
    {t : Thread} {m : Mutex} (howner : s.owner m = some t) : s.mode t = .running := by
  obtain ⟨hheld, hreleased⟩ := (hlocks.owner_iff _ _).mp howner
  by_contra hmode
  obtain ⟨n, hn⟩ : ∃ n, (s.mode t).released = some n := by
    cases hm : s.mode t with
    | running => exact absurd hm hmode
    | sleeping c n => exact ⟨n, rfl⟩
    | woken n => exact ⟨n, rfl⟩
  obtain ⟨p, c, hwait⟩ := hlocks.waited _ _ hn
  suffices m = n by rw [← this] at hn; exact hreleased hn
  cases t with
  | scheduler =>
      have hnext := eq_of_scheduler_wait hwait
      have hheld : m ∈ schedulerHeld (s.pc .scheduler) := hheld
      rw [hnext] at hheld
      rw [List.mem_singleton.mp hheld, (cond_of_scheduler_wait hwait).2.2]
  | process k =>
      have hnext := next_of_process_wait hwait
      have hheld : m ∈ processHeld k (s.pc (.process k)) := hheld
      rw [hnext] at hheld
      rw [List.mem_singleton.mp hheld, eq_of_process_wait hwait]
  | generator => exact absurd (running_of_never_waits hlocks (by simp) (by simp)) hmode
  | main => exact absurd (running_of_never_waits hlocks (by simp) (by simp)) hmode
  | clock => exact absurd (running_of_never_waits hlocks (by simp) (by simp)) hmode

/-- A blocked thread with a mutex is about to lock a second one. -/
theorem locks_of_owner (hlocks : LockInv (program workload) (fun t p m => m ∈ held t p) s)
    {t : Thread} {m : Mutex} (howner : s.owner m = some t)
    (hblocked : Blocked (program workload) s t) :
    m ∈ held t (s.pc t) ∧ ∃ m' next, (program workload).instr t (s.pc t) = .lock m' next ∧
      s.owner m' ≠ none := by
  have hmode := running_of_owner hlocks howner
  have hheld := ((hlocks.owner_iff _ _).mp howner).1
  refine ⟨hheld, ?_⟩
  cases hblocked with
  | mutex hwants howned =>
      rcases hwants with ⟨-, next, hinstr⟩ | hwoken
      · exact ⟨_, next, hinstr, howned⟩
      · rw [hmode] at hwoken
        cases hwoken
  | asleep hsleeping => rw [hmode] at hsleeping; cases hsleeping
  | await _ hinstr _ =>
      rw [held_of_await hinstr] at hheld
      cases hheld
  | halted _ hinstr =>
      rw [held_of_halt hinstr] at hheld
      cases hheld

/-- A process that is blocked with a mutex has its own, and waits for the queue or for the
scheduler. -/
theorem process_owner (hlocks : LockInv (program workload) (fun t p m => m ∈ held t p) s) {k : Nat}
    {m : Mutex} (howner : s.owner m = some (.process k))
    (hblocked : Blocked (program workload) s (.process k)) :
    m = .pcb k ∧ (s.owner .runqueue ≠ none ∨
      (s.pc (.process k) = .lockTerminated ∧ s.owner .needScheduling ≠ none)) := by
  obtain ⟨hheld, m', next, hinstr, howned⟩ := locks_of_owner hlocks howner hblocked
  have hheld : m ∈ processHeld k (s.pc (.process k)) := hheld
  have hinstr : processInstr k (s.pc (.process k)) = .lock m' next := hinstr
  cases hp : s.pc (.process k) <;> rw [hp] at hinstr hheld <;> cases hinstr <;>
    simp [processHeld] at hheld <;> simp [hheld, howned]

/-- A scheduler that is blocked with a mutex has its own, and waits for the queue or for a
process. -/
theorem scheduler_owner (hlocks : LockInv (program workload) (fun t p m => m ∈ held t p) s)
    {m : Mutex} (howner : s.owner m = some .scheduler)
    (hblocked : Blocked (program workload) s .scheduler) :
    m = .needScheduling ∧ (s.owner .runqueue ≠ none ∨
      ∃ k, s.pc .scheduler = .lockPcb k ∧ s.owner (.pcb k) ≠ none) := by
  obtain ⟨hheld, m', next, hinstr, howned⟩ := locks_of_owner hlocks howner hblocked
  have hheld : m ∈ schedulerHeld (s.pc .scheduler) := hheld
  have hinstr : schedulerInstr workload (s.pc .scheduler) = .lock m' next := hinstr
  cases hp : s.pc .scheduler with
  | unlockRq pcb => rw [hp] at hinstr; cases pcb <;> cases hinstr
  | lockRq =>
      rw [hp] at hinstr hheld
      cases hinstr
      exact ⟨List.mem_singleton.mp hheld, Or.inl howned⟩
  | lockPcb k =>
      rw [hp] at hinstr hheld
      cases hinstr
      exact ⟨List.mem_singleton.mp hheld, Or.inr ⟨k, rfl, howned⟩⟩
  | lockNeedScheduling => rw [hp] at hheld; cases hheld
  | _ => rw [hp] at hinstr; cases hinstr

/-- The scheduler is about to call a process that is in the queue: such a process does not have its
mutex where it locks the scheduler's. -/
theorem not_lockTerminated (hinv : WakeInv workload s) {k : Nat}
    (hp : s.pc .scheduler = .lockPcb k) : s.pc (.process k) ≠ .lockTerminated := by
  intro hk
  have hgrant : (cpuOf s).grant = .chosen k := by
    show schedulerGrant (s.pc .scheduler) = _
    rw [hp]
    rfl
  have hphase : (cpuOf s).phase k = .leaving := by
    show processPhase (s.pc (.process k)) = _
    rw [hk]
    rfl
  rw [(hinv.inv.cpu.chosen k hgrant).1] at hphase
  cases hphase

/-! ## Nobody has anything that a blocked thread waits for -/

/-- The scheduler and all created processes are blocked, and not by the generator. -/
structure AllBlocked (workload : Workload) (s : State) : Prop where
  scheduler : Blocked (program workload) s .scheduler
  processes : ∀ k, k < s.shared.created → Blocked (program workload) s (.process k)
  generator : s.owner .runqueue ≠ some .generator

theorem created_of_owner (hinv : Inv workload s) {k : Nat} {m : Mutex}
    (howner : s.owner m = some (.process k)) : k < s.shared.created := by
  by_contra h
  have hheld := ((hinv.locks.owner_iff _ _).mp howner).1
  rw [hinv.places.fresh k (not_lt.mp h)] at hheld
  cases hheld

theorem AllBlocked.runqueue_free (h : AllBlocked workload s) (hinv : Inv workload s) :
    s.owner .runqueue = none := by
  cases howner : s.owner .runqueue with
  | none => rfl
  | some u =>
      exfalso
      have hheld := ((hinv.locks.owner_iff _ _).mp howner).1
      cases u with
      | scheduler => cases (scheduler_owner hinv.locks howner h.scheduler).1
      | process k =>
          cases (process_owner hinv.locks howner (h.processes k (created_of_owner hinv howner))).1
      | generator => exact h.generator howner
      | main => cases hheld
      | clock => cases hheld

/-- Who has the mutex of a process is that process, at the end of its slice. -/
theorem AllBlocked.pcb_owner (h : AllBlocked workload s) (hinv : Inv workload s) {k : Nat}
    (howned : s.owner (.pcb k) ≠ none) :
    s.pc (.process k) = .lockTerminated ∧ s.owner .needScheduling ≠ none := by
  obtain ⟨u, howner⟩ := Option.ne_none_iff_exists'.mp howned
  have hheld := ((hinv.locks.owner_iff _ _).mp howner).1
  cases u with
  | scheduler => cases (scheduler_owner hinv.locks howner h.scheduler).1
  | process j =>
      obtain ⟨heq, hwaits⟩ :=
        process_owner hinv.locks howner (h.processes j (created_of_owner hinv howner))
      cases heq
      exact hwaits.resolve_left fun hne => hne (h.runqueue_free hinv)
  | generator =>
      have hheld : .pcb k ∈ generatorHeld (s.pc .generator) := hheld
      cases hp : s.pc .generator <;> rw [hp] at hheld <;> simp [generatorHeld] at hheld
  | main => cases hheld
  | clock => cases hheld

theorem AllBlocked.needScheduling_free (h : AllBlocked workload s) (hinv : WakeInv workload s) :
    s.owner .needScheduling = none := by
  cases howner : s.owner .needScheduling with
  | none => rfl
  | some u =>
      exfalso
      have hlocks := hinv.inv.locks
      have hheld := ((hlocks.owner_iff _ _).mp howner).1
      cases u with
      | scheduler =>
          rcases (scheduler_owner hlocks howner h.scheduler).2 with hne | ⟨k, hp, howned⟩
          · exact hne (h.runqueue_free hinv.inv)
          · exact not_lockTerminated hinv hp (h.pcb_owner hinv.inv howned).1
      | process k =>
          cases (process_owner hlocks howner (h.processes k (created_of_owner hinv.inv howner))).1
      | generator =>
          have hheld : .needScheduling ∈ generatorHeld (s.pc .generator) := hheld
          cases hp : s.pc .generator <;> rw [hp] at hheld <;> simp [generatorHeld] at hheld
      | main => cases hheld
      | clock => cases hheld

/-- **Nobody has anything.** -/
theorem AllBlocked.free (h : AllBlocked workload s) (hinv : WakeInv workload s) (m : Mutex) :
    s.owner m = none := by
  cases m with
  | needScheduling => exact h.needScheduling_free hinv
  | runqueue => exact h.runqueue_free hinv.inv
  | pcb k =>
      by_contra howned
      exact (h.pcb_owner hinv.inv howned).2 (h.needScheduling_free hinv)

/-! ## Nobody sleeps for ever -/

theorem AllBlocked.process (h : AllBlocked workload s) (hinv : WakeInv workload s) {k : Nat}
    (hk : k < s.shared.created) :
    (s.pc (.process k) = .whileReady ∧ ∃ c m, s.mode (.process k) = .sleeping c m) ∨
      s.pc (.process k) = .exited := by
  rcases process_blocked hk (h.processes k hk) with ⟨m, -, howned⟩ | ⟨c, m, hmode⟩ | hexited
  · exact absurd (h.free hinv m) howned
  · left
    obtain ⟨p, hp⟩ := hinv.waits.waited _ _ _ hmode
    exact ⟨next_of_process_wait hp, c, m, hmode⟩
  · exact Or.inr hexited

theorem AllBlocked.scheduler_asleep (h : AllBlocked workload s) (hinv : WakeInv workload s) :
    (s.pc .scheduler = .whileBusy ∧ ∃ c m, s.mode .scheduler = .sleeping c m) ∨
      s.pc .scheduler = .exited := by
  rcases scheduler_blocked h.scheduler with ⟨m, -, howned⟩ | ⟨c, m, hmode⟩ | hexited
  · exact absurd (h.free hinv m) howned
  · left
    obtain ⟨p, hp⟩ := hinv.waits.waited _ _ _ hmode
    exact ⟨eq_of_scheduler_wait hp, c, m, hmode⟩
  · exact Or.inr hexited

/-- A place other than asleep and ended is that of nobody. -/
theorem AllBlocked.absurd_place (h : AllBlocked workload s) (hinv : WakeInv workload s) {k : Nat}
    (hcreated : s.pc (.process k) ≠ .notCreated) (hready : s.pc (.process k) ≠ .whileReady)
    (hexited : s.pc (.process k) ≠ .exited) : False := by
  have hk : k < s.shared.created := by
    by_contra hk
    exact hcreated (hinv.inv.places.fresh k (not_lt.mp hk))
  rcases h.process hinv hk with ⟨hp, -⟩ | hp
  · exact hready hp
  · exact hexited hp

/-- The process that has the CPU has been called, and does not sleep. -/
theorem AllBlocked.not_busy (h : AllBlocked workload s) (hinv : WakeInv workload s)
    (hscheduler : ∀ k, s.pc .scheduler ≠ .signalPcb k) : s.shared.haveRunningProcess ≠ true := by
  intro hbusy
  obtain ⟨j, hj⟩ := hinv.occupied.busy hbusy
  have hplace : ∀ {phase : Phase}, phase ≠ .outside → (cpuOf s).phase j = phase →
      s.pc (.process j) = .whileReady := by
    intro phase hphase hj
    have hj : processPhase (s.pc (.process j)) = phase := hj
    by_contra hready
    apply h.absurd_place hinv _ hready
    · intro hexited
      rw [hexited] at hj
      exact hphase hj.symm
    · intro hfresh
      rw [hfresh] at hj
      exact hphase hj.symm
  rcases hj with hcalled | hphase | hphase | hphase
  · have hready : s.pc (.process j) = .whileReady := by
      rcases hinv.inv.cpu.called_phase j hcalled with hphase | hphase | hphase <;>
        exact hplace (by simp) hphase
    have hcreated : j < s.shared.created := by
      by_contra hge
      rw [hinv.inv.places.fresh j (not_lt.mp hge)] at hready
      cases hready
    rcases h.process hinv hcreated with ⟨-, c, m, hasleep⟩ | hexited
    · rcases hinv.processAsleep j c m hasleep with hstate | hsignal
      · have hcalled : decide ((s.shared.pcbs j).state = .running) = true := hcalled
        rw [hstate] at hcalled
        cases hcalled
      · exact hscheduler j hsignal
    · rw [hexited] at hready
      cases hready
  all_goals
    have hready := hplace (by simp) hphase
    have hphase : processPhase (s.pc (.process j)) = _ := hphase
    rw [hready] at hphase
    cases hphase

/-- **If all are blocked, everybody has ended.** -/
theorem AllBlocked.exited (h : AllBlocked workload s) (hs : (cfs workload).Reachable s)
    (htotal : workload.totalProcessCount = workload.processes.length) {k : Nat}
    (hk : k < s.shared.created) : s.pc (.process k) = .exited := by
  have hinv := WakeInv.reachable hs
  rcases h.process hinv hk with ⟨hready, -⟩ | hexited
  · exfalso
    rcases h.scheduler_asleep hinv with ⟨hbusyLoop, c, m, hasleep⟩ | hexited
    · rcases hinv.schedulerAsleep c m hasleep with hbusy | hparked | ⟨j, hj⟩
      · exact h.not_busy hinv (by rw [hbusyLoop]; simp) hbusy
      · -- the sleeping process has been announced
        have hannouncing := hinv.announced (Or.inl hparked) k (by rw [hready]; trivial)
        rw [hready] at hannouncing
        exact hannouncing
      · rcases hj with hj | hj
        · exact h.absurd_place hinv (k := j) (by rw [hj]; simp) (by rw [hj]; simp)
            (by rw [hj]; simp)
        · exact h.absurd_place hinv (k := j) (by rw [hj]; simp) (by rw [hj]; simp)
            (by rw [hj]; simp)
    · -- the scheduler has left when everybody was counted
      have hlt := lt_of_lt_of_le hk (CreationInv.reachable hs).created_le
      have hnotified := notified_of_shutDown htotal hs (by rw [hexited]; trivial) k hlt
      unfold Notified at hnotified
      rw [hready] at hnotified
      exact hnotified
  · exact hexited

end Blocking

/-- What holds instead of the absence of deadlocks, with the two parts of the reason. -/
structure DeadlockFree (workload : Workload) (s : State) : Prop where
  /-- The scheduler and the processes can be kept from moving by the generator, which moves. -/
  progress : Deadlocked workload s →
    s.owner .runqueue = some .generator ∧ CanStep workload s .generator
  /-- The scheduler, with its mutex, does not wait for the mutex of a process that waits for the
  scheduler's. -/
  no_cycle : ∀ k t, Wants (program workload) s .scheduler (.pcb k) → s.owner (.pcb k) = some t →
    ¬ Wants (program workload) s t .needScheduling
  /-- The scheduler does not sleep for a new process while one in the queue has announced itself. -/
  no_lost_wakeup : ∀ c m, s.mode .scheduler = .sleeping c m →
    s.shared.waitingForNewProcess = true → ∀ rq k, s.shared.rq = some rq → k ∈ rq.head →
      (s.pc (.process k)).Announcing

section Progress

variable {workload : Workload} {s : State}

theorem deadlocked_generator (hs : (cfs workload).Reachable s)
    (htotal : workload.totalProcessCount = workload.processes.length)
    (hdead : Deadlocked workload s) :
    s.owner .runqueue = some .generator ∧ CanStep workload s .generator := by
  obtain ⟨⟨k, hk, hpending⟩, hscheduler, hprocesses⟩ := hdead
  have hlocks := (Inv.reachable hs).locks
  have howner : s.owner .runqueue = some .generator := by
    by_contra hgenerator
    have hall : AllBlocked workload s := by
      refine ⟨?_, fun j hj => ?_, hgenerator⟩
      · by_contra h
        exact hscheduler ((canStep_iff hs _).mpr h)
      · by_contra h
        exact hprocesses j hj ((canStep_iff hs _).mpr h)
    exact hpending (hall.exited hs htotal hk)
  refine ⟨howner, (canStep_iff hs _).mpr fun hblocked => ?_⟩
  obtain ⟨hheld, m, next, hinstr, -⟩ := locks_of_owner hlocks howner hblocked
  have hheld : .runqueue ∈ generatorHeld (s.pc .generator) := hheld
  have hinstr : generatorInstr workload (s.pc .generator) = .lock m next := hinstr
  cases hp : s.pc .generator <;> rw [hp] at hheld hinstr <;> cases hinstr
  cases hheld

theorem not_wants_cycle (hs : (cfs workload).Reachable s) {k : Nat} {t : Thread}
    (hwants : Wants (program workload) s .scheduler (.pcb k)) (howner : s.owner (.pcb k) = some t) :
    ¬ Wants (program workload) s t .needScheduling := by
  have hinv := WakeInv.reachable hs
  have hlocks := hinv.inv.locks
  have hp : s.pc .scheduler = .lockPcb k := by
    rcases hwants with ⟨-, next, hinstr⟩ | hwoken
    · have hinstr : schedulerInstr workload (s.pc .scheduler) = .lock (.pcb k) next := hinstr
      cases hp : s.pc .scheduler with
      | unlockRq pcb => rw [hp] at hinstr; cases pcb <;> cases hinstr
      | lockPcb j => rw [hp] at hinstr; cases hinstr; rfl
      | _ => rw [hp] at hinstr; cases hinstr
    · obtain ⟨p, c, hwait⟩ := hlocks.waited .scheduler (.pcb k) (by rw [hwoken]; rfl)
      cases (cond_of_scheduler_wait hwait).2.2
  intro hcycle
  -- who has the mutex has not just waited, so it is about to lock
  rcases hcycle with ⟨-, next, hinstr⟩ | hwoken
  · have hheld := ((hlocks.owner_iff _ _).mp howner).1
    cases t with
    | scheduler =>
        have hheld : .pcb k ∈ schedulerHeld (s.pc .scheduler) := hheld
        rw [hp] at hheld
        simp [schedulerHeld] at hheld
    | process j =>
        have hheld : .pcb k ∈ processHeld j (s.pc (.process j)) := hheld
        have hinstr : processInstr j (s.pc (.process j)) = .lock .needScheduling next := hinstr
        cases hj : s.pc (.process j) <;> rw [hj] at hinstr hheld <;> cases hinstr
        · cases hheld
        · obtain rfl : k = j := by simpa [processHeld] using hheld
          exact not_lockTerminated hinv hp hj
    | generator =>
        have hheld : .pcb k ∈ generatorHeld (s.pc .generator) := hheld
        cases hg : s.pc .generator <;> rw [hg] at hheld <;> simp [generatorHeld] at hheld
    | main => cases hheld
    | clock => cases hheld
  · rw [running_of_owner hlocks howner] at hwoken
    cases hwoken

end Progress

/-- **No deadlock**, in every reachable state, but for the time in which the generator has the
queue. -/
theorem no_deadlock (workload : Workload)
    (htotal : workload.totalProcessCount = workload.processes.length) (s : State)
    (hs : (cfs workload).Reachable s) : DeadlockFree workload s where
  progress := deadlocked_generator hs htotal
  no_cycle _ _ := not_wants_cycle hs
  no_lost_wakeup _ _ _ hparked _ k hrq hmem := by
    have hinv := WakeInv.reachable hs
    exact hinv.announced (Or.inl hparked) k (((hinv.inv.queue hrq).2 k).mp hmem)

/-! ## The generator has the queue -/

/-- After the first slice, the process and the scheduler are about to lock the queue, and the
generator has done so. -/
def askingRun : List (Label Thread) :=
  turns .scheduler 5 ++ turns .generator 2 ++
  turns (.process 0) 8 ++ [.wake (.process 0) .scheduler] ++ turns (.process 0) 1 ++
  turns .scheduler 11 ++ turns (.process 0) 14 ++ turns .scheduler 3 ++ turns .generator 2

theorem askingRun_deadlocked : ∃ s, (cfs longProcess).Reachable s ∧ Deadlocked longProcess s := by
  have hrun : ((cfs longProcess).run askingRun (cfs longProcess).init).map (fun s =>
      (s.pc .scheduler, s.pc (.process 0), s.owner .runqueue, s.shared.created))
      = some (.lockRq, .lockRqAdd, some .generator, 1) := by decide +kernel
  obtain ⟨s, hs, hview⟩ := Option.map_eq_some_iff.mp hrun
  simp only [Prod.mk.injEq] at hview
  obtain ⟨hscheduler, hprocess, howner, hcreated⟩ := hview
  have hreachable : (cfs longProcess).Reachable s := ⟨_, hs⟩
  have hlocks := (Inv.reachable hreachable).locks
  have howned : s.owner .runqueue ≠ none := by rw [howner]; simp
  refine ⟨s, hreachable, ⟨0, by rw [hcreated]; exact one_pos, by rw [hprocess]; simp⟩, ?_, ?_⟩
  · rw [canStep_iff hreachable, not_not]
    refine .mutex (Or.inl ⟨scheduler_running hlocks (by rw [hscheduler]; simp), .select, ?_⟩) howned
    rw [hscheduler]
    rfl
  · intro k hk
    obtain rfl : k = 0 := by omega
    rw [canStep_iff hreachable, not_not]
    refine .mutex (Or.inl ⟨process_running hlocks (by rw [hprocess]; simp), .add, ?_⟩) howned
    rw [hprocess]
    rfl

theorem no_deadlock_longProcess : ∃ s, (cfs longProcess).Reachable s ∧ DeadlockFree longProcess s := by
  obtain ⟨s, hs, -⟩ := askingRun_deadlocked
  exact ⟨s, hs, no_deadlock longProcess rfl s hs⟩

/-- Nobody but the generator moves. -/
theorem deadlocked_longProcess :
    ¬ ∀ s, (cfs longProcess).Reachable s → ¬ Deadlocked longProcess s := by
  intro h
  obtain ⟨s, hs, hdead⟩ := askingRun_deadlocked
  exact h s hs hdead

end Cs342.Cfs
