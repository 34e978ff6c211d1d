import Mathlib
import Cs342.Cfs.OneCpu
import Cs342.Cfs.Arrivals

/-!
# The count of remaining processes
-/

namespace Cs342.Cfs

open Threads (Label)

/-! ## The time a process has used -/

/-- What is known of the used time, point by point. -/
def ProcessPC.Charged (pcb : Pcb) : ProcessPC → Prop
  | .notCreated | .arrival => pcb.cpuTime = 0
  | .whileLength => 0 ≤ pcb.cpuTime
  | .lockRqAdd | .add | .unlockRqAdd | .lockNew | .clearWaiting | .signalNew | .unlockNew | .lockPcb
  | .whileReady | .waitPcb | .lockRqRun | .run =>
    0 ≤ pcb.cpuTime ∧ pcb.cpuTime < pcb.processLength
  | .unlockRqRun | .sleep | .setReady | .testLength => 0 < pcb.cpuTime
  | .lockRqDone | .decrement | .unlockRqDone =>
    0 < pcb.cpuTime ∧ pcb.processLength ≤ pcb.cpuTime
  | .lockTerminated | .clearRunning | .signalTerminated | .unlockTerminated | .unlockPcb =>
    0 < pcb.cpuTime
  | .departure | .sendStats _ | .exited => 0 ≤ pcb.cpuTime ∧ pcb.processLength ≤ pcb.cpuTime

/-- The process has called `notify_process_termination`: where its length is used up, it has passed
there on the way to the next test. -/
def ProcessPC.Notified (pcb : Pcb) : ProcessPC → Prop
  | .unlockRqDone => True
  | .lockTerminated | .clearRunning | .signalTerminated | .unlockTerminated | .unlockPcb
  | .whileLength | .departure | .sendStats _ | .exited =>
    0 < pcb.cpuTime ∧ pcb.processLength ≤ pcb.cpuTime
  | _ => False

section Charge

variable {k : Nat} {shared shared' : Shared} {p next : ProcessPC}

/-- A step keeps to what is known, and **the only way to have notified is to decrement**. -/
theorem process_charged (h : (processInstr k p).advance shared = some (shared', next))
    (hp : p.Charged (shared.pcbs k)) : next.Charged (shared'.pcbs k) ∧
      (next.Notified (shared'.pcbs k) ↔ p.Notified (shared.pcbs k) ∨ p = .decrement) := by
  cases p with
  | run =>
      obtain ⟨rfl, hslice⟩ := advance_run h
      obtain ⟨rq, timeslice, cpuTime, vruntime, -, htimeslice, hcpu, -, rfl⟩ := runSlice_spec hslice
      have hmin := minGranularity_le_timeslice htimeslice
      unfold minGranularity at hmin
      obtain ⟨hnonneg, hlt⟩ := hp
      simp only [ProcessPC.Charged, ProcessPC.Notified, Shared.setPcb, Function.update_self]
      refine ⟨?_, by simp⟩
      omega
  | setReady =>
      cases h
      simpa [ProcessPC.Charged, ProcessPC.Notified, Shared.setState, Shared.setPcb] using hp
  | sendStats departureTime =>
      obtain ⟨rfl, -, statsArray, rfl⟩ := advance_sendStats h
      exact ⟨hp, by simp [ProcessPC.Notified]⟩
  | _ =>
      simp only [processInstr, Threads.Instr.advance] at h
      have hpcbs : shared'.pcbs = shared.pcbs := by grind
      rw [hpcbs]
      grind [ProcessPC.Charged, ProcessPC.Notified]

/-- Writing the state of a pcb takes no time. -/
theorem charged_setState {pcb : Pcb} {state : ProcessState} :
    (p.Charged { pcb with state := state } ↔ p.Charged pcb) ∧
      (p.Notified { pcb with state := state } ↔ p.Notified pcb) := by
  cases p <;> exact ⟨Iff.rfl, Iff.rfl⟩

end Charge

def Notified (s : State) (k : Nat) : Prop :=
  (s.pc (.process k)).Notified (s.shared.pcbs k)

def ChargeInv (s : State) : Prop := ∀ k, (s.pc (.process k)).Charged (s.shared.pcbs k)

/-- The step in which a process decrements the count. -/
def Notifies (k : Nat) (s s' : State) : Prop :=
  s.pc (.process k) = .decrement ∧ s'.pc (.process k) = .unlockRqDone

instance (k : Nat) (s s' : State) : Decidable (Notifies k s s') := inferInstanceAs (Decidable (_ ∧ _))

section Accounting

variable {workload : Workload} {s s' : State} {l : Label Thread}

/-- A process and its pcb, over a step: what is known stays known, and it is notified by
decrementing. -/
theorem charge_step (hplaces : PlaceInv s) (hcharge : ChargeInv s)
    (hstep : (cfs workload).step l s = some s') (k : Nat) :
    (s'.pc (.process k)).Charged (s'.shared.pcbs k) ∧
      (Notified s' k ↔ Notified s k ∨ Notifies k s s') := by
  unfold Notified Notifies
  rcases step_process hplaces hstep k with ⟨-, hadvance⟩ | ⟨hpc, ⟨state, hpcb⟩ | ⟨hfresh, hcpu⟩⟩
  · obtain ⟨hcharged, hnotified⟩ := process_charged hadvance (hcharge k)
    refine ⟨hcharged, hnotified.trans (or_congr_right ⟨fun hp => ⟨hp, ?_⟩, fun h => h.1⟩)⟩
    rw [hp] at hadvance
    exact (Prod.mk.inj (Option.some.inj hadvance)).2.symm
  · rw [hpc, hpcb, charged_setState.1, charged_setState.2]
    refine ⟨hcharge k, ?_⟩
    grind
  · rw [hpc, hfresh]
    exact ⟨hcpu, by simp [ProcessPC.Notified]⟩

theorem not_notified_of_notifies {k : Nat} (h : Notifies k s s') : ¬ Notified s k := by
  unfold Notified
  rw [h.1]
  exact id

/-- The count goes down by one when a process notifies, and is set once, by the scheduler. -/
theorem step_remaining (hstep : (cfs workload).step l s = some s') :
    (∃ k, Notifies k s s' ∧ (∀ j, Notifies j s s' → j = k) ∧
      s'.pc .scheduler = s.pc .scheduler ∧
      s'.shared.remainingProcessCount = s.shared.remainingProcessCount - 1) ∨
    ((∀ j, ¬ Notifies j s s') ∧
      (s.pc .scheduler = .start → s'.pc .scheduler = .start ∨
        s'.shared.remainingProcessCount = workload.totalProcessCount) ∧
      (s.pc .scheduler ≠ .start → s'.pc .scheduler ≠ .start ∧
        s'.shared.remainingProcessCount = s.shared.remainingProcessCount)) := by
  have hstill : ∀ j, s'.pc (.process j) = s.pc (.process j) → ¬ Notifies j s s' := by
    rintro j hpc ⟨hp, hnext⟩
    rw [hpc, hp] at hnext
    cases hnext
  cases scheduleStep_of_step hstep with
  | process k next hadvance hself hother =>
      have hremaining := (process_effect hadvance).remaining
      have hscheduler : s'.pc .scheduler = s.pc .scheduler := hother _ (by simp)
      have honly : ∀ j, Notifies j s s' → j = k := by
        intro j hj
        by_contra h
        exact hstill j (hother _ (by simpa using h)) hj
      by_cases hp : s.pc (.process k) = .decrement
      · left
        rw [if_pos hp] at hremaining
        refine ⟨k, ⟨hp, ?_⟩, honly, hscheduler, hremaining⟩
        rw [hself]
        rw [hp] at hadvance
        exact (Prod.mk.inj (Option.some.inj hadvance)).2.symm
      · right
        rw [if_neg hp] at hremaining
        refine ⟨?_, fun h => Or.inl (by rw [hscheduler, h]), fun h => ⟨by rwa [hscheduler],
          hremaining⟩⟩
        intro j hj
        obtain rfl := honly j hj
        exact hp hj.1
  | scheduler next hadvance hself hother =>
      have heffect := scheduler_effect hadvance
      right
      refine ⟨fun j => hstill j (hother _ (by simp)), fun h => Or.inr ?_, fun h => ⟨?_, ?_⟩⟩
      · rw [heffect.remaining, if_pos h]
      · rw [hself]
        exact heffect.started
      · rw [heffect.remaining, if_neg h]
  | same hsame hscheduler hprocess =>
      right
      exact ⟨fun j => hstill j (hprocess j), fun h => Or.inl (by rw [hscheduler, h]),
        fun h => ⟨by rwa [hscheduler], hsame.remaining⟩⟩

/-- Before the scheduler has begun, no process runs. -/
def Fresh (s : State) : Prop :=
  s.pc .scheduler = .start → ∀ k, (cpuOf s).called k = false ∧ (s.shared.pcbs k).cpuTime = 0

theorem Fresh.step (hfresh : Fresh s) (hinv : Inv workload s)
    (hstep : (cfs workload).step l s = some s') : Fresh s' := by
  intro hstart' k
  have hstart : s.pc .scheduler = .start := by
    rcases step_remaining hstep with ⟨-, -, -, hscheduler, -⟩ | ⟨-, -, hkeep⟩
    · rw [← hscheduler, hstart']
    · by_contra h
      exact (hkeep h).1 hstart'
  obtain ⟨hcalled, hcpu⟩ := hfresh hstart k
  refine ⟨?_, ?_⟩
  · rw [← Bool.not_eq_true]
    intro hcalled'
    rcases cpuOf_step hinv hstep with h | h
    · rw [h, hcalled] at hcalled'
      cases hcalled'
    · rw [h.called_of (by show schedulerGrant (s'.pc .scheduler) = .idle; rw [hstart']; rfl)
        hcalled'] at hcalled
      cases hcalled
  · rcases step_process hinv.places hstep k with
      ⟨-, hadvance⟩ | ⟨-, ⟨state, hpcb⟩ | ⟨-, hzero⟩⟩
    · rw [(process_effect hadvance).cpuTime, hcpu]
      -- a slice is for a process that has been called
      intro hrun
      have hphase : (cpuOf s).phase k = .entered := by
        show processPhase (s.pc (.process k)) = .entered
        rw [hrun]
        rfl
      rw [hinv.cpu.phase_called k (Or.inl hphase)] at hcalled
      cases hcalled
    · rw [hpcb]
      exact hcpu
    · exact hzero

theorem Fresh.not_notified (hfresh : Fresh s) (hcharge : ChargeInv s)
    (hstart : s.pc .scheduler = .start) (k : Nat) : ¬ Notified s k := by
  intro hnotified
  have hcharged := hcharge k
  have hzero := (hfresh hstart k).2
  unfold Notified at hnotified
  cases hp : s.pc (.process k) <;> rw [hp] at hcharged hnotified <;>
    simp only [ProcessPC.Charged, ProcessPC.Notified] at hcharged hnotified <;> omega

/-! ## The count -/

open scoped Classical in
/-- The processes that have called `notify_process_termination`. -/
noncomputable def notified (n : Nat) (s : State) : Finset Nat :=
  (Finset.range n).filter (Notified s)

structure AccountInv (workload : Workload) (s : State) : Prop where
  inv : Inv workload s
  creation : CreationInv workload s
  charged : ChargeInv s
  fresh : Fresh s
  remaining : s.pc .scheduler ≠ .start →
    s.shared.remainingProcessCount + (notified workload.processes.length s).card
      = workload.totalProcessCount

/-- **Every step keeps the account.** -/
theorem AccountInv.step (hinv : AccountInv workload s) (hstep : (cfs workload).step l s = some s') :
    AccountInv workload s' := by
  have hcharge := charge_step hinv.inv.places hinv.charged hstep
  refine ⟨hinv.inv.step hstep, hinv.creation.step hstep, fun k => (hcharge k).1,
    hinv.fresh.step hinv.inv hstep, fun hpast => ?_⟩
  rcases step_remaining hstep with ⟨k, hk, honly, hscheduler, hremaining⟩ | ⟨hnone, hset, hkeep⟩
  · -- one process more has notified
    have hlt : k < workload.processes.length := by
      refine lt_of_lt_of_le ?_ hinv.creation.created_le
      by_contra h
      have := hinv.inv.places.fresh k (not_lt.mp h)
      rw [hk.1] at this
      cases this
    have hset : notified workload.processes.length s'
        = insert k (notified workload.processes.length s) := by
      ext j
      have hj := (hcharge j).2
      by_cases h : j = k
      · subst h
        simp [notified, hj, hk, hlt]
      · have : ¬ Notifies j s s' := fun h' => h (honly j h')
        simp [notified, hj, this, h]
    have hfresh : k ∉ notified workload.processes.length s := by
      simp [notified, not_notified_of_notifies hk]
    rw [hset, Finset.card_insert_of_notMem hfresh, hremaining]
    rw [hscheduler] at hpast
    have := hinv.remaining hpast
    push_cast
    omega
  · -- nobody has
    have hsame : notified workload.processes.length s'
        = notified workload.processes.length s := by
      ext j
      simp [notified, (hcharge j).2, hnone j]
    rw [hsame]
    by_cases hstart : s.pc .scheduler = .start
    · have hempty : notified workload.processes.length s = ∅ := by
        ext j
        simp [notified, hinv.fresh.not_notified hinv.charged hstart j]
      rcases hset hstart with h | h
      · exact absurd h hpast
      · rw [h, hempty]
        simp
    · rw [(hkeep hstart).2]
      exact hinv.remaining hstart

theorem AccountInv.reachable (hs : (cfs workload).Reachable s) : AccountInv workload s := by
  apply hs.invariant
  · refine ⟨Inv.reachable System.reachable_init, CreationInv.reachable System.reachable_init,
      fun k => rfl, fun _ k => ⟨rfl, rfl⟩, fun h => absurd rfl h⟩
  · exact fun s l s' hinv hstep => hinv.step hstep

/-- The count is zero when everybody has notified. -/
theorem AccountInv.zero_iff (hinv : AccountInv workload s)
    (htotal : workload.totalProcessCount = workload.processes.length)
    (hpast : s.pc .scheduler ≠ .start) : s.shared.remainingProcessCount = 0 ↔
      ∀ k, k < workload.processes.length → Notified s k := by
  classical
  have hremaining := hinv.remaining hpast
  have hle := Finset.card_filter_le (Finset.range workload.processes.length) (Notified s)
  have hall := Finset.card_filter_eq_iff (s := Finset.range workload.processes.length)
    (p := Notified s)
  simp only [Finset.card_range, Finset.mem_range] at hle hall
  rw [← hall]
  unfold notified at hremaining
  omega

/-- **The scheduler shuts down when everybody has notified.** -/
theorem notified_of_shutDown (htotal : workload.totalProcessCount = workload.processes.length)
    (hs : (cfs workload).Reachable s) (hdown : (s.pc .scheduler).ShutDown) :
    ∀ k, k < workload.processes.length → Notified s k := by
  have hboth : AccountInv workload s ∧ ((s.pc .scheduler).ShutDown →
      ∀ k, k < workload.processes.length → Notified s k) := by
    apply hs.invariant
    · exact ⟨AccountInv.reachable System.reachable_init, fun h => absurd h id⟩
    · rintro s l s' ⟨hinv, hnotified⟩ hstep
      refine ⟨hinv.step hstep, fun hdown' k hk => ?_⟩
      apply (charge_step hinv.inv.places hinv.charged hstep k).2.mpr
      left
      rcases Threads.step_pc hstep .scheduler with hpc | ⟨-, hadvance⟩
      · rw [hpc] at hdown'
        exact hnotified hdown' k hk
      · rcases (scheduler_effect hadvance).shutDown hdown' with h | ⟨hp, hzero⟩
        · exact hnotified h k hk
        · exact (hinv.zero_iff htotal (by rw [hp]; simp)).mp hzero k hk
  exact hboth.2 hdown

end Accounting

/-! ## Runs -/

/-- How often a process has called `notify_process_termination`. -/
def notifications (workload : Workload) (k : Nat) (ls : List (Label Thread)) : Nat :=
  (cfs workload).count (fun s s' => decide (Notifies k s s')) ls (cfs workload).init

/-- The process has reached the tail of its thread, or has called `notify_process_termination` on
the way there. -/
def Completed (workload : Workload) (ls : List (Label Thread)) (s : State) (k : Nat) : Prop :=
  (s.pc (.process k)).Finished ∨ 0 < notifications workload k ls

open scoped Classical in
/-- The account is right after a run, once the scheduler has begun. -/
structure Accounted (workload : Workload) (ls : List (Label Thread)) (s : State) : Prop where
  remaining : s.shared.remainingProcessCount = workload.totalProcessCount
    - ((Finset.range workload.processes.length).filter (Completed workload ls s)).card
  once : ∀ k, notifications workload k ls = if Completed workload ls s k then 1 else 0
  zero_iff : s.shared.remainingProcessCount = 0 ↔
    ∀ k, k < workload.processes.length → Completed workload ls s k
  /-- The scheduler leaves its loop exactly if all processes have completed. -/
  exits : s.pc .scheduler = .whileRemaining → ∀ s', (cfs workload).step (.run .scheduler) s = some s' →
    (s'.pc .scheduler = .destroy ↔ ∀ k, k < workload.processes.length → Completed workload ls s k)

section Runs

variable {workload : Workload} {ls : List (Label Thread)} {s : State}

open scoped Classical in
/-- A process notifies once at most. -/
theorem notifications_eq (hrun : (cfs workload).run ls (cfs workload).init = some s) (k : Nat) :
    notifications workload k ls = if Notified s k then 1 else 0 := by
  have hcount := System.count_eq (fun s s' => decide (Notifies k s s'))
    (fun s => if Notified s k then 1 else 0) (P := AccountInv workload)
    (fun s l s' hinv hstep => hinv.step hstep) ?_ (AccountInv.reachable System.reachable_init) hrun
  · have hinit : ¬ Notified (cfs workload).init k := id
    rw [if_neg hinit, Nat.zero_add] at hcount
    exact hcount.symm
  · intro s l s' hinv hstep
    have hk := (charge_step hinv.inv.places hinv.charged hstep k).2
    by_cases h : Notifies k s s'
    · simp [hk, h, not_notified_of_notifies h]
    · simp [hk, h]

/-- With a positive length, the way to the tail leads past the notification. -/
theorem completed_iff (hrun : (cfs workload).run ls (cfs workload).init = some s)
    (hpositive : ∀ params ∈ workload.creatable, 0 < params.length) (k : Nat) :
    Completed workload ls s k ↔ Notified s k := by
  have hinv : AccountInv workload s := AccountInv.reachable ⟨ls, hrun⟩
  unfold Completed
  rw [notifications_eq hrun]
  constructor
  · rintro (hfinished | hnotified)
    · have hcreated : k < s.shared.created := by
        by_contra h
        rw [hinv.inv.places.fresh k (not_lt.mp h)] at hfinished
        exact hfinished
      obtain ⟨params, hparams, hidentity⟩ := hinv.creation.creatable hcreated
      have hlength : (s.shared.pcbs k).processLength = params.length :=
        congrArg (fun identity => identity.2.2) hidentity
      have hused := hinv.inv.places.finished k hfinished
      have hlt := hpositive params (List.mem_of_getElem? hparams)
      have hboth : 0 < (s.shared.pcbs k).cpuTime ∧
          (s.shared.pcbs k).processLength ≤ (s.shared.pcbs k).cpuTime := ⟨by omega, hused⟩
      unfold Notified
      cases hp : s.pc (.process k) <;> rw [hp] at hfinished <;>
        first | exact hboth | exact absurd hfinished id
    · by_contra h
      rw [if_neg h] at hnotified
      exact absurd hnotified (lt_irrefl 0)
  · intro h
    rw [if_pos h]
    exact Or.inr one_pos

theorem accounted (htotal : workload.totalProcessCount = workload.processes.length)
    (hpositive : ∀ params ∈ workload.creatable, 0 < params.length)
    (hrun : (cfs workload).run ls (cfs workload).init = some s)
    (hpast : s.pc .scheduler ≠ .start) : Accounted workload ls s := by
  classical
  have hinv : AccountInv workload s := AccountInv.reachable ⟨ls, hrun⟩
  have hcompleted := completed_iff hrun hpositive
  have hremaining := hinv.remaining hpast
  have hzero : s.shared.remainingProcessCount = 0 ↔
      ∀ k, k < workload.processes.length → Completed workload ls s k := by
    simp only [hcompleted]
    exact hinv.zero_iff htotal hpast
  refine ⟨?_, ?_, hzero, ?_⟩
  · have hsame : (Finset.range workload.processes.length).filter (Completed workload ls s)
        = notified workload.processes.length s := by
      ext k
      simp [notified, hcompleted]
    rw [← hremaining]
    convert (add_sub_cancel_right _ _).symm
  · intro k
    rw [notifications_eq hrun]
    simp only [hcompleted]
  · intro htest s' hstep
    have hmode := scheduler_running hinv.inv.locks (by rw [htest]; simp)
    have hinstr : (program workload).instr .scheduler (s.pc .scheduler)
        = schedulerInstr workload .whileRemaining := by rw [htest]; rfl
    have hnext := (Threads.step_exec hmode hinstr rfl).symm.trans hstep
    rw [← hzero]
    cases hnext
    by_cases h : s.shared.remainingProcessCount = 0 <;> simp [h]

/-- A process without a length completes without a notification. -/
theorem not_accounted {k : Nat} {params : ProcessParams}
    (hparams : workload.creatable[k]? = some params) (hlength : params.length ≤ 0) :
    ∃ ls s, (cfs workload).run ls (cfs workload).init = some s ∧ s.pc .scheduler ≠ .start ∧
      ¬ Accounted workload ls s := by
  obtain ⟨hk, -⟩ := List.getElem?_eq_some_iff.mp hparams
  obtain ⟨ls, s, hrun, harrived⟩ := exists_arrived_creatable hk
  refine ⟨ls, s, hrun, by rw [harrived.scheduler]; simp, fun h => ?_⟩
  have hgone : s.pc (.process k) = .departure := by
    exact harrived.gone k params (Nat.lt_succ_self k) (Workload.getElem?_processes hparams) hlength
  have hcompleted : Completed workload ls s k := Or.inl (by rw [hgone]; trivial)
  have hnotified : ¬ Notified s k := by
    unfold Notified
    rw [hgone]
    simp [ProcessPC.Notified, harrived.unused k]
  have honce := h.once k
  rw [notifications_eq hrun, if_neg hnotified, if_pos hcompleted] at honce
  cases honce

end Runs

/-- **The account is right exactly if every process that can be created has a positive length.** -/
theorem accounted_iff (workload : Workload)
    (htotal : workload.totalProcessCount = workload.processes.length) :
    (∀ ls s, (cfs workload).run ls (cfs workload).init = some s → s.pc .scheduler ≠ .start →
      Accounted workload ls s) ↔ ∀ params ∈ workload.creatable, 0 < params.length := by
  constructor
  · intro h params hmem
    by_contra hlength
    obtain ⟨k, hk⟩ := List.mem_iff_getElem?.mp hmem
    obtain ⟨ls, s, hrun, hpast, hnot⟩ := not_accounted hk (not_lt.mp hlength)
    exact hnot (h ls s hrun hpast)
  · intro hpositive ls s hrun hpast
    exact accounted htotal hpositive hrun hpast

/-- One process with a second slice to go. -/
def longProcess : Workload where
  processes := [{ length := 1000, priority := 0, interarrivalTime := 0 }]
  totalProcessCount := 1
  maxRunqueueLength := 10

theorem accounted_iff_longProcess :
    (∀ params ∈ longProcess.creatable, 0 < params.length) ∧
      ∀ ls s, (cfs longProcess).run ls (cfs longProcess).init = some s →
        s.pc .scheduler ≠ .start → Accounted longProcess ls s := by
  have hpositive : ∀ params ∈ longProcess.creatable, 0 < params.length := by decide
  exact ⟨hpositive, (accounted_iff longProcess rfl).mpr hpositive⟩

/-- One process, of length zero. -/
def emptyProcess : Workload where
  processes := [{ length := 0, priority := 0, interarrivalTime := 0 }]
  totalProcessCount := 1
  maxRunqueueLength := 10

/-- It completes, and the count stays at one. -/
theorem not_accounted_emptyProcess :
    ¬ ∀ ls s, (cfs emptyProcess).run ls (cfs emptyProcess).init = some s →
      s.pc .scheduler ≠ .start → Accounted emptyProcess ls s := by
  intro h
  have hfirst : emptyProcess.creatable[0]? = some ⟨0, 0, 0⟩ := rfl
  obtain ⟨ls, s, hrun, hpast, hnot⟩ := not_accounted hfirst le_rfl
  exact hnot (h ls s hrun hpast)

end Cs342.Cfs
