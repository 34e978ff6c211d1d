import Mathlib
import Cs342.Cfs.Creation

/-!
# Processes that arrive one after the other
-/

namespace Cs342.Cfs

open Threads (Label)

/-- The processes that enter the queue. -/
def positive (processes : List ProcessParams) : Nat :=
  processes.countP fun params => 0 < params.length

/-- The scheduler has not got further than the test of its loop, `i` processes have been created,
and each of them has run for as long as nobody else is needed. -/
structure Arrived (workload : Workload) (i : Nat) (p : GeneratorPC) (s : State) : Prop where
  scheduler : s.pc .scheduler = .whileRemaining
  generator : s.pc .generator = p
  created : s.shared.created = i
  mode : ∀ t, s.mode t = .running
  owner : s.owner .runqueue = none
  kept : s.shared.argumentsFreed = false
  queue : ∃ rq, s.shared.rq = some rq ∧ rq.count = 0 ∧
    rq.head.length = positive (workload.processes.take i)
  unused : ∀ k, (s.shared.pcbs k).cpuTime = 0
  gone : ∀ k params, k < i → workload.processes[k]? = some params → params.length ≤ 0 →
    s.pc (.process k) = .departure

section Arrivals

variable {workload : Workload} {i : Nat} {s : State}

section Steps

variable (workload)

/-- A process that enters the queue, up to the call of `signal_scheduler_new_process`. -/
theorem run_enters {k : Nat} {rq : Runqueue} (hmode : s.mode (.process k) = .running)
    (hp : s.pc (.process k) = .notCreated) (hcreated : k < s.shared.created)
    (howner : s.owner .runqueue = none) (hkept : s.shared.argumentsFreed = false)
    (hrq : s.shared.rq = some rq)
    (hlength : (s.shared.pcbs k).cpuTime < (s.shared.pcbs k).processLength) :
    ∃ s', (cfs workload).run (turns (.process k) 6) s = some s' ∧
      s'.pc = Function.update s.pc (.process k) .lockNew ∧ s'.mode = s.mode ∧
      s'.owner = s.owner ∧ s'.shared = { s.shared with
        rq := some (runqueueAddPcb rq k)
        locals := s'.shared.locals } := by
  simp [turns, List.replicate, System.run, Threads.Program.system, Threads.Program.step, program,
    processInstr, Threads.State.goto, Threads.State.setOwner, hmode, hp, hcreated, howner, hkept,
    hrq, hlength]

/-- A process without a length. -/
theorem run_leaves {k : Nat} (hmode : s.mode (.process k) = .running)
    (hp : s.pc (.process k) = .notCreated) (hcreated : k < s.shared.created)
    (hkept : s.shared.argumentsFreed = false)
    (hlength : (s.shared.pcbs k).processLength ≤ (s.shared.pcbs k).cpuTime) :
    ∃ s', (cfs workload).run (turns (.process k) 3) s = some s' ∧
      s'.pc = Function.update s.pc (.process k) .departure ∧ s'.mode = s.mode ∧
      s'.owner = s.owner ∧ s'.shared = { s.shared with locals := s'.shared.locals } := by
  simp [turns, List.replicate, System.run, Threads.Program.system, Threads.Program.step, program,
    processInstr, Threads.State.goto, hmode, hp, hcreated, hkept, not_lt.mpr hlength]

/-- The generator creates a process. -/
theorem run_create {params : ProcessParams} (hmode : s.mode .generator = .running)
    (hp : s.pc .generator = .whileNext)
    (hparams : workload.processes[s.shared.created]? = some params) :
    ∃ s', (cfs workload).run (turns .generator 2) s = some s' ∧
      s'.pc = Function.update s.pc .generator .sleep ∧ s'.mode = s.mode ∧ s'.owner = s.owner ∧
      s'.shared = { s.shared.setPcb s.shared.created (initPcb params (s.shared.created + 1)) with
        created := s.shared.created + 1 } := by
  simp [turns, List.replicate, System.run, Threads.Program.system, Threads.Program.step, program,
    generatorInstr, Threads.State.goto, hmode, hp, hparams]

/-- It asks for the length of the queue, and goes on. -/
theorem run_check {rq : Runqueue} (hmode : s.mode .generator = .running)
    (hp : s.pc .generator = .sleep) (howner : s.owner .runqueue = none)
    (hrq : s.shared.rq = some rq) (hcount : rq.count ≠ workload.maxRunqueueLength) :
    ∃ s', (cfs workload).run (turns .generator 4) s = some s' ∧
      s'.pc = Function.update s.pc .generator .whileNext ∧ s'.mode = s.mode ∧
      s'.owner = s.owner ∧ s'.shared = s.shared := by
  simp [turns, List.replicate, System.run, Threads.Program.system, Threads.Program.step, program,
    generatorInstr, Threads.State.goto, Threads.State.setOwner, hmode, hp, howner, hrq, hcount]

end Steps

/-- The scheduler takes its first step. -/
theorem arrived_zero (workload : Workload) :
    ∃ s, (cfs workload).run (turns .scheduler 1) (cfs workload).init = some s ∧
      Arrived workload 0 .whileNext s := by
  refine ⟨_, rfl, rfl, rfl, rfl, fun _ => rfl, rfl, rfl, ⟨_, rfl, rfl, rfl⟩, fun _ => rfl, ?_⟩
  intro k params hk
  cases hk

theorem positive_take_succ {processes : List ProcessParams} {params : ProcessParams}
    (h : processes[i]? = some params) :
    positive (processes.take (i + 1))
      = positive (processes.take i) + if 0 < params.length then 1 else 0 := by
  have hlast : processes.take (i + 1) = processes.take i ++ [params] := by
    rw [List.take_add_one, h]
    rfl
  rw [hlast, positive, List.countP_append, positive]
  split <;> simp [*]

/-- The new process has taken its steps; the others stay where they are. -/
theorem Arrived.extend {s' : State} {params : ProcessParams} {next : ProcessPC} (rq : Runqueue)
    (h : Arrived workload i .whileNext s) (hparams : workload.processes[i]? = some params)
    (hpc : s'.pc = Function.update (Function.update s.pc .generator .sleep) (.process i) next)
    (hmode : s'.mode = s.mode) (howner : s'.owner = s.owner) (hcreated : s'.shared.created = i + 1)
    (hkept : s'.shared.argumentsFreed = s.shared.argumentsFreed)
    (hpcbs : s'.shared.pcbs = Function.update s.shared.pcbs i (initPcb params (i + 1)))
    (hrq : s'.shared.rq = some rq) (hcount : rq.count = 0)
    (hqueue : rq.head.length = positive (workload.processes.take (i + 1)))
    (hgone : params.length ≤ 0 → next = .departure) : Arrived workload (i + 1) .sleep s' where
  scheduler := by rw [hpc]; exact h.scheduler
  generator := by rw [hpc]; rfl
  created := hcreated
  mode := by rw [hmode]; exact h.mode
  owner := by rw [howner]; exact h.owner
  kept := by rw [hkept]; exact h.kept
  queue := ⟨rq, hrq, hcount, hqueue⟩
  unused := by
    intro k
    rw [hpcbs, Function.update_apply]
    split
    · rfl
    · exact h.unused k
  gone := by
    intro k params' hk hparams' hlength
    rw [hpc]
    by_cases hki : k = i
    · subst hki
      rw [hparams] at hparams'
      cases hparams'
      rw [Function.update_self]
      exact hgone hlength
    · rw [Function.update_of_ne (by simpa using hki), Function.update_of_ne (by simp)]
      exact h.gone k params' (by omega) hparams' hlength

/-- **One process more.** -/
theorem Arrived.create (h : Arrived workload i .whileNext s) (hplaces : PlaceInv s)
    {params : ProcessParams} (hparams : workload.processes[i]? = some params) :
    ∃ ls s', (cfs workload).run ls s = some s' ∧ Arrived workload (i + 1) .sleep s' := by
  obtain ⟨rq, hrq, hcount, hqueue⟩ := h.queue
  obtain ⟨s₁, hrun₁, hpc₁, hmode₁, howner₁, hshared₁⟩ :=
    run_create workload (h.mode .generator) h.generator (by rw [h.created]; exact hparams)
  rw [h.created] at hshared₁
  have hmode : s₁.mode (.process i) = .running := by rw [hmode₁]; exact h.mode _
  have hcreated : i < s₁.shared.created := by rw [hshared₁]; exact Nat.lt_succ_self i
  have hpcbs : s₁.shared.pcbs = Function.update s.shared.pcbs i (initPcb params (i + 1)) := by
    rw [hshared₁]
    rfl
  have hpcb : s₁.shared.pcbs i = initPcb params (i + 1) := by
    rw [hpcbs, Function.update_self]
  have hfresh : s₁.pc (.process i) = .notCreated := by
    rw [hpc₁, Function.update_of_ne (by simp)]
    exact hplaces.fresh i h.created.le
  have hpositive := positive_take_succ hparams
  by_cases hlength : 0 < params.length
  · -- it enters the queue
    obtain ⟨s₂, hrun₂, hpc₂, hmode₂, howner₂, hshared₂⟩ := run_enters workload hmode
      hfresh hcreated (by rw [howner₁]; exact h.owner) (by rw [hshared₁]; exact h.kept)
      (by rw [hshared₁]; exact hrq) (by rw [hpcb]; exact hlength)
    rw [if_pos hlength] at hpositive
    refine ⟨_, s₂, System.run_trans hrun₁ hrun₂, h.extend (runqueueAddPcb rq i) hparams
      (by rw [hpc₂, hpc₁]) (by rw [hmode₂, hmode₁]) (by rw [howner₂, howner₁])
      (by rw [hshared₂, hshared₁]) (by rw [hshared₂, hshared₁]; rfl)
      (by rw [hshared₂]; exact hpcbs) (by rw [hshared₂]) hcount ?_
      (fun hle => absurd hlength (not_lt.mpr hle))⟩
    rw [hpositive, ← hqueue]
    rfl
  · -- it is past its loop at once
    obtain ⟨s₂, hrun₂, hpc₂, hmode₂, howner₂, hshared₂⟩ := run_leaves workload hmode
      hfresh hcreated (by rw [hshared₁]; exact h.kept) (by rw [hpcb]; exact not_lt.mp hlength)
    rw [if_neg hlength] at hpositive
    exact ⟨_, s₂, System.run_trans hrun₁ hrun₂, h.extend rq hparams (by rw [hpc₂, hpc₁])
      (by rw [hmode₂, hmode₁]) (by rw [howner₂, howner₁]) (by rw [hshared₂, hshared₁])
      (by rw [hshared₂, hshared₁]; rfl) (by rw [hshared₂]; exact hpcbs) (by rw [hshared₂, hshared₁]; exact hrq) hcount
      (by rw [hpositive]; exact hqueue) (fun _ => rfl)⟩

/-- The counter is not at the limit, whatever the length of the queue. -/
theorem Arrived.check (h : Arrived workload i .sleep s) (hlimit : workload.maxRunqueueLength ≠ 0) :
    ∃ s', (cfs workload).run (turns .generator 4) s = some s' ∧
      Arrived workload i .whileNext s' := by
  obtain ⟨rq, hrq, hcount, hqueue⟩ := h.queue
  obtain ⟨s', hrun, hpc, hmode, howner, hshared⟩ := run_check workload
    (h.mode .generator) h.generator h.owner hrq (by rw [hcount]; exact hlimit.symm)
  refine ⟨s', hrun, ?_⟩
  exact {
    scheduler := by rw [hpc]; exact h.scheduler
    generator := by rw [hpc, Function.update_self]
    created := by rw [hshared]; exact h.created
    mode := by rw [hmode]; exact h.mode
    owner := by rw [howner]; exact h.owner
    kept := by rw [hshared]; exact h.kept
    queue := by rw [hshared]; exact h.queue
    unused := by rw [hshared]; exact h.unused
    gone := by
      intro k params hk hparams hlength
      rw [hpc, Function.update_of_ne (by simp)]
      exact h.gone k params hk hparams hlength }

/-- With a limit other than zero, any number of processes can have arrived. -/
theorem exists_arrived (hlimit : workload.maxRunqueueLength ≠ 0) :
    ∀ i, i ≤ workload.processes.length → ∃ ls s,
      (cfs workload).run ls (cfs workload).init = some s ∧ Arrived workload i .whileNext s := by
  intro i
  induction i with
  | zero =>
      intro _
      obtain ⟨s, hrun, harrived⟩ := arrived_zero workload
      exact ⟨_, s, hrun, harrived⟩
  | succ i ih =>
      intro hi
      obtain ⟨ls, s, hrun, harrived⟩ := ih (by omega)
      obtain ⟨ms, s₁, hrun₁, harrived₁⟩ :=
        harrived.create (PlaceInv.reachable ⟨ls, hrun⟩) (List.getElem?_eq_getElem hi)
      obtain ⟨s₂, hrun₂, harrived₂⟩ := harrived₁.check hlimit
      exact ⟨_, s₂, System.run_trans (System.run_trans hrun hrun₁) hrun₂, harrived₂⟩

/-- **Every process that can be created arrives in some run.** -/
theorem exists_arrived_creatable {k : Nat} (hk : k < workload.creatable.length) :
    ∃ ls s, (cfs workload).run ls (cfs workload).init = some s ∧
      Arrived workload (k + 1) .sleep s := by
  have hbefore : k < workload.processes.length ∧ ∃ ls s,
      (cfs workload).run ls (cfs workload).init = some s ∧ Arrived workload k .whileNext s := by
    unfold Workload.creatable at hk
    split at hk
    · -- only the first one
      rw [List.length_take] at hk
      obtain ⟨s, hrun, harrived⟩ := arrived_zero workload
      obtain rfl : k = 0 := by omega
      exact ⟨by omega, _, s, hrun, harrived⟩
    · next hlimit => exact ⟨hk, exists_arrived hlimit k hk.le⟩
  obtain ⟨hlt, ls, s, hrun, harrived⟩ := hbefore
  obtain ⟨ms, s', hrun', harrived'⟩ :=
    harrived.create (PlaceInv.reachable ⟨ls, hrun⟩) (List.getElem?_eq_getElem hlt)
  exact ⟨_, s', System.run_trans hrun hrun', harrived'⟩

end Arrivals

end Cs342.Cfs
