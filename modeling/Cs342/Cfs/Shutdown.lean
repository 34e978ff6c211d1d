import Mathlib
import Cs342.Cfs.Publishing

/-!
# What the scheduler destroys

When the count of remaining processes is zero, the scheduler destroys its mutexes and its condition
variable and frees the queue. The last process may not have called
`signal_scheduler_terminated_process` by then, and the generator may still ask for the length of the
queue: **`shutdown_safe_iff`** says that the shutdown is safe exactly if it finds every process past
the signal and the generator past its last check (`Quiet`). All processes have been counted, so from
a quiet state on no step leads back to the destroyed objects; from any other state one does.
-/

namespace Cs342.Cfs

open Threads (Label LockInv)

/-- The mutexes that are destroyed. -/
def Mutex.Destroyed : Mutex → Prop
  | .needScheduling | .runqueue => True
  | .pcb _ => False

def CondVar.Destroyed : CondVar → Prop
  | .needScheduling => True
  | .pcb _ => False

/-- The instruction locks, unlocks, waits or signals. -/
def Destroyed {PC : Type} : Instr PC → Prop
  | .lock m _ | .unlock m _ => m.Destroyed
  | .wait c m _ => c.Destroyed ∨ m.Destroyed
  | .signal c _ => c.Destroyed
  | _ => False

/-- The points that call the operations of `cfs.c` on `rq`. -/
def UsesRq : (t : Thread) → PC t → Prop
  | .process _, .add | .process _, .run => True
  | _, _ => False

/-- The thread is about to use one of the objects. -/
def Touches (workload : Workload) (s : State) (t : Thread) : Prop :=
  match s.mode t with
  | .running => Destroyed ((program workload).instr t (s.pc t)) ∨ UsesRq t (s.pc t)
  | .woken m => m.Destroyed
  | .sleeping _ _ => False

/-- A step of another thread that uses one of the objects. -/
def TouchingStep (workload : Workload) (s : State) (l : Label Thread) : Prop :=
  ∃ t, t ≠ .scheduler ∧ (l = .run t ∨ ∃ w, l = .wake t w) ∧ Touches workload s t

/-- No step of another thread uses one of the objects ever again. -/
def Untouched (workload : Workload) (s : State) : Prop :=
  ∀ ls l t u, (cfs workload).run ls s = some t → (cfs workload).step l t = some u →
    ¬ TouchingStep workload t l

/-- Between the decrement and the end of `signal_scheduler_terminated_process`. -/
def ProcessPC.Signalling : ProcessPC → Prop
  | .unlockRqDone | .lockTerminated | .clearRunning | .signalTerminated | .unlockTerminated => True
  | _ => False

/-- The generator does not ask for the length of the queue. -/
def GeneratorPC.Past : GeneratorPC → Prop
  | .whileNext | .pthreadExit | .exited => True
  | _ => False

/-- Every process is past its signal, and the generator past its last check. -/
structure Quiet (s : State) : Prop where
  processes : ∀ k, ¬ (s.pc (.process k)).Signalling
  generator : (s.pc .generator).Past

section Quiet

variable {workload : Workload} {s s' : State} {l : Label Thread}

/-- The state after the end of the scheduler's loop, with everybody counted. -/
structure Counted (workload : Workload) (s : State) : Prop where
  reachable : (cfs workload).Reachable s
  shutDown : (s.pc .scheduler).ShutDown

theorem scheduler_down {shared shared' : Shared} {p next : SchedulerPC}
    (h : (schedulerInstr workload p).advance shared = some (shared', next)) (hp : p.ShutDown) :
    next.ShutDown := by
  cases p with
  | destroy => cases h; trivial
  | freeRq => cases h; trivial
  | pthreadExit => cases h; trivial
  | exited => cases h
  | _ => exact absurd hp id

theorem Counted.step (h : Counted workload s) (hstep : (cfs workload).step l s = some s') :
    Counted workload s' := by
  refine ⟨h.reachable.step hstep, ?_⟩
  rcases Threads.step_pc hstep .scheduler with hpc | ⟨-, hadvance⟩
  · rw [hpc]
    exact h.shutDown
  · exact scheduler_down hadvance h.shutDown

/-- Everybody has been created. -/
theorem Counted.created_eq (h : Counted workload s)
    (htotal : workload.totalProcessCount = workload.processes.length) :
    s.shared.created = workload.processes.length := by
  have hplaces := PlaceInv.reachable h.reachable
  apply le_antisymm (CreationInv.reachable h.reachable).created_le
  by_contra hlt
  have hnotified := notified_of_shutDown htotal h.reachable h.shutDown s.shared.created
    (not_le.mp hlt)
  unfold Notified at hnotified
  rw [hplaces.fresh _ le_rfl] at hnotified
  exact hnotified

/-- A process is past its decrement, or there is none. -/
theorem Counted.process (h : Counted workload s)
    (htotal : workload.totalProcessCount = workload.processes.length) (k : Nat) :
    Notified s k ∨ (s.pc (.process k) = .notCreated ∧ s.shared.created ≤ k) := by
  by_cases hk : k < workload.processes.length
  · exact Or.inl (notified_of_shutDown htotal h.reachable h.shutDown k hk)
  · right
    have hle : s.shared.created ≤ k := by rw [h.created_eq htotal]; exact not_lt.mp hk
    exact ⟨(PlaceInv.reachable h.reachable).fresh k hle, hle⟩

/-- From the signal on, a process whose length is used up goes on to its end. -/
theorem process_past {k : Nat} {shared shared' : Shared} {p next : ProcessPC}
    (h : (processInstr k p).advance shared = some (shared', next))
    (hp : p.Notified (shared.pcbs k)) (hpast : ¬ p.Signalling) : ¬ next.Signalling := by
  cases p <;> first
    | exact absurd trivial hpast
    | exact absurd hp id
    | skip
  all_goals
    simp only [processInstr, Threads.Instr.advance] at h
    grind [ProcessPC.Signalling, ProcessPC.Notified, Option.map_eq_some_iff]

/-- With nobody left to create, the generator leaves its loop. -/
theorem generator_past {shared shared' : Shared} {p next : GeneratorPC}
    (h : (generatorInstr workload p).advance shared = some (shared', next))
    (hall : workload.processes.length ≤ shared.created) (hp : p.Past) : next.Past := by
  cases p with
  | whileNext =>
      simp only [generatorInstr, Threads.Instr.advance, List.getElem?_eq_none hall] at h
      cases h
      trivial
  | pthreadExit => cases h; trivial
  | exited => cases h
  | _ => exact absurd hp id

theorem Quiet.step (hquiet : Quiet s) (hcounted : Counted workload s)
    (htotal : workload.totalProcessCount = workload.processes.length)
    (hstep : (cfs workload).step l s = some s') : Quiet s' := by
  refine ⟨fun k => ?_, ?_⟩
  · rcases Threads.step_pc hstep (.process k) with hpc | ⟨-, hadvance⟩
    · rw [hpc]
      exact hquiet.processes k
    · rcases hcounted.process htotal k with hnotified | ⟨hfresh, hle⟩
      · exact process_past hadvance hnotified (hquiet.processes k)
      · exact absurd ((process_frame hadvance).created hfresh) (not_lt.mpr hle)
  · rcases Threads.step_pc hstep .generator with hpc | ⟨-, hadvance⟩
    · rw [hpc]
      exact hquiet.generator
    · exact generator_past hadvance (hcounted.created_eq htotal).ge hquiet.generator

/-- **In a quiet state nobody is about to use the objects.** -/
theorem Quiet.not_touches (hquiet : Quiet s) (hcounted : Counted workload s)
    (htotal : workload.totalProcessCount = workload.processes.length) {t : Thread}
    (ht : t ≠ .scheduler) : ¬ Touches workload s t := by
  have hlocks := (Inv.reachable hcounted.reachable).locks
  cases t with
  | scheduler => exact absurd rfl ht
  | process k =>
      have hnot := hquiet.processes k
      have hprocess := hcounted.process htotal k
      unfold Notified at hprocess
      have hmode : s.mode (.process k) = .running := by
        apply process_running hlocks
        intro hp
        rw [hp] at hprocess
        rcases hprocess with h | ⟨h, -⟩
        · exact h
        · cases h
      unfold Touches
      rw [hmode]
      show ¬ (Destroyed (processInstr k (s.pc (.process k))) ∨ UsesRq (.process k) _)
      cases hp : s.pc (.process k) <;> rw [hp] at hnot hprocess <;>
        simp_all [ProcessPC.Signalling, ProcessPC.Notified, Destroyed, UsesRq, processInstr,
          Mutex.Destroyed]
  | generator =>
      have hpast := hquiet.generator
      unfold Touches
      rw [running_of_never_waits hlocks (by simp) (by simp)]
      show ¬ (Destroyed (generatorInstr workload (s.pc .generator)) ∨ UsesRq .generator _)
      cases hp : s.pc .generator <;> rw [hp] at hpast <;>
        simp_all [GeneratorPC.Past, Destroyed, UsesRq, generatorInstr]
  | main =>
      unfold Touches
      rw [running_of_never_waits hlocks (by simp) (by simp)]
      show ¬ (Destroyed (mainInstr (s.pc .main)) ∨ UsesRq .main _)
      cases s.pc .main <;> simp [Destroyed, UsesRq, mainInstr]
  | clock =>
      unfold Touches
      rw [running_of_never_waits hlocks (by simp) (by simp)]
      show ¬ (Destroyed (clockInstr (s.pc .clock)) ∨ UsesRq .clock _)
      simp [Destroyed, UsesRq, clockInstr]

/-- A quiet state stays quiet. -/
theorem Quiet.untouched (hquiet : Quiet s) (hcounted : Counted workload s)
    (htotal : workload.totalProcessCount = workload.processes.length) : Untouched workload s := by
  intro ls l t u hrun hstep
  obtain ⟨hquiet', hcounted'⟩ : Quiet t ∧ Counted workload t := by
    refine System.run_induction (P := fun s => Quiet s ∧ Counted workload s) ?_
      ⟨hquiet, hcounted⟩ hrun
    exact fun s l s' h hstep => ⟨h.1.step h.2 htotal hstep, h.2.step hstep⟩
  rintro ⟨thread, hne, -, htouches⟩
  exact hquiet'.not_touches hcounted' htotal hne htouches

/-! ## Where it is not quiet -/

theorem not_untouched_of_touches {t : Thread} (hne : t ≠ .scheduler)
    (hl : l = .run t ∨ ∃ w, l = .wake t w) (htouches : Touches workload s t)
    (hstep : (cfs workload).step l s = some s') : ¬ Untouched workload s :=
  fun h => h [] l s s' rfl hstep ⟨t, hne, hl, htouches⟩

theorem not_untouched_of_step (hstep : (cfs workload).step l s = some s')
    (h : ¬ Untouched workload s') : ¬ Untouched workload s := by
  intro huntouched
  apply h
  intro ls m t u hrun hm
  exact huntouched (l :: ls) m t u (by rw [System.run_cons hstep]; exact hrun) hm

/-- The thread unlocks one of the mutexes. -/
theorem not_untouched_of_unlock {t : Thread} {m : Mutex} {next : PC t}
    (hs : (cfs workload).Reachable s) (hne : t ≠ .scheduler) (hmode : s.mode t = .running)
    (hinstr : (program workload).instr t (s.pc t) = .unlock m next) (hheld : m ∈ held t (s.pc t))
    (hm : m.Destroyed) : ¬ Untouched workload s := by
  have howner : s.owner m = some t := by
    apply ((Inv.reachable hs).locks.owner_iff t m).mpr
    refine ⟨hheld, ?_⟩
    rw [hmode]
    simp [Threads.Mode.released]
  refine not_untouched_of_touches hne (Or.inl rfl) ?_ (Threads.step_unlock hmode hinstr howner)
  unfold Touches
  rw [hmode]
  left
  rw [hinstr]
  exact hm

/-- The thread locks one of the mutexes, unless another one holds it and uses it first. -/
theorem not_untouched_of_lock {t : Thread} {m : Mutex} {next : PC t}
    (hs : (cfs workload).Reachable s) (hne : t ≠ .scheduler) (hmode : s.mode t = .running)
    (hinstr : (program workload).instr t (s.pc t) = .lock m next) (hm : m.Destroyed)
    (howned : ∀ u, m ∈ held u (s.pc u) → ¬ Untouched workload s) : ¬ Untouched workload s := by
  cases howner : s.owner m with
  | none =>
      refine not_untouched_of_touches hne (Or.inl rfl) ?_ (Threads.step_lock hmode hinstr howner)
      unfold Touches
      rw [hmode]
      left
      rw [hinstr]
      exact hm
  | some u => exact howned u ((Inv.reachable hs).locks.owner_iff u m |>.mp howner).1

/-- The thread signals. -/
theorem not_untouched_of_signal {t : Thread} (next : PC t) {c : CondVar} (hne : t ≠ .scheduler)
    (hmode : s.mode t = .running)
    (hinstr : (program workload).instr t (s.pc t) = .signal c next) (hc : c.Destroyed) :
    ¬ Untouched workload s := by
  obtain ⟨l, s', hl, hstep⟩ := Threads.exists_step_signal hmode hinstr
  refine not_untouched_of_touches hne hl ?_ hstep
  unfold Touches
  rw [hmode]
  left
  rw [hinstr]
  exact hc

theorem not_untouched_of_process (hcounted : Counted workload s)
    (htotal : workload.totalProcessCount = workload.processes.length) {k : Nat} {m : Mutex}
    (hm : m.Destroyed) (hheld : m ∈ processHeld k (s.pc (.process k))) :
    ¬ Untouched workload s := by
  have hs := hcounted.reachable
  have hprocess := hcounted.process htotal k
  have hmode : s.pc (.process k) ≠ .whileReady → s.mode (.process k) = .running :=
    process_running (Inv.reachable hs).locks
  -- the points between a lock and the unlock
  have hunlocks : ∀ {p next}, s.pc (.process k) = p → p ≠ .whileReady →
      processInstr k p = .unlock m next → ¬ Untouched workload s := by
    intro p next hp hne hinstr
    have hunlock : (program workload).instr (.process k) (s.pc (.process k)) = .unlock m next := by
      rw [hp]
      exact hinstr
    exact not_untouched_of_unlock hs (by simp) (hmode (by rw [hp]; exact hne)) hunlock hheld hm
  unfold Notified at hprocess
  cases hp : s.pc (.process k) with
  | unlockRqDone =>
      rw [hp] at hheld
      obtain rfl | rfl : m = .pcb k ∨ m = .runqueue := by simpa [processHeld] using hheld
      · exact absurd hm id
      · exact hunlocks hp (by simp) rfl
  | clearRunning =>
      -- one step to the signal
      have hmode := hmode (by rw [hp]; simp)
      have hinstr : (program workload).instr (.process k) (s.pc (.process k))
          = processInstr k .clearRunning := by rw [hp]; rfl
      have hstep : (cfs workload).step (.run (.process k)) s = some _ :=
        Threads.step_exec hmode hinstr rfl
      refine not_untouched_of_step hstep (not_untouched_of_signal (t := .process k)
        .unlockTerminated (c := .needScheduling) (by simp) hmode ?_ trivial)
      rw [Threads.State.goto_pc_self]
      rfl
  | signalTerminated =>
      exact not_untouched_of_signal (t := .process k) .unlockTerminated (c := .needScheduling)
        (by simp) (hmode (by rw [hp]; simp)) (by rw [hp]; rfl) trivial
  | unlockTerminated =>
      rw [hp] at hheld
      obtain rfl | rfl : m = .pcb k ∨ m = .needScheduling := by
        simpa [processHeld] using hheld
      · exact absurd hm id
      · exact hunlocks hp (by simp) rfl
  | _ =>
      rw [hp] at hprocess hheld
      simp_all [ProcessPC.Notified, processHeld, Mutex.Destroyed]

theorem not_untouched_of_generator (hs : (cfs workload).Reachable s) {m : Mutex}
    (hm : m.Destroyed) (hheld : m ∈ generatorHeld (s.pc .generator)) :
    ¬ Untouched workload s := by
  have hmode := running_of_never_waits (Inv.reachable hs).locks (t := .generator) (by simp)
    (by simp)
  cases hp : s.pc .generator with
  | readCount =>
      rw [hp] at hheld
      obtain rfl : m = .runqueue := List.mem_singleton.mp hheld
      have hinstr : (program workload).instr .generator (s.pc .generator)
          = generatorInstr workload .readCount := by rw [hp]; rfl
      obtain ⟨s', hstep, hmode', count, hp'⟩ : ∃ s',
          (cfs workload).step (.run .generator) s = some s' ∧
          s'.mode .generator = .running ∧ ∃ count, s'.pc .generator = .unlockRq count :=
        ⟨_, Threads.step_exec hmode hinstr rfl, hmode, _, Threads.State.goto_pc_self _ _ _⟩
      apply not_untouched_of_step hstep
      refine not_untouched_of_unlock (t := .generator) (m := .runqueue) (hs.step hstep)
        (by simp) hmode' (by rw [hp']; rfl) ?_ hm
      rw [hp']
      simp [held, generatorHeld]
  | unlockRq count =>
      have hlocked : m ∈ held .generator (s.pc .generator) := hheld
      rw [hp] at hheld
      obtain rfl : m = .runqueue := List.mem_singleton.mp hheld
      exact not_untouched_of_unlock hs (by simp) hmode (by rw [hp]; rfl) hlocked hm
  | _ =>
      rw [hp] at hheld
      exact absurd hheld List.not_mem_nil

/-- **Whoever holds one of the mutexes is about to use it.** -/
theorem not_untouched_of_owner (hcounted : Counted workload s)
    (htotal : workload.totalProcessCount = workload.processes.length) {u : Thread} {m : Mutex}
    (hm : m.Destroyed) (hheld : m ∈ held u (s.pc u)) : ¬ Untouched workload s := by
  cases u with
  | scheduler =>
      -- when it shuts down, it holds nothing
      have hdown := hcounted.shutDown
      have hheld : m ∈ schedulerHeld (s.pc .scheduler) := hheld
      cases hp : s.pc .scheduler <;> rw [hp] at hdown hheld <;>
        first | exact absurd hdown id | exact absurd hheld List.not_mem_nil
  | process k => exact not_untouched_of_process hcounted htotal hm hheld
  | generator => exact not_untouched_of_generator hcounted.reachable hm hheld
  | main => exact absurd hheld List.not_mem_nil
  | clock => exact absurd hheld List.not_mem_nil

/-- **A process that is not past its signal uses the objects in some run.** -/
theorem not_untouched_of_signalling (hcounted : Counted workload s)
    (htotal : workload.totalProcessCount = workload.processes.length) {k : Nat}
    (hsignalling : (s.pc (.process k)).Signalling) : ¬ Untouched workload s := by
  have howner : ∀ {u m}, m.Destroyed → m ∈ held u (s.pc u) → ¬ Untouched workload s :=
    fun hm hheld => not_untouched_of_owner hcounted htotal hm hheld
  cases hp : s.pc (.process k) with
  | unlockRqDone =>
      apply howner (u := .process k) (m := .runqueue) trivial
      rw [hp]
      simp [held, processHeld]
  | lockTerminated =>
      refine not_untouched_of_lock (t := .process k) (m := .needScheduling) hcounted.reachable
        (by simp) ?_ (by rw [hp]; rfl) trivial
        (fun u hu => howner (m := .needScheduling) trivial hu)
      exact process_running (Inv.reachable hcounted.reachable).locks (by rw [hp]; simp)
  | clearRunning =>
      apply howner (u := .process k) (m := .needScheduling) trivial
      rw [hp]
      simp [held, processHeld]
  | signalTerminated =>
      apply howner (u := .process k) (m := .needScheduling) trivial
      rw [hp]
      simp [held, processHeld]
  | unlockTerminated =>
      apply howner (u := .process k) (m := .needScheduling) trivial
      rw [hp]
      simp [held, processHeld]
  | _ => rw [hp] at hsignalling; exact absurd hsignalling id

theorem not_untouched_of_asks (hcounted : Counted workload s)
    (htotal : workload.totalProcessCount = workload.processes.length)
    (hp : s.pc .generator = .lockRq) : ¬ Untouched workload s := by
  refine not_untouched_of_lock (t := .generator) (m := .runqueue) hcounted.reachable (by simp)
    ?_ (by rw [hp]; rfl) trivial fun u hu =>
      not_untouched_of_owner (m := .runqueue) hcounted htotal trivial hu
  exact running_of_never_waits (Inv.reachable hcounted.reachable).locks (by simp) (by simp)

/-- **So does a generator that is not past its last check.** -/
theorem not_untouched_of_polling (hcounted : Counted workload s)
    (htotal : workload.totalProcessCount = workload.processes.length)
    (hpolling : ¬ (s.pc .generator).Past) : ¬ Untouched workload s := by
  have hs := hcounted.reachable
  cases hp : s.pc .generator with
  | create params =>
      -- there is nothing left to create
      have hparams := (CreationInv.reachable hs).creates params hp
      rw [hcounted.created_eq htotal, List.getElem?_eq_none le_rfl] at hparams
      cases hparams
  | sleep =>
      have hmode := running_of_never_waits (Inv.reachable hs).locks (t := .generator) (by simp)
        (by simp)
      have hinstr : (program workload).instr .generator (s.pc .generator)
          = generatorInstr workload .sleep := by rw [hp]; rfl
      have hstep : (cfs workload).step (.run .generator) s = some _ :=
        Threads.step_exec hmode hinstr rfl
      refine not_untouched_of_step hstep (not_untouched_of_asks (hcounted.step hstep) htotal ?_)
      exact Threads.State.goto_pc_self _ _ _
  | lockRq => exact not_untouched_of_asks hcounted htotal hp
  | readCount =>
      apply not_untouched_of_owner hcounted htotal (u := .generator) (m := .runqueue) trivial
      rw [hp]
      simp [held, generatorHeld]
  | unlockRq count =>
      apply not_untouched_of_owner hcounted htotal (u := .generator) (m := .runqueue) trivial
      rw [hp]
      simp [held, generatorHeld]
  | _ => rw [hp] at hpolling; exact absurd trivial hpolling

theorem untouched_iff_quiet (hcounted : Counted workload s)
    (htotal : workload.totalProcessCount = workload.processes.length) :
    Untouched workload s ↔ Quiet s := by
  constructor
  · intro h
    refine ⟨fun k => ?_, ?_⟩
    · intro hsignalling
      exact not_untouched_of_signalling hcounted htotal hsignalling h
    · by_contra hpolling
      exact not_untouched_of_polling hcounted htotal hpolling h
  · exact fun h => h.untouched hcounted htotal

/-- The shutdown itself moves the scheduler only. -/
theorem freeRq_step (hs : (cfs workload).Reachable s) (hfree : s.pc .scheduler = .freeRq)
    (hstep : (cfs workload).step (.run .scheduler) s = some s') :
    Counted workload s' ∧ ∀ t, t ≠ .scheduler → s'.pc t = s.pc t := by
  have hmode := scheduler_running (Inv.reachable hs).locks (by rw [hfree]; simp)
  have hinstr : (program workload).instr .scheduler (s.pc .scheduler)
      = schedulerInstr workload .freeRq := by rw [hfree]; rfl
  have hnext := (Threads.step_exec hmode hinstr rfl).symm.trans hstep
  cases hnext
  refine ⟨⟨hs.step hstep, ?_⟩, fun t ht => Threads.State.goto_pc_of_ne _ ht _⟩
  rw [Threads.State.goto_pc_self]
  trivial

end Quiet

/-- **The shutdown is safe exactly if it comes in a quiet state**, in every run. -/
theorem shutdown_safe_iff (workload : Workload)
    (htotal : workload.totalProcessCount = workload.processes.length) (s s' : State)
    (hs : (cfs workload).Reachable s) (hfree : s.pc .scheduler = .freeRq)
    (hstep : (cfs workload).step (.run .scheduler) s = some s') :
    Untouched workload s' ↔ Quiet s := by
  obtain ⟨hcounted, hpc⟩ := freeRq_step hs hfree hstep
  rw [untouched_iff_quiet hcounted htotal]
  constructor
  · rintro ⟨hprocesses, hgenerator⟩
    rw [hpc _ (by simp)] at hgenerator
    refine ⟨fun k => ?_, hgenerator⟩
    have := hprocesses k
    rwa [hpc _ (by simp)] at this
  · rintro ⟨hprocesses, hgenerator⟩
    refine ⟨fun k => ?_, by rwa [hpc _ (by simp)]⟩
    rw [hpc _ (by simp)]
    exact hprocesses k

/-- The queue is freed while the only process is about to call
`signal_scheduler_terminated_process`. -/
theorem countedRun_frees : ∃ s s', (cfs oneProcess).Reachable s ∧ s.pc .scheduler = .freeRq ∧
    (cfs oneProcess).step (.run .scheduler) s = some s' ∧
    s'.pc (.process 0) = .lockTerminated := by
  have hbefore : ((cfs oneProcess).run (countedRun ++ turns .scheduler 3)
      (cfs oneProcess).init).map (fun s => s.pc .scheduler) = some .freeRq := by decide +kernel
  have hafter : ((cfs oneProcess).run (countedRun ++ turns .scheduler 3 ++ [.run .scheduler])
      (cfs oneProcess).init).map (fun s => s.pc (.process 0)) = some .lockTerminated := by
    decide +kernel
  obtain ⟨s, hs, hfree⟩ := Option.map_eq_some_iff.mp hbefore
  obtain ⟨s', hs', hprocess⟩ := Option.map_eq_some_iff.mp hafter
  rw [System.run_append, hs, Option.bind_some, System.run_singleton] at hs'
  exact ⟨s, s', ⟨_, hs⟩, hfree, hs', hprocess⟩

theorem shutdown_safe_iff_oneProcess : ∃ s s', (cfs oneProcess).Reachable s ∧
    (cfs oneProcess).step (.run .scheduler) s = some s' ∧
    (Untouched oneProcess s' ↔ Quiet s) := by
  obtain ⟨s, s', hs, hfree, hstep, -⟩ := countedRun_frees
  exact ⟨s, s', hs, hstep, shutdown_safe_iff oneProcess rfl s s' hs hfree hstep⟩

/-- The process goes on to lock the mutex that has been destroyed. -/
theorem shutdown_not_safe_oneProcess : ¬ ∀ s s', (cfs oneProcess).Reachable s →
    s.pc .scheduler = .freeRq → (cfs oneProcess).step (.run .scheduler) s = some s' →
    Untouched oneProcess s' := by
  intro h
  obtain ⟨s, s', hs, hfree, hstep, hprocess⟩ := countedRun_frees
  have hcounted := (freeRq_step hs hfree hstep).1
  apply not_untouched_of_signalling hcounted rfl (k := 0)
  · rw [hprocess]
    trivial
  · exact h s s' hs hfree hstep

end Cs342.Cfs
