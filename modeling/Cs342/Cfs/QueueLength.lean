import Mathlib
import Cs342.Cfs.Accounting

/-!
# The length of the run queue

The counter of the run queue is set to zero when the queue is made, and neither adding nor removing
a pcb writes it. It is right exactly where the queue is empty, after a sequence of operations
(`count_eq_length_iff`) as well as at a check of the generator (`reports_iff`). The generator stops
for a length it never sees, so it overruns its limit whenever there are enough processes
(`limited_of_noOverrun`); `queue_length_iff` is the three together.
-/

namespace Cs342.Cfs

open Threads (Label)

/-! ## Sequences of operations -/

/-- A call of `runqueue_add_pcb` or `runqueue_remove_pcb`. -/
inductive QueueOp where
  | add (pcb : Nat)
  | remove (pcb : Nat)
  deriving DecidableEq, Repr

def QueueOp.apply (rq : Runqueue) : QueueOp → Runqueue
  | .add pcb => runqueueAddPcb rq pcb
  | .remove pcb => runqueueRemovePcb rq pcb

/-- The queue after some calls. -/
def runOps (ops : List QueueOp) : Runqueue := ops.foldl QueueOp.apply runqueueInit

/-- In every final part of the sequence, every pcb is removed at least as often as it is added. -/
def Settled (ops : List QueueOp) : Prop :=
  ∀ last pcb, last <:+ ops → last.count (.add pcb) ≤ last.count (.remove pcb)

theorem runOps_concat (ops : List QueueOp) (op : QueueOp) :
    runOps (ops ++ [op]) = QueueOp.apply (runOps ops) op := by
  rw [runOps, List.foldl_append]
  rfl

theorem runOps_count (ops : List QueueOp) : (runOps ops).count = 0 := by
  induction ops using List.reverseRecOn with
  | nil => rfl
  | append_singleton ops op ih =>
      rw [runOps_concat]
      cases op <;> exact ih

/-- How often a pcb is queued, by induction on the last call: the excess of additions, over the
final part where it is largest. -/
theorem count_head_le_iff (ops : List QueueOp) (pcb n : Nat) :
    (runOps ops).head.count pcb ≤ n ↔
      ∀ last, last <:+ ops → last.count (.add pcb) ≤ last.count (.remove pcb) + n := by
  induction ops using List.reverseRecOn generalizing n with
  | nil =>
      simp [runOps, runqueueInit]
  | append_singleton ops op ih =>
      have hsuffix : (∀ last, last <:+ ops ++ [op] →
          last.count (.add pcb) ≤ last.count (.remove pcb) + n) ↔
          ∀ last, last <:+ ops →
            (last ++ [op]).count (.add pcb) ≤ (last ++ [op]).count (.remove pcb) + n := by
        constructor
        · intro h last hlast
          exact h _ (List.suffix_concat_iff.mpr (Or.inr ⟨last, rfl, hlast⟩))
        · intro h last hlast
          rcases List.suffix_concat_iff.mp hlast with rfl | ⟨last, rfl, hsuffix⟩
          · simp
          · exact h last hsuffix
      rw [runOps_concat, hsuffix]
      cases op with
      | add j =>
          show (j :: (runOps ops).head).count pcb ≤ n ↔ _
          by_cases h : j = pcb
          · subst h
            cases n with
            | zero =>
                -- the addition is not removed
                simp only [List.count_cons_self]
                constructor
                · intro h
                  omega
                · intro h
                  have := h [] List.nil_suffix
                  simp at this
            | succ n =>
                rw [List.count_cons_self, Nat.add_le_add_iff_right, ih n]
                simp [← Nat.add_assoc]
          · rw [List.count_cons_of_ne h, ih n]
            simp [h]
      | remove j =>
          show ((runOps ops).head.erase j).count pcb ≤ n ↔ _
          by_cases h : j = pcb
          · subst h
            rw [List.count_erase_self, Nat.sub_le_iff_le_add, ih (n + 1)]
            simp [Nat.add_assoc, Nat.add_comm 1]
          · rw [List.count_erase_of_ne (Ne.symm h), ih n]
            simp [h]

/-- **The counter is right exactly after sequences that leave the queue empty.** -/
theorem count_eq_length_iff (ops : List QueueOp) :
    (runOps ops).count = (runOps ops).head.length ↔ Settled ops := by
  have hempty : (runOps ops).head = [] ↔ ∀ pcb, (runOps ops).head.count pcb ≤ 0 := by
    constructor
    · intro h pcb
      rw [h]
      exact le_rfl
    · intro h
      apply List.eq_nil_iff_forall_not_mem.mpr
      intro pcb hmem
      exact absurd (h pcb) (not_le.mpr (List.count_pos_iff.mpr hmem))
  rw [runOps_count, eq_comm, Int.natCast_eq_zero, List.length_eq_zero_iff, hempty]
  simp only [count_head_le_iff, Nat.add_zero]
  exact ⟨fun h last pcb hlast => h pcb last hlast, fun h pcb last hlast => h last pcb hlast⟩

/-! ## The checks of the generator -/

/-- The step in which the generator reads the counter. -/
def checks (s s' : State) : Bool :=
  match s.pc .generator, s'.pc .generator with
  | .readCount, .unlockRq _ => true
  | _, _ => false

/-- The step in which it creates a process. -/
def Creates (s s' : State) : Prop :=
  s'.shared.created = s.shared.created + 1

/-- The run checks the queue `rq` in the step from `s` to `s'`. -/
def CheckIn (workload : Workload) (ls : List (Label Thread)) (s s' : State) (rq : Runqueue) : Prop :=
  ∃ before l after, ls = before ++ l :: after ∧
    (cfs workload).run before (cfs workload).init = some s ∧
    (cfs workload).step l s = some s' ∧ checks s s' = true ∧ s.shared.rq = some rq

/-- Every check of the run sees the length of the queue. -/
def Reports (workload : Workload) (ls : List (Label Thread)) : Prop :=
  ∀ s s' rq, CheckIn workload ls s s' rq → s'.pc .generator = .unlockRq rq.head.length

/-- No process is created after a check of a full queue, before the next check. -/
def NoOverrun (workload : Workload) : Prop :=
  ∀ ls s s' rq, CheckIn workload ls s s' rq → workload.maxRunqueueLength ≤ rq.head.length →
    ∀ ms l t t', (cfs workload).run ms s' = some t →
      (cfs workload).count checks ms s' = 0 → (cfs workload).step l t = some t' →
      ¬ Creates t t'

section Checks

variable {workload : Workload} {s s' : State} {l : Label Thread}

theorem pc_of_checks (h : checks s s' = true) :
    s.pc .generator = .readCount ∧ ∃ count, s'.pc .generator = .unlockRq count := by
  unfold checks at h
  split at h
  · next hp hp' => exact ⟨hp, _, hp'⟩
  · cases h

/-- A check sees zero. -/
theorem checks_zero (hs : (cfs workload).Reachable s) (hstep : (cfs workload).step l s = some s')
    (h : checks s s' = true) : s'.pc .generator = .unlockRq 0 := by
  obtain ⟨-, count, hp⟩ := pc_of_checks h
  rw [hp, (CreationInv.reachable (hs.step hstep)).checked count hp]

theorem reports_iff (workload : Workload) (ls : List (Label Thread)) :
    Reports workload ls ↔ ∀ s s' rq, CheckIn workload ls s s' rq → rq.head = [] := by
  refine forall_congr' fun s => forall_congr' fun s' => forall_congr' fun rq =>
    forall_congr' fun hin => ?_
  obtain ⟨before, l, after, -, hrun, hstep, hchecks, -⟩ := hin
  rw [checks_zero ⟨before, hrun⟩ hstep hchecks, GeneratorPC.unlockRq.injEq, eq_comm,
    Int.natCast_eq_zero, List.length_eq_zero_iff]

/-! ## The limit -/

/-- The processes in the queue are created ones with a length. -/
theorem queue_length_le (hs : (cfs workload).Reachable s) {rq : Runqueue}
    (hrq : s.shared.rq = some rq) :
    rq.head.length ≤ positive (workload.processes.take s.shared.created) := by
  have hinv : AccountInv workload s := AccountInv.reachable hs
  obtain ⟨hnodup, hmem⟩ := hinv.inv.queue hrq
  have hrange : ∀ n, n ≤ workload.processes.length → positive (workload.processes.take n)
      = ((List.range n).filter fun k =>
          workload.processes[k]?.any fun params => 0 < params.length).length := by
    intro n
    induction n with
    | zero => intro _; rfl
    | succ n ih =>
        intro hn
        have hparams : workload.processes[n]? = some (workload.processes[n]) :=
          List.getElem?_eq_getElem hn
        rw [positive_take_succ hparams, ih (by omega), List.range_succ, List.filter_append,
          List.length_append]
        congr 1
        by_cases h : 0 < (workload.processes[n]).length <;> simp [hparams, h]
  rw [hrange _ hinv.creation.created_le]
  apply List.Subperm.length_le
  apply List.subperm_of_subset hnodup
  intro k hk
  have hqueued := (hmem k).mp hk
  have hcreated : k < s.shared.created := by
    by_contra h
    rw [hinv.inv.places.fresh k (not_lt.mp h)] at hqueued
    exact hqueued
  obtain ⟨params, hparams, hidentity⟩ := hinv.creation.pcb k hcreated
  have hlength : (s.shared.pcbs k).processLength = params.length :=
    congrArg (fun identity => identity.2.2) hidentity
  have hcharged := hinv.charged k
  have hpositive : 0 < params.length := by
    rw [← hlength]
    cases hp : s.pc (.process k) <;> rw [hp] at hqueued hcharged <;>
      first | exact absurd hqueued id | exact hcharged.1.trans_lt hcharged.2
  rw [List.mem_filter]
  exact ⟨List.mem_range.mpr hcreated, by simp [hparams, hpositive]⟩

theorem created_mono {ls : List (Label Thread)} (hrun : (cfs workload).run ls s = some s') :
    s.shared.created ≤ s'.shared.created := by
  refine System.run_induction (P := fun t => s.shared.created ≤ t.shared.created) ?_ le_rfl hrun
  intro t l t' hle hstep
  refine hle.trans ?_
  cases step_of hstep with
  | process k next _ hadvance _ _ => exact (process_frame hadvance).created_eq.ge
  | scheduler next hadvance _ _ => exact (scheduler_frame hadvance).1.ge
  | generator next hadvance _ _ => exact (generator_frame hadvance).1
  | aside hshared _ => rw [hshared]

/-- There are too few processes to overrun the limit, or the generator never goes on. -/
def Limited (workload : Workload) : Prop :=
  workload.maxRunqueueLength = 0 ∨ workload.processes.length ≤ 1 ∨
    (positive workload.processes.dropLast : Int) < workload.maxRunqueueLength

theorem noOverrun_of_limited (h : Limited workload) : NoOverrun workload := by
  rintro ls s s' rq ⟨before, l, after, -, hrun, hstep, hchecks, hrq⟩ hfull ms m t t' hms - hm
    hcreates
  unfold Creates at hcreates
  have hs : (cfs workload).Reachable s := ⟨before, hrun⟩
  have hpolled : 0 < s.shared.created := by
    apply (CreationInv.reachable hs).polled
    rw [(pc_of_checks hchecks).1]
    trivial
  have hmono : s.shared.created ≤ t.shared.created := by
    have hrun' : (cfs workload).run (l :: ms) s = some t := by
      rw [System.run_cons hstep]
      exact hms
    exact created_mono hrun'
  have ht' : (cfs workload).Reachable t' := ((hs.step hstep).run hms).step hm
  have hle := (CreationInv.reachable ht').created_le
  rcases h with hzero | hone | hfew
  · -- the generator asks for ever after the first process
    rcases (CreationInv.reachable ht').limit hzero with h | ⟨h, -⟩ <;> omega
  · omega
  · -- the queue holds processes that were created before the check
    have hqueue := queue_length_le hs hrq
    have hsublist : positive (workload.processes.take s.shared.created)
        ≤ positive workload.processes.dropLast := by
      apply List.Sublist.countP_le
      rw [List.dropLast_eq_take]
      exact (List.take_prefix_take_left (by omega)).sublist
    omega

section Steps

variable (workload)

/-- The generator gets to its check. -/
theorem run_ask (hmode : s.mode .generator = .running) (hp : s.pc .generator = .sleep)
    (howner : s.owner .runqueue = none) :
    ∃ t, (cfs workload).run (turns .generator 2) s = some t ∧ t.pc .generator = .readCount ∧
      t.mode = s.mode ∧ t.owner .runqueue = some .generator ∧ t.shared = s.shared := by
  simp [turns, List.replicate, System.run, Threads.Program.system, Threads.Program.step, program,
    generatorInstr, Threads.State.goto, Threads.State.setOwner, hmode, hp, howner]

theorem step_check {rq : Runqueue} (hmode : s.mode .generator = .running)
    (hp : s.pc .generator = .readCount) (hrq : s.shared.rq = some rq) :
    ∃ t, (cfs workload).step (.run .generator) s = some t ∧ t.pc .generator = .unlockRq rq.count ∧
      t.mode = s.mode ∧ t.owner = s.owner ∧ t.shared = s.shared := by
  simp [Threads.Program.system, Threads.Program.step, program, generatorInstr, Threads.State.goto,
    hmode, hp, hrq]

/-- It goes on to the next process, without a check. -/
theorem run_goOn {count : Int} {params : ProcessParams} (hmode : s.mode .generator = .running)
    (hp : s.pc .generator = .unlockRq count) (howner : s.owner .runqueue = some .generator)
    (hcount : count ≠ workload.maxRunqueueLength)
    (hparams : workload.processes[s.shared.created]? = some params) :
    ∃ t, (cfs workload).run (turns .generator 2) s = some t ∧ t.pc .generator = .create params ∧
      t.mode = s.mode ∧ t.shared = s.shared ∧
      (cfs workload).count checks (turns .generator 2) s = 0 := by
  simp [turns, List.replicate, System.run, System.count, checks, Threads.Program.system,
    Threads.Program.step, program, generatorInstr, Threads.State.goto, Threads.State.setOwner,
    hmode, hp, howner, hcount, hparams]

theorem step_create {params : ProcessParams} (hmode : s.mode .generator = .running)
    (hp : s.pc .generator = .create params) :
    ∃ t, (cfs workload).step (.run .generator) s = some t ∧ Creates s t := by
  simp [Threads.Program.system, Threads.Program.step, program, generatorInstr, Threads.State.goto,
    Creates, hmode, hp]

end Steps

/-- **With enough processes, the limit is overrun**: all but the last one arrive and queue up. -/
theorem limited_of_noOverrun (h : NoOverrun workload) : Limited workload := by
  by_contra hnot
  obtain ⟨hlimit, hmany, hfull⟩ : workload.maxRunqueueLength ≠ 0 ∧ 2 ≤ workload.processes.length ∧
      workload.maxRunqueueLength ≤ (positive workload.processes.dropLast : Int) := by
    unfold Limited at hnot
    omega
  obtain ⟨n, hn⟩ : ∃ n, workload.processes.length = n + 2 :=
    ⟨workload.processes.length - 2, by omega⟩
  obtain ⟨ls₀, s₀, hrun₀, harrived₀⟩ := exists_arrived hlimit n (by omega)
  obtain ⟨ls₁, s₁, hrun₁, harrived₁⟩ := harrived₀.create (PlaceInv.reachable ⟨ls₀, hrun₀⟩)
    (List.getElem?_eq_getElem (by omega))
  obtain ⟨rq, hrq, hcount, hqueue⟩ := harrived₁.queue
  have hdrop : workload.processes.dropLast = workload.processes.take (n + 1) := by
    rw [List.dropLast_eq_take, hn]
    rfl
  obtain ⟨s₂, hrun₂, hp₂, hmode₂, howner₂, hshared₂⟩ := run_ask workload
    (harrived₁.mode .generator) harrived₁.generator harrived₁.owner
  have hrun := System.run_trans (System.run_trans hrun₀ hrun₁) hrun₂
  obtain ⟨s₃, hstep₃, hp₃, hmode₃, howner₃, hshared₃⟩ := step_check workload
    (by rw [hmode₂]; exact harrived₁.mode _) hp₂ (by rw [hshared₂]; exact hrq)
  obtain ⟨s₄, hrun₄, hp₄, hmode₄, hshared₄, hnone⟩ := run_goOn workload
    (by rw [hmode₃, hmode₂]; exact harrived₁.mode _) hp₃
    (by rw [howner₃]; exact howner₂) (by rw [hcount]; exact hlimit.symm)
    (by rw [hshared₃, hshared₂, harrived₁.created]; exact List.getElem?_eq_getElem (by omega))
  obtain ⟨s₅, hstep₅, hcreates⟩ := step_create workload
    (by rw [hmode₄, hmode₃, hmode₂]; exact harrived₁.mode _) hp₄
  refine h _ s₂ s₃ rq ⟨_, .run .generator, [], rfl, hrun, hstep₃, ?_, ?_⟩ ?_ _ _ s₄ s₅ hrun₄ hnone
    hstep₅ hcreates
  · simp [checks, hp₂, hp₃]
  · rw [hshared₂]
    exact hrq
  · rw [hqueue, ← hdrop]
    exact hfull

end Checks

/-- **The length of the run queue**, after any operations, at the checks of any run and against the
limit of any workload. -/
theorem queue_length_iff (ops : List QueueOp) (workload : Workload) (ls : List (Label Thread)) :
    ((runOps ops).count = (runOps ops).head.length ↔ Settled ops) ∧
      (Reports workload ls ↔ ∀ s s' rq, CheckIn workload ls s s' rq → rq.head = []) ∧
      (NoOverrun workload ↔ Limited workload) :=
  ⟨count_eq_length_iff ops, reports_iff workload ls, limited_of_noOverrun, noOverrun_of_limited⟩

/-- One addition is not counted. -/
theorem queue_length_wrong :
    ¬ ((∀ ops, (runOps ops).count = (runOps ops).head.length) ∧
      (∀ workload ls, Reports workload ls) ∧ ∀ workload, NoOverrun workload) := by
  rintro ⟨h, -⟩
  have := h [.add 0]
  cases this

end Cs342.Cfs
