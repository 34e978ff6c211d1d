import Mathlib
import Cs342.Cfs.Timeslice
import Cs342.Library.LeastFirst

/-!
# How unfair the scheduler is (`runqueue_vruntime`)

In a round the pcb with the smallest vruntime is taken off the queue, runs for its slice, and is
queued again unless it is finished. A vruntime is cpu time over weight, the smallest one in the
queue never decreases, and the vruntimes in the queue are never further apart than the largest
charge so far (`rounds_fair`). None of this depends on how long the slices are.
-/

namespace Cs342.Cfs

open LeastFirst

/-- The scheduler between two rounds, and what has been charged so far, the last charge first. -/
structure Rounds where
  pcbs : Nat → Pcb
  rq : Runqueue
  charges : List ℚ

namespace Rounds

/-- One round of the pcb that the scheduler selects, with the statements of `start_process_thread`.
There is nothing to do when the queue is empty. -/
def round (s : Rounds) : Outcome Rounds :=
  match runqueueSmallestPcb s.pcbs s.rq with
  | none => return s
  | some pcb => do
    let rq := runqueueRemovePcb s.rq pcb
    let cpuTime ← clippedTimeslice s.pcbs rq pcb
    let pcbs ← updatePcbTimings s.pcbs pcb cpuTime
    let rq := if (pcbs pcb).processLength > (pcbs pcb).cpuTime then runqueueAddPcb rq pcb else rq
    return { pcbs, rq, charges := ((pcbs pcb).vruntime - (s.pcbs pcb).vruntime) :: s.charges }

/-- So many rounds, one after the other. -/
def rounds (s : Rounds) : Nat → Outcome Rounds
  | 0 => .ok s
  | n + 1 => do
    let s ← rounds s n
    s.round

/-- The vruntimes of the pcbs in the queue. -/
def vruntimes (s : Rounds) : Set ℚ := {v | ∃ pcb ∈ s.rq.head, v = (s.pcbs pcb).vruntime}

/-- The largest charge so far. -/
def largestCharge (s : Rounds) : ℚ := s.charges.foldr max 0

end Rounds

/-- All pcbs are queued, in some order, and none has run. -/
structure AllQueued (nodes : List Nat) (s : Rounds) : Prop where
  nodup : nodes.Nodup
  queued : s.rq.head = nodes
  charges : s.charges = []
  priority : ∀ pcb ∈ nodes, ValidPriority (s.pcbs pcb).priority
  processLength : ∀ pcb ∈ nodes, 0 < (s.pcbs pcb).processLength
  cpuTime : ∀ pcb ∈ nodes, (s.pcbs pcb).cpuTime = 0
  vruntime : ∀ pcb ∈ nodes, (s.pcbs pcb).vruntime = 0

/-! ## A charge -/

theorem runqueueVruntime_eq {priority : Int} (h : ValidPriority priority) (actualRuntime : Int) :
    runqueueVruntime priority actualRuntime
      = .ok ((1024 : ℚ) / weightOf priority * actualRuntime) := by
  have hnice : getWeight 0 = .ok 1024 := rfl
  rw [runqueueVruntime, hnice, getWeight_eq h]
  rfl

theorem ite_eq_min (remainingTime timeslice : Int) :
    (if remainingTime > timeslice then timeslice else remainingTime)
      = min timeslice remainingTime := by
  split <;> omega

namespace Rounds

/-- The vruntime that a pcb is charged for some cpu time. -/
def chargeFor (s : Rounds) (pcb : Nat) (cpuTime : Int) : ℚ :=
  (1024 : ℚ) / weightOf (s.pcbs pcb).priority * cpuTime

/-- What a pcb is after it has run. -/
def ran (s : Rounds) (pcb : Nat) (cpuTime : Int) : Pcb :=
  { s.pcbs pcb with
    cpuTime := (s.pcbs pcb).cpuTime + cpuTime
    vruntime := (s.pcbs pcb).vruntime + s.chargeFor pcb cpuTime }

/-- The scheduler behind a round of a pcb. -/
def after (s : Rounds) (pcb : Nat) (cpuTime : Int) : Rounds where
  pcbs := Function.update s.pcbs pcb (s.ran pcb cpuTime)
  rq :=
    if (s.pcbs pcb).processLength > (s.pcbs pcb).cpuTime + cpuTime
    then runqueueAddPcb (runqueueRemovePcb s.rq pcb) pcb else runqueueRemovePcb s.rq pcb
  charges := s.chargeFor pcb cpuTime :: s.charges

variable {s s' : Rounds} {pcb x : Nat} {cpuTime : Int}

@[simp] theorem after_pcbs_self : (s.after pcb cpuTime).pcbs pcb = s.ran pcb cpuTime :=
  Function.update_self _ _ _

theorem after_pcbs_of_ne (h : x ≠ pcb) : (s.after pcb cpuTime).pcbs x = s.pcbs x :=
  Function.update_of_ne h _ _

/-- Priorities and lengths are not touched. -/
theorem after_fixed : ((s.after pcb cpuTime).pcbs x).priority = (s.pcbs x).priority ∧
    ((s.after pcb cpuTime).pcbs x).processLength = (s.pcbs x).processLength := by
  by_cases h : x = pcb
  · rw [h, after_pcbs_self]
    exact ⟨rfl, rfl⟩
  · rw [after_pcbs_of_ne h]
    exact ⟨rfl, rfl⟩

theorem after_queue : (s.after pcb cpuTime).rq.head =
    if (s.pcbs pcb).processLength > (s.pcbs pcb).cpuTime + cpuTime
    then pcb :: s.rq.head.erase pcb else s.rq.head.erase pcb := by
  simp only [after]
  split <;> rfl

theorem updatePcbTimings_eq (h : ValidPriority (s.pcbs pcb).priority) (cpuTime : Int) :
    updatePcbTimings s.pcbs pcb cpuTime = .ok (s.after pcb cpuTime).pcbs := by
  rw [updatePcbTimings, runqueueVruntime_eq h]
  rfl

/-- **One round**, as long as the total weight of the others is an int. -/
theorem round_of_selected (hselected : runqueueSmallestPcb s.pcbs s.rq = some pcb)
    (hpriority : ∀ x ∈ s.rq.head, ValidPriority (s.pcbs x).priority) :
    ∃ timeslice, minGranularity ≤ timeslice ∧ s.round =
      if totalWeight s.pcbs (s.rq.head.erase pcb) < 2 ^ 31
      then .ok (s.after pcb (min timeslice ((s.pcbs pcb).processLength - (s.pcbs pcb).cpuTime)))
      else .undefined := by
  have hpcb := hpriority pcb (runqueueSmallestPcb_spec hselected).1
  have hslice : getTimesliceForPcb s.pcbs (runqueueRemovePcb s.rq pcb) pcb =
      if totalWeight s.pcbs (s.rq.head.erase pcb) < 2 ^ 31
      then .ok (sliceOf (weightOf (s.pcbs pcb).priority)
        (totalWeight s.pcbs (s.rq.head.erase pcb)))
      else .undefined :=
    runqueueTimeslice_eq (fun x hx => hpriority x (List.mem_of_mem_erase hx)) hpcb
  refine ⟨_, minGranularity_le_sliceOf (weightOf (s.pcbs pcb).priority)
    (totalWeight s.pcbs (s.rq.head.erase pcb)), ?_⟩
  simp only [round, hselected, clippedTimeslice, hslice]
  split
  · -- the slice is cut to what the process still has to run
    rw [Outcome.ok_bind, Outcome.pure_eq, Outcome.ok_bind, ite_eq_min, updatePcbTimings_eq hpcb,
      Outcome.ok_bind]
    simp only [after_pcbs_self, ran, add_sub_cancel_left]
    rfl
  · rfl

/-- A round is a turn of the selected pcb. -/
theorem turn_after (hselected : runqueueSmallestPcb s.pcbs s.rq = some pcb)
    (hpriority : ValidPriority (s.pcbs pcb).priority) (hcpuTime : 0 ≤ cpuTime) :
    Turn (fun x => (s.pcbs x).vruntime) s.rq.head pcb (s.chargeFor pcb cpuTime)
      (fun x => ((s.after pcb cpuTime).pcbs x).vruntime) (s.after pcb cpuTime).rq.head where
  least := (runqueueSmallestPcb_spec hselected).2
  nonneg := by
    have hweight : (0 : ℚ) < weightOf (s.pcbs pcb).priority := by
      exact_mod_cast weightOf_pos hpriority
    have hcpuTime' : (0 : ℚ) ≤ cpuTime := by exact_mod_cast hcpuTime
    simp only [chargeFor]
    positivity
  key_served := by
    simp only [after_pcbs_self]
    rfl
  key_other := by
    intro x hx
    simp only [after_pcbs_of_ne hx]
  subset := by
    intro x hx
    rw [after_queue] at hx
    split at hx
    · rcases List.mem_cons.mp hx with rfl | hx
      · exact (runqueueSmallestPcb_spec hselected).1
      · exact List.mem_of_mem_erase hx
    · exact List.mem_of_mem_erase hx

end Rounds

/-! ## The rounds -/

/-- What every round keeps, for pcbs with the given priorities. -/
structure Fair (nodes : List Nat) (priority : Nat → Int) (s : Rounds) : Prop where
  nodup : s.rq.head.Nodup
  queued : ∀ pcb ∈ s.rq.head, pcb ∈ nodes
  priority_eq : ∀ pcb, (s.pcbs pcb).priority = priority pcb
  valid : ∀ pcb ∈ nodes, ValidPriority (priority pcb)
  unfinished : ∀ pcb ∈ s.rq.head, (s.pcbs pcb).cpuTime < (s.pcbs pcb).processLength
  vruntime : ∀ pcb ∈ nodes,
    (s.pcbs pcb).vruntime * weightOf (s.pcbs pcb).priority = 1024 * (s.pcbs pcb).cpuTime
  spread : Spread s.largestCharge (fun pcb => (s.pcbs pcb).vruntime) s.rq.head

section Run

variable {nodes : List Nat} {priority : Nat → Int} {s s' : Rounds}

/-- At the start nobody is ahead of anybody. -/
theorem AllQueued.fair (h : AllQueued nodes s) :
    Fair nodes (fun pcb => (s.pcbs pcb).priority) s where
  nodup := h.queued ▸ h.nodup
  queued := fun pcb hpcb => h.queued ▸ hpcb
  priority_eq := fun pcb => rfl
  valid := h.priority
  unfinished := by
    intro pcb hpcb
    rw [h.queued] at hpcb
    rw [h.cpuTime pcb hpcb]
    exact h.processLength pcb hpcb
  vruntime := by
    intro pcb hpcb
    rw [h.vruntime pcb hpcb, h.cpuTime pcb hpcb]
    simp
  spread := by
    intro x hx y hy
    rw [h.queued] at hx hy
    show (s.pcbs x).vruntime - (s.pcbs y).vruntime ≤ s.largestCharge
    rw [h.vruntime x hx, h.vruntime y hy, Rounds.largestCharge, h.charges]
    simp

/-- The accounts are balanced by every charge. -/
theorem vruntime_after {pcb x : Nat} {cpuTime : Int} (hvalid : ValidPriority (s.pcbs pcb).priority)
    (h : (s.pcbs x).vruntime * weightOf (s.pcbs x).priority = 1024 * (s.pcbs x).cpuTime) :
    ((s.after pcb cpuTime).pcbs x).vruntime * weightOf ((s.after pcb cpuTime).pcbs x).priority
      = 1024 * ((s.after pcb cpuTime).pcbs x).cpuTime := by
  by_cases hx : x = pcb
  · rw [hx] at h ⊢
    have hweight : (weightOf (s.pcbs pcb).priority : ℚ) ≠ 0 := by
      exact_mod_cast (weightOf_pos hvalid).ne'
    rw [Rounds.after_pcbs_self]
    simp only [Rounds.ran, Rounds.chargeFor, Int.cast_add]
    rw [add_mul, h, div_mul_eq_mul_div, div_mul_cancel₀ _ hweight]
    ring
  · rw [Rounds.after_pcbs_of_ne hx]
    exact h

/-- All of it, behind a round of the selected pcb. -/
theorem Fair.after {pcb : Nat} {cpuTime : Int} (h : Fair nodes priority s)
    (hselected : runqueueSmallestPcb s.pcbs s.rq = some pcb) (hcpuTime : 0 ≤ cpuTime) :
    Fair nodes priority (s.after pcb cpuTime) := by
  have hmem := (runqueueSmallestPcb_spec hselected).1
  have hvalid : ValidPriority (s.pcbs pcb).priority :=
    h.priority_eq pcb ▸ h.valid pcb (h.queued pcb hmem)
  have hturn := Rounds.turn_after hselected hvalid hcpuTime
  refine ⟨?_, fun x hx => h.queued x (hturn.subset x hx),
    fun x => Rounds.after_fixed.1.trans (h.priority_eq x), h.valid, ?_,
    fun x hx => vruntime_after hvalid (h.vruntime x hx), ?_⟩
  · rw [Rounds.after_queue]
    split
    · exact List.nodup_cons.mpr ⟨h.nodup.not_mem_erase, h.nodup.erase pcb⟩
    · exact h.nodup.erase pcb
  · intro x hx
    by_cases hne : x = pcb
    · -- it is queued again only if it is not finished
      rw [hne, Rounds.after_queue] at hx
      rw [hne, Rounds.after_pcbs_self]
      split at hx
      · next hlt => exact hlt
      · exact absurd hx h.nodup.not_mem_erase
    · rw [Rounds.after_pcbs_of_ne hne]
      exact h.unfinished x (hturn.subset x hx)
  · have hspread := hturn.spread h.spread
    rw [max_comm] at hspread
    exact hspread

/-- **Step lemma**: a round that returns keeps the invariant, and a lower bound of the vruntimes. -/
theorem Fair.round (h : Fair nodes priority s) (hround : s.round = .ok s') :
    Fair nodes priority s' ∧
      ∀ least ∈ lowerBounds s.vruntimes, least ∈ lowerBounds s'.vruntimes := by
  cases hselected : runqueueSmallestPcb s.pcbs s.rq with
  | none =>
      simp only [Rounds.round, hselected] at hround
      cases hround
      exact ⟨h, fun least hleast => hleast⟩
  | some pcb =>
      have hvalid : ∀ x ∈ s.rq.head, ValidPriority (s.pcbs x).priority :=
        fun x hx => h.priority_eq x ▸ h.valid x (h.queued x hx)
      have hmem := (runqueueSmallestPcb_spec hselected).1
      obtain ⟨timeslice, hmin, heq⟩ := Rounds.round_of_selected hselected hvalid
      rw [heq] at hround
      split at hround
      · cases hround
        have hcpuTime : 0 ≤ min timeslice ((s.pcbs pcb).processLength - (s.pcbs pcb).cpuTime) := by
          have hlt := h.unfinished pcb hmem
          rw [minGranularity] at hmin
          omega
        refine ⟨h.after hselected hcpuTime, ?_⟩
        rintro least hleast _ ⟨x, hx, rfl⟩
        exact (Rounds.turn_after hselected (hvalid pcb hmem) hcpuTime).lowerBound
          (fun y hy => hleast ⟨y, hy, rfl⟩) x hx
      · cases hround

/-- **Run lemma**: all rounds keep it. -/
theorem Fair.rounds (h : Fair nodes priority s) {n : Nat} (hrounds : s.rounds n = .ok s') :
    Fair nodes priority s' := by
  induction n generalizing s' with
  | zero =>
      cases hrounds
      exact h
  | succ n ih =>
      obtain ⟨t, ht, hround⟩ := Outcome.bind_eq_ok.mp hrounds
      exact ((ih ht).round hround).1

/-- The queue weighs no more than all pcbs together. -/
theorem Fair.totalWeight_le (h : Fair nodes priority s) {queue : List Nat}
    (hqueue : queue.Sublist s.rq.head) : totalWeight s.pcbs queue ≤ totalWeight s.pcbs nodes := by
  have hsubperm : queue.Subperm nodes :=
    (h.nodup.sublist hqueue).subperm fun x hx => h.queued x (hqueue.subset hx)
  obtain ⟨part, hperm, hpart⟩ := hsubperm
  have hpos : ∀ weight ∈ nodes.map fun x => weightOf (s.pcbs x).priority, 0 ≤ weight := by
    intro weight hweight
    obtain ⟨x, hx, rfl⟩ := List.mem_map.mp hweight
    exact (weightOf_pos (h.priority_eq x ▸ h.valid x hx)).le
  calc totalWeight s.pcbs queue = totalWeight s.pcbs part := (hperm.map _).sum_eq.symm
    _ ≤ totalWeight s.pcbs nodes := (hpart.map _).sum_le_sum hpos

/-- The rounds return, as long as the sum of all weights is an int. -/
theorem Fair.exists_round (h : Fair nodes priority s)
    (htotal : totalWeight s.pcbs nodes < 2 ^ 31) : ∃ s', s.round = .ok s' := by
  cases hselected : runqueueSmallestPcb s.pcbs s.rq with
  | none =>
      refine ⟨s, ?_⟩
      simp only [Rounds.round, hselected]
      rfl
  | some pcb =>
      obtain ⟨timeslice, -, heq⟩ := Rounds.round_of_selected hselected
        fun x hx => h.priority_eq x ▸ h.valid x (h.queued x hx)
      have hothers := (h.totalWeight_le (List.erase_sublist (a := pcb))).trans_lt htotal
      rw [if_pos hothers] at heq
      exact ⟨_, heq⟩

theorem Fair.totalWeight_eq (h : Fair nodes priority s) :
    totalWeight s.pcbs nodes = (nodes.map fun x => weightOf (priority x)).sum := by
  simp only [totalWeight, h.priority_eq]

/-- No number of rounds makes an int overflow if all weights together do not. -/
theorem Fair.exists_rounds (h : Fair nodes priority s) (htotal : totalWeight s.pcbs nodes < 2 ^ 31)
    (n : Nat) : ∃ s', s.rounds n = .ok s' := by
  induction n with
  | zero => exact ⟨s, rfl⟩
  | succ n ih =>
      obtain ⟨t, ht⟩ := ih
      have hfair := h.rounds ht
      rw [h.totalWeight_eq, ← hfair.totalWeight_eq] at htotal
      obtain ⟨s', hround⟩ := hfair.exists_round htotal
      refine ⟨s', ?_⟩
      rw [Rounds.rounds, ht]
      exact hround

end Run

/-- **Bounded unfairness.** Whatever the weights and lengths are and however often the scheduler
selects: vruntime is cpu time over weight, the smallest vruntime in the queue does not decrease in
the next round, and no two pcbs in the queue are further apart than the largest charge so far. -/
theorem rounds_fair (nodes : List Nat) (s : Rounds) (h : AllQueued nodes s) (n : Nat) :
    (totalWeight s.pcbs nodes < 2 ^ 31 → ∃ t, s.rounds n = .ok t) ∧
      ∀ t, s.rounds n = .ok t →
        (∀ pcb ∈ nodes,
          (t.pcbs pcb).vruntime * weightOf (t.pcbs pcb).priority = 1024 * (t.pcbs pcb).cpuTime) ∧
        (∀ t', t.round = .ok t' → ∀ least least', IsLeast t.vruntimes least →
          IsLeast t'.vruntimes least' → least ≤ least') ∧
        ∀ x ∈ t.rq.head, ∀ y ∈ t.rq.head,
          (t.pcbs x).vruntime - (t.pcbs y).vruntime ≤ t.largestCharge := by
  refine ⟨fun htotal => h.fair.exists_rounds htotal n, fun t ht => ?_⟩
  have hfair := h.fair.rounds ht
  refine ⟨hfair.vruntime, ?_, hfair.spread⟩
  intro t' hround least least' hleast hleast'
  exact (hfair.round hround).2 least hleast.2 hleast'.1

/-- The two pcbs in the queue. -/
def twoQueued : Rounds where
  pcbs := twoPcbs
  rq := ⟨[1, 0], 0⟩
  charges := []

theorem rounds_fair_two :
    (totalWeight twoPcbs [1, 0] < 2 ^ 31 → ∃ t, twoQueued.rounds 5 = .ok t) ∧
      ∀ t, twoQueued.rounds 5 = .ok t →
        (∀ pcb ∈ [1, 0],
          (t.pcbs pcb).vruntime * weightOf (t.pcbs pcb).priority = 1024 * (t.pcbs pcb).cpuTime) ∧
        (∀ t', t.round = .ok t' → ∀ least least', IsLeast t.vruntimes least →
          IsLeast t'.vruntimes least' → least ≤ least') ∧
        ∀ x ∈ t.rq.head, ∀ y ∈ t.rq.head,
          (t.pcbs x).vruntime - (t.pcbs y).vruntime ≤ t.largestCharge :=
  rounds_fair [1, 0] twoQueued
    { nodup := by decide
      queued := rfl
      charges := rfl
      priority := by decide
      processLength := by decide
      cpuTime := by decide
      vruntime := fun _ _ => rfl } 5

end Cs342.Cfs
