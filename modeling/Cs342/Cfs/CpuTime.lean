import Mathlib
import Cs342.Library.Loop
import Cs342.Cfs.Fairness

/-!
# How long a process runs (`start_process_thread`)

The loop of a process thread by itself. Between two slices the queue may change in any way, so what
the thread finds there is given from outside, slice by slice. A slice is never shorter than the
minimum granularity and never longer than the time that is left, which bounds the number of slices
and makes their sum exact (`cpu_time_exact`).
-/

namespace Cs342.Cfs

open Loop

/-! ## The queue, seen from a thread -/

/-- What a thread finds when it has the queue for a slice: the pcbs, and the nodes. -/
structure QueueContents where
  pcbs : Nat → Pcb
  rq : Runqueue

/-- What `get_timeslice_for_pcb` returns, once the pcb is off the queue. -/
inductive Timeslice (queue : QueueContents) (k : Nat) : Int → Prop
  | returned {timeslice : Int}
      (h : getTimesliceForPcb queue.pcbs (runqueueRemovePcb queue.rq k) k = .ok timeslice) :
      Timeslice queue k timeslice
  /-- Nothing is known of a total weight that is no int, or that is read from outside of the table,
  but the slice is still clipped. -/
  | unknown (h : ∀ timeslice,
        getTimesliceForPcb queue.pcbs (runqueueRemovePcb queue.rq k) k ≠ .ok timeslice)
      (total : Int) : Timeslice queue k (sliceOf (weightOf (queue.pcbs k).priority) total)

section Queue

variable {queue : QueueContents} {k : Nat} {timeslice : Int}

theorem Timeslice.minGranularity_le (h : Timeslice queue k timeslice) :
    minGranularity ≤ timeslice := by
  cases h with
  | returned h => exact minGranularity_le_timeslice h
  | unknown _ total => exact minGranularity_le_sliceOf _ total

/-- Whatever is queued, there is a slice. -/
theorem exists_timeslice (queue : QueueContents) (k : Nat) :
    ∃ timeslice, Timeslice queue k timeslice := by
  by_cases h : ∃ timeslice,
      getTimesliceForPcb queue.pcbs (runqueueRemovePcb queue.rq k) k = .ok timeslice
  · obtain ⟨timeslice, hslice⟩ := h
    exact ⟨timeslice, .returned hslice⟩
  · exact ⟨_, .unknown (not_exists.mp h) 0⟩

end Queue

/-! ## The loop -/

/-- A process thread at the head of its loop. -/
structure ProcessLoop where
  pcb : Pcb
  contextSwitchCount : Int
  /-- The cpu times of the slices so far. -/
  slices : List Int
  /-- The slices that have called `notify_process_termination`, counted from one. -/
  notified : List Nat

namespace ProcessLoop

/-- The thread in front of its loop. -/
def start (pcb : Pcb) : ProcessLoop where
  pcb := pcb
  contextSwitchCount := 0
  slices := []
  notified := []

/-- One round. The thread waits until its state is `PROCESS_RUNNING` and has taken its pcb off the
queue when it asks for the slice. -/
def round (timeslices : Nat → Int) (s : ProcessLoop) : Outcome (ForInStep ProcessLoop) :=
  if s.pcb.processLength > s.pcb.cpuTime then do
    let remainingTime := s.pcb.processLength - s.pcb.cpuTime
    let timeslice := timeslices s.slices.length
    let cpuTime := if remainingTime > timeslice then timeslice else remainingTime
    let vruntime ← runqueueVruntime s.pcb.priority cpuTime
    let pcb := { s.pcb with
      cpuTime := s.pcb.cpuTime + cpuTime
      vruntime := s.pcb.vruntime + vruntime
      state := .ready }
    return .yield {
      pcb
      contextSwitchCount := s.contextSwitchCount + 1
      slices := s.slices ++ [cpuTime]
      notified :=
        if pcb.processLength ≤ pcb.cpuTime then s.notified ++ [s.slices.length + 1]
        else s.notified }
  else return .done s

/-- The thread behind a slice of this length. -/
def after (s : ProcessLoop) (cpuTime : Int) : ProcessLoop where
  pcb := { s.pcb with
    cpuTime := s.pcb.cpuTime + cpuTime
    vruntime := s.pcb.vruntime + (1024 : ℚ) / weightOf s.pcb.priority * cpuTime
    state := .ready }
  contextSwitchCount := s.contextSwitchCount + 1
  slices := s.slices ++ [cpuTime]
  notified :=
    if s.pcb.processLength ≤ s.pcb.cpuTime + cpuTime then s.notified ++ [s.slices.length + 1]
    else s.notified

/-- The length of the next slice. -/
def nextSlice (timeslices : Nat → Int) (s : ProcessLoop) : Int :=
  min (timeslices s.slices.length) (s.pcb.processLength - s.pcb.cpuTime)

section Round

variable {timeslices : Nat → Int} {s s' : ProcessLoop}

/-- **One round** leaves the loop, or is a slice. -/
theorem round_eq (hpriority : ValidPriority s.pcb.priority) :
    s.round timeslices =
      if s.pcb.processLength > s.pcb.cpuTime
      then .ok (.yield (s.after (s.nextSlice timeslices))) else .ok (.done s) := by
  rw [round]
  split
  · dsimp only
    rw [ite_eq_min, runqueueVruntime_eq hpriority]
    rfl
  · rfl

theorem round_eq_yield (hpriority : ValidPriority s.pcb.priority) :
    s.round timeslices = .ok (.yield s') ↔
      s.pcb.cpuTime < s.pcb.processLength ∧ s' = s.after (s.nextSlice timeslices) := by
  rw [round_eq hpriority]
  split
  · next hlt => simp [hlt, eq_comm]
  · next hle => simp [hle]

end Round

/-! ## The invariant -/

/-- What every slice keeps, for the pcb that the thread has started with: the time is accounted
for, and until it is used up the slices have not been too short. -/
structure Accounted (pcb : Pcb) (s : ProcessLoop) : Prop where
  priority_eq : s.pcb.priority = pcb.priority
  processLength_eq : s.pcb.processLength = pcb.processLength
  sum_slices : s.slices.sum = s.pcb.cpuTime
  count : s.contextSwitchCount = s.slices.length
  le_processLength : s.pcb.cpuTime ≤ pcb.processLength
  length_lt : minGranularity * (s.slices.length - 1) < pcb.processLength
  unfinished : s.pcb.cpuTime < pcb.processLength →
    minGranularity * s.slices.length ≤ s.pcb.cpuTime ∧ s.notified = []
  finished : s.pcb.cpuTime = pcb.processLength → s.notified = [s.slices.length]

section Run

variable {pcb : Pcb} {timeslices : Nat → Int} {s s' : ProcessLoop}

theorem accounted_start (hlength : 0 < pcb.processLength) (hcpuTime : pcb.cpuTime = 0) :
    Accounted pcb (start pcb) where
  priority_eq := rfl
  processLength_eq := rfl
  sum_slices := hcpuTime.symm
  count := rfl
  le_processLength := by
    show pcb.cpuTime ≤ _
    omega
  length_lt := by
    show minGranularity * (((0 : Nat) : Int) - 1) < _
    rw [minGranularity]
    omega
  unfinished := fun _ => ⟨hcpuTime.symm.le, rfl⟩
  finished := by
    intro h
    have hstart : pcb.cpuTime = pcb.processLength := h
    omega

/-- **Step lemma**: the next slice. -/
theorem Accounted.after (h : Accounted pcb s) (hlt : s.pcb.cpuTime < pcb.processLength)
    {timeslice : Int} (hmin : minGranularity ≤ timeslice) :
    Accounted pcb (s.after (min timeslice (pcb.processLength - s.pcb.cpuTime))) := by
  obtain ⟨hslices, hnotified⟩ := h.unfinished hlt
  have hlength : ((s.slices ++ [min timeslice (pcb.processLength - s.pcb.cpuTime)]).length : Int)
      = s.slices.length + 1 := by
    rw [List.length_append, List.length_singleton]
    rfl
  rw [minGranularity] at hmin hslices
  refine ⟨h.priority_eq, h.processLength_eq, ?_, ?_, ?_, ?_, ?_, ?_⟩
  · simp only [ProcessLoop.after, List.sum_append, h.sum_slices, List.sum_singleton]
  · simp only [ProcessLoop.after, h.count, hlength]
  · simp only [ProcessLoop.after]
    omega
  · -- all slices but the last one have used up more than the bound
    simp only [ProcessLoop.after, hlength, minGranularity]
    omega
  · intro hleft
    simp only [ProcessLoop.after] at hleft
    simp only [ProcessLoop.after, hlength, minGranularity, h.processLength_eq]
    rw [if_neg (by omega)]
    exact ⟨by omega, hnotified⟩
  · intro hend
    simp only [ProcessLoop.after] at hend
    simp only [ProcessLoop.after, h.processLength_eq]
    rw [if_pos hend.ge, hnotified, List.length_append, List.length_singleton, List.nil_append]

/-- A round of the loop is such a slice. -/
theorem Accounted.slice (h : Accounted pcb s) (hpriority : ValidPriority pcb.priority)
    (hmin : ∀ i, minGranularity ≤ timeslices i) (hround : s.round timeslices = .ok (.yield s')) :
    Accounted pcb s' ∧ s.pcb.cpuTime < s'.pcb.cpuTime := by
  have hlt := (round_eq_yield (h.priority_eq.symm ▸ hpriority)).mp hround
  rw [nextSlice, h.processLength_eq] at hlt
  obtain ⟨hlt, rfl⟩ := hlt
  have hslice := hmin s.slices.length
  refine ⟨h.after hlt hslice, ?_⟩
  rw [minGranularity] at hslice
  simp only [ProcessLoop.after]
  omega

/-- **Run lemma**: in every state that the loop comes to. -/
theorem Accounted.reaches (h : Accounted pcb s) (hpriority : ValidPriority pcb.priority)
    (hmin : ∀ i, minGranularity ≤ timeslices i) (hreaches : Reaches (round timeslices) s s') :
    Accounted pcb s' :=
  hreaches.invariant h fun _ _ hu hround => (hu.slice hpriority hmin hround).1

/-- The loop ends: every slice leaves less time. -/
theorem Accounted.exists_exits (h : Accounted pcb s) (hpriority : ValidPriority pcb.priority)
    (hmin : ∀ i, minGranularity ≤ timeslices i) : ∃ t, Exits (round timeslices) s t := by
  apply exits_of_measure fun u => (pcb.processLength - u.pcb.cpuTime).toNat
  intro u hu
  have hacc := h.reaches hpriority hmin hu
  have hvalid : ValidPriority u.pcb.priority := hacc.priority_eq.symm ▸ hpriority
  have hround : u.round timeslices = _ := round_eq hvalid
  split at hround
  · have hgrows := (hacc.slice hpriority hmin hround).2
    have hle := (hacc.slice hpriority hmin hround).1.le_processLength
    exact .inr ⟨_, hround, by omega⟩
  · exact .inl ⟨_, hround⟩

/-- At its end the time is used up. -/
theorem Accounted.exit (h : Accounted pcb s) (hpriority : ValidPriority pcb.priority)
    (hmin : ∀ i, minGranularity ≤ timeslices i) (hexits : Exits (round timeslices) s s') :
    Accounted pcb s' ∧ s'.pcb.cpuTime = pcb.processLength := by
  revert h
  refine hexits.induction (P := fun s => Accounted pcb s → _) (fun u hdone hacc => ?_)
    (fun u u' hyield _ ih hacc => ih (hacc.slice hpriority hmin hyield).1)
  rw [round_eq (hacc.priority_eq.symm ▸ hpriority)] at hdone
  split at hdone
  · cases hdone
  · next hge =>
      cases hdone
      have hle := hacc.le_processLength
      rw [hacc.processLength_eq] at hge
      exact ⟨hacc, le_antisymm hle (not_lt.mp hge)⟩

theorem Accounted.length_le (h : Accounted pcb s) :
    (s.slices.length : Int) ≤ ⌈(pcb.processLength : ℚ) / minGranularity⌉ := by
  have hlt := h.length_lt
  rw [minGranularity] at hlt ⊢
  have hlt' : ((s.slices.length - 1 : Int) : ℚ) < pcb.processLength / (10 : Int) := by
    rw [lt_div_iff₀ (by norm_num)]
    exact_mod_cast mul_comm (10 : Int) _ ▸ hlt
  have hceil := Int.lt_ceil.mpr hlt'
  omega

end Run

/-- **A slice of the simulator** is a round of the loop, whatever the other threads do. -/
theorem round_of_runSlice {k : Nat} {shared shared' : Shared} {s : ProcessLoop}
    (h : runSlice k shared = .ok shared') (hpcb : s.pcb = shared.pcbs k)
    (hcount : s.contextSwitchCount = (shared.locals k).contextSwitchCount)
    (hunfinished : s.pcb.cpuTime < s.pcb.processLength) :
    ∃ rq timeslice, shared.rq = some rq ∧ Timeslice ⟨shared.pcbs, rq⟩ k timeslice ∧
      ∀ timeslices : Nat → Int, timeslices s.slices.length = timeslice →
        ∃ s', s.round timeslices = .ok (.yield s') ∧
          s'.pcb = { shared'.pcbs k with state := .ready } ∧
          s'.contextSwitchCount = (shared'.locals k).contextSwitchCount := by
  obtain ⟨rq, timeslice, cpuTime, vruntime, hrq, hslice, hcpuTime, hvruntime, rfl⟩ :=
    runSlice_spec h
  refine ⟨rq, timeslice, hrq, .returned hslice, fun timeslices hnext => ?_⟩
  have hmin : (if s.pcb.processLength - s.pcb.cpuTime > timeslices s.slices.length
      then timeslices s.slices.length else s.pcb.processLength - s.pcb.cpuTime) = cpuTime := by
    rw [ite_eq_min, hnext, hcpuTime, hpcb, min_comm]
  rw [round, if_pos hunfinished]
  dsimp only
  rw [hmin, hpcb, hvruntime]
  refine ⟨_, rfl, ?_, ?_⟩
  · simp [Shared.setPcb]
  · simp [hcount]

end ProcessLoop

/-! ## The whole loop -/

open ProcessLoop in
/-- **Exactly its CPU time.** Whatever the thread finds in the queue slice by slice, there are
slices to run, and with any such slices the loop ends after at most `⌈L / MIN_GRANULARITY⌉` of them.
No slice is empty, none exceeds the length, and together they are the length. The thread has counted
them, and has announced its end in the last one only. -/
theorem cpu_time_exact (k : Nat) (pcb : Pcb) (hlength : 0 < pcb.processLength)
    (hcpuTime : pcb.cpuTime = 0) (hpriority : ValidPriority pcb.priority)
    (seen : Nat → QueueContents) :
    (∃ timeslices : Nat → Int, ∀ i, Timeslice (seen i) k (timeslices i)) ∧
      ∀ timeslices : Nat → Int, (∀ i, Timeslice (seen i) k (timeslices i)) →
        (∀ s, Reaches (round timeslices) (start pcb) s → s.pcb.cpuTime ≤ pcb.processLength ∧
          ∀ s', s.round timeslices = .ok (.yield s') → s.pcb.cpuTime < s'.pcb.cpuTime) ∧
        ∃ t, Exits (round timeslices) (start pcb) t ∧
          (t.slices.length : Int) ≤ ⌈(pcb.processLength : ℚ) / minGranularity⌉ ∧
          t.pcb.cpuTime = pcb.processLength ∧ t.slices.sum = pcb.processLength ∧
          t.contextSwitchCount = t.slices.length ∧ t.notified = [t.slices.length] := by
  refine ⟨?_, fun timeslices hslices => ?_⟩
  · choose timeslices hslices using fun i => exists_timeslice (seen i) k
    exact ⟨timeslices, hslices⟩
  · have hmin := fun i => (hslices i).minGranularity_le
    have hstart := accounted_start hlength hcpuTime
    refine ⟨fun s hs => ?_, ?_⟩
    · have hacc := hstart.reaches hpriority hmin hs
      exact ⟨hacc.le_processLength, fun s' hround => (hacc.slice hpriority hmin hround).2⟩
    · obtain ⟨t, hexits⟩ := hstart.exists_exits hpriority hmin
      obtain ⟨hacc, hend⟩ := hstart.exit hpriority hmin hexits
      exact ⟨t, hexits, hacc.length_le, hend, hacc.sum_slices.trans hend, hacc.count,
        hacc.finished hend⟩

open ProcessLoop in
/-- A process of 1000 ms, next to one of another weight. -/
theorem cpu_time_exact_two :
    ∃ timeslices : Nat → Int,
      (∀ i, Timeslice ⟨twoPcbs, ⟨[1, 0], 0⟩⟩ 1 (timeslices i)) ∧
        ∃ t, Exits (round timeslices) (start (twoPcbs 1)) t ∧
          (t.slices.length : Int) ≤ ⌈((twoPcbs 1).processLength : ℚ) / minGranularity⌉ ∧
          t.pcb.cpuTime = 1000 ∧ t.slices.sum = 1000 ∧
          t.contextSwitchCount = t.slices.length ∧ t.notified = [t.slices.length] := by
  obtain ⟨⟨timeslices, hslices⟩, hall⟩ := cpu_time_exact 1 (twoPcbs 1) (by decide) rfl (by decide)
    (fun _ => ⟨twoPcbs, ⟨[1, 0], 0⟩⟩)
  exact ⟨timeslices, hslices, (hall timeslices hslices).2⟩

end Cs342.Cfs
