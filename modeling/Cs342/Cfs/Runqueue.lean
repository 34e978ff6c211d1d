import Mathlib
import Cs342.Library.Outcome
import Cs342.Library.Scanf

/-!
# The run queue (`cfs.c`)

The queue is a list of pointers to process control blocks, new ones at the head. A pointer is the
index of the process; what the functions read through it is the memory `pcbs`. Doubles are read as
rational numbers.
-/

namespace Cs342.Cfs

/-- `enum process_state`. -/
inductive ProcessState where
  | ready
  | running
  deriving DecidableEq, Repr

/-- `struct process_control_block`, without its thread, mutex and condition variable. -/
structure Pcb where
  pid : Int
  state : ProcessState
  priority : Int
  processLength : Int
  cpuTime : Int
  vruntime : ℚ
  deriving DecidableEq, Repr

/-- `struct runqueue`, with the nodes from the head on. -/
structure Runqueue where
  head : List Nat
  count : Int
  deriving DecidableEq, Repr

/-- `SCHED_LATENCY` and `MIN_GRANULARITY`. -/
def schedLatency : Int := 100

def minGranularity : Int := 10

/-- `prio_to_weight`. -/
def prioToWeight : List Int := [
  88761, 71755, 56483, 46273, 36291,
  29154, 23254, 18705, 14949, 11916,
  9548, 7620, 6100, 4904, 3906,
  3121, 2501, 1991, 1586, 1277,
  1024, 820, 655, 526, 423,
  335, 272, 215, 172, 137,
  110, 87, 70, 56, 45,
  36, 29, 23, 18, 15]

def getWeight (priority : Int) : Outcome Int :=
  if 0 ≤ priority + 20 then Outcome.ofOption prioToWeight[(priority + 20).toNat]? else .undefined

def runqueueInit : Runqueue where
  head := []
  count := 0

/-- The count is not updated. -/
def runqueueAddPcb (rq : Runqueue) (pcb : Nat) : Runqueue := { rq with head := pcb :: rq.head }

/-- The first node with the pcb is unlinked, if there is one. -/
def runqueueRemovePcb (rq : Runqueue) (pcb : Nat) : Runqueue :=
  { rq with head := rq.head.erase pcb }

/-- `round`: half away from zero. -/
def roundHalfAway (x : ℚ) : Int := if 0 ≤ x then ⌊x + 1 / 2⌋ else -⌊-x + 1 / 2⌋

/-- The total weight is an int. The quotient by a total of zero is replaced in the next
statement. -/
def runqueueTimeslice (pcbs : Nat → Pcb) (rq : Runqueue) (priority : Int) : Outcome Int := do
  let weight ← getWeight priority
  let totalWeight ← rq.head.foldlM (fun totalWeight node => do
    let nodeWeight ← getWeight (pcbs node).priority
    Scanf.toInt (totalWeight + nodeWeight)) (0 : Int)
  let timeslice := roundHalfAway ((weight : ℚ) / (totalWeight : ℚ) * schedLatency)
  let timeslice := if totalWeight = 0 then schedLatency else timeslice
  return if timeslice < minGranularity then minGranularity else timeslice

def runqueueVruntime (priority actualRuntime : Int) : Outcome ℚ := do
  let niceWeight ← getWeight 0
  let weight ← getWeight priority
  return (niceWeight : ℚ) / (weight : ℚ) * actualRuntime

def getTimesliceForPcb (pcbs : Nat → Pcb) (rq : Runqueue) (pcb : Nat) : Outcome Int :=
  runqueueTimeslice pcbs rq (pcbs pcb).priority

/-- `cpu_time` in `start_process_thread`: the time slice, or what is left if that is less. -/
def clippedTimeslice (pcbs : Nat → Pcb) (rq : Runqueue) (pcb : Nat) : Outcome Int := do
  let remainingTime := (pcbs pcb).processLength - (pcbs pcb).cpuTime
  let timeslice ← getTimesliceForPcb pcbs rq pcb
  return if remainingTime > timeslice then timeslice else remainingTime

def updatePcbTimings (pcbs : Nat → Pcb) (pcb : Nat) (cpuTime : Int) : Outcome (Nat → Pcb) := do
  let vruntime ← runqueueVruntime (pcbs pcb).priority cpuTime
  return Function.update pcbs pcb { pcbs pcb with
    cpuTime := (pcbs pcb).cpuTime + cpuTime
    vruntime := (pcbs pcb).vruntime + vruntime }

/-- The body of the loop of `runqueue_smallest_pcb`. -/
def smallerNode (pcbs : Nat → Pcb) (minNode node : Nat) : Nat :=
  if (pcbs minNode).vruntime > (pcbs node).vruntime then node else minNode

/-- The smallest one nearest to the head. -/
def runqueueSmallestPcb (pcbs : Nat → Pcb) (rq : Runqueue) : Option Nat :=
  match rq.head with
  | [] => none
  | head :: rest => some ((head :: rest).foldl (smallerNode pcbs) head)

/-! ## Laws -/

/-- No slice is shorter than the minimum granularity. -/
theorem minGranularity_le_timeslice {pcbs : Nat → Pcb} {rq : Runqueue} {priority timeslice : Int}
    (h : runqueueTimeslice pcbs rq priority = .ok timeslice) : minGranularity ≤ timeslice := by
  have hfloor : ∀ t : Int, minGranularity ≤ if t < minGranularity then minGranularity else t := by
    intro t
    split <;> omega
  unfold runqueueTimeslice at h
  obtain ⟨weight, -, h⟩ := Outcome.bind_eq_ok.mp h
  obtain ⟨totalWeight, -, h⟩ := Outcome.bind_eq_ok.mp h
  cases h
  exact hfloor _

theorem clippedTimeslice_eq_ok {pcbs : Nat → Pcb} {rq : Runqueue} {pcb : Nat} {cpuTime : Int} :
    clippedTimeslice pcbs rq pcb = .ok cpuTime ↔
      ∃ timeslice, getTimesliceForPcb pcbs rq pcb = .ok timeslice ∧
        cpuTime = min ((pcbs pcb).processLength - (pcbs pcb).cpuTime) timeslice := by
  have hclip : ∀ remainingTime timeslice : Int, (if remainingTime > timeslice then timeslice
      else remainingTime) = min remainingTime timeslice := by
    intro remainingTime timeslice
    split <;> omega
  unfold clippedTimeslice
  rw [Outcome.bind_eq_ok]
  simp only [hclip, Outcome.pure_eq, Outcome.ok.injEq]
  exact exists_congr fun timeslice => and_congr_right' eq_comm

theorem foldl_smallerNode (pcbs : Nat → Pcb) (minNode : Nat) (nodes : List Nat) :
    nodes.foldl (smallerNode pcbs) minNode ∈ minNode :: nodes ∧
      ∀ node ∈ minNode :: nodes,
        (pcbs (nodes.foldl (smallerNode pcbs) minNode)).vruntime ≤ (pcbs node).vruntime := by
  induction nodes generalizing minNode with
  | nil => simp
  | cons next nodes ih =>
      obtain ⟨hmem, hmin⟩ := ih (smallerNode pcbs minNode next)
      have hcase : smallerNode pcbs minNode next = minNode ∨
          smallerNode pcbs minNode next = next := by
        unfold smallerNode
        split
        · exact Or.inr rfl
        · exact Or.inl rfl
      have hle : (pcbs (smallerNode pcbs minNode next)).vruntime ≤ (pcbs minNode).vruntime ∧
          (pcbs (smallerNode pcbs minNode next)).vruntime ≤ (pcbs next).vruntime := by
        unfold smallerNode
        split
        · next h => exact ⟨h.le, le_rfl⟩
        · next h => exact ⟨le_rfl, not_lt.mp h⟩
      rw [List.foldl_cons]
      refine ⟨?_, ?_⟩
      · rcases List.mem_cons.mp hmem with h | h
        · rw [h]
          rcases hcase with h | h <;> simp [h]
        · exact List.mem_cons_of_mem _ (List.mem_cons_of_mem _ h)
      · intro node hnode
        have hsmall := hmin _ List.mem_cons_self
        rcases List.mem_cons.mp hnode with rfl | hnode
        · exact hsmall.trans hle.1
        · rcases List.mem_cons.mp hnode with rfl | hnode
          · exact hsmall.trans hle.2
          · exact hmin node (List.mem_cons_of_mem _ hnode)

/-- **The selected pcb is queued, and none in the queue has a smaller vruntime.** -/
theorem runqueueSmallestPcb_spec {pcbs : Nat → Pcb} {rq : Runqueue} {pcb : Nat}
    (h : runqueueSmallestPcb pcbs rq = some pcb) :
    pcb ∈ rq.head ∧ ∀ node ∈ rq.head, (pcbs pcb).vruntime ≤ (pcbs node).vruntime := by
  unfold runqueueSmallestPcb at h
  split at h
  · cases h
  · next head rest heq =>
      rw [heq]
      obtain ⟨hmem, hmin⟩ := foldl_smallerNode pcbs head (head :: rest)
      cases h
      refine ⟨?_, fun node hnode => hmin node (List.mem_cons_of_mem _ hnode)⟩
      rcases List.mem_cons.mp hmem with h | h
      · exact List.mem_cons.mpr (Or.inl h)
      · exact h

end Cs342.Cfs
