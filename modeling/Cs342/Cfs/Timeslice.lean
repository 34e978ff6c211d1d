import Mathlib
import Cs342.Cfs.Machine

/-!
# How long a time slice is (`runqueue_timeslice`)

A process takes itself off the queue before it asks for its slice, so its weight is compared with
the weights of the others only. The slice is the latency when nobody else is queued, and more than
the latency as soon as the process outweighs all the others together (`slice_in_bounds_iff`).
-/

namespace Cs342.Cfs

/-- The priorities that the table of weights covers. -/
def ValidPriority (priority : Int) : Prop := -20 ≤ priority ∧ priority ≤ 19

instance : DecidablePred ValidPriority :=
  fun priority => inferInstanceAs (Decidable (-20 ≤ priority ∧ priority ≤ 19))

/-- The entry of the table for a priority. -/
def weightOf (priority : Int) : Int := prioToWeight.getD (priority + 20).toNat 0

theorem getWeight_eq {priority : Int} (h : ValidPriority priority) :
    getWeight priority = .ok (weightOf priority) := by
  obtain ⟨hmin, hmax⟩ := h
  have hlt : (priority + 20).toNat < prioToWeight.length := by
    show _ < 40
    omega
  rw [getWeight, if_pos (by omega), weightOf, List.getElem?_eq_getElem hlt,
    List.getD_eq_getElem _ _ hlt]
  rfl

theorem weightOf_pos {priority : Int} (h : ValidPriority priority) : 0 < weightOf priority := by
  have hall : ∀ weight ∈ prioToWeight, 0 < weight := by decide
  obtain ⟨hmin, hmax⟩ := h
  have hlt : (priority + 20).toNat < prioToWeight.length := by
    show _ < 40
    omega
  rw [weightOf, List.getD_eq_getElem _ _ hlt]
  exact hall _ (List.getElem_mem hlt)

/-! ## The total weight -/

/-- The weights of queued pcbs, added up. -/
def totalWeight (pcbs : Nat → Pcb) (nodes : List Nat) : Int :=
  (nodes.map fun node => weightOf (pcbs node).priority).sum

section Total

variable {pcbs : Nat → Pcb} {nodes : List Nat}

@[simp] theorem totalWeight_nil : totalWeight pcbs [] = 0 := rfl

@[simp] theorem totalWeight_cons (node : Nat) :
    totalWeight pcbs (node :: nodes) = weightOf (pcbs node).priority + totalWeight pcbs nodes :=
  List.sum_cons

theorem totalWeight_nonneg (h : ∀ node ∈ nodes, ValidPriority (pcbs node).priority) :
    0 ≤ totalWeight pcbs nodes := by
  induction nodes with
  | nil => exact le_rfl
  | cons node nodes ih =>
      have hnode := weightOf_pos (h node List.mem_cons_self)
      have hrest := ih fun x hx => h x (List.mem_cons_of_mem _ hx)
      rw [totalWeight_cons]
      omega

/-- A total of zero means that nobody is queued. -/
theorem totalWeight_eq_zero (h : ∀ node ∈ nodes, ValidPriority (pcbs node).priority) :
    totalWeight pcbs nodes = 0 ↔ nodes = [] := by
  cases nodes with
  | nil => simp
  | cons node nodes =>
      have hnode := weightOf_pos (h node List.mem_cons_self)
      have hrest := totalWeight_nonneg fun x hx => h x (List.mem_cons_of_mem _ hx)
      rw [totalWeight_cons]
      simp only [reduceCtorEq, iff_false]
      omega

/-- The loop adds the weights up, as long as the sum is an int. -/
theorem foldlM_weight (h : ∀ node ∈ nodes, ValidPriority (pcbs node).priority) {total : Int}
    (hmin : 0 ≤ total) (hmax : total < 2 ^ 31) :
    nodes.foldlM (fun total node => do
        let nodeWeight ← getWeight (pcbs node).priority
        Scanf.toInt (total + nodeWeight)) total
      = if total + totalWeight pcbs nodes < 2 ^ 31 then .ok (total + totalWeight pcbs nodes)
        else .undefined := by
  induction nodes generalizing total with
  | nil =>
      rw [totalWeight_nil, add_zero, if_pos hmax]
      rfl
  | cons node nodes ih =>
      have hnode := weightOf_pos (h node List.mem_cons_self)
      have hvalid : ∀ x ∈ nodes, ValidPriority (pcbs x).priority :=
        fun x hx => h x (List.mem_cons_of_mem _ hx)
      have hrest := totalWeight_nonneg hvalid
      rw [List.foldlM_cons, getWeight_eq (h node List.mem_cons_self), Outcome.ok_bind,
        totalWeight_cons, ← add_assoc]
      by_cases hlt : total + weightOf (pcbs node).priority < 2 ^ 31
      · rw [Scanf.toInt, if_pos ⟨by omega, hlt⟩, Outcome.ok_bind]
        exact ih hvalid (by omega) hlt
      · -- the sums only grow
        rw [Scanf.toInt, if_neg (by omega), if_neg (by omega)]
        rfl

end Total

/-! ## The slice -/

/-- The slice for a weight, against a total that is an int. -/
def sliceOf (weight total : Int) : Int :=
  max minGranularity
    (if total = 0 then schedLatency else roundHalfAway ((weight : ℚ) / total * schedLatency))

theorem runqueueTimeslice_eq {pcbs : Nat → Pcb} {rq : Runqueue} {priority : Int}
    (h : ∀ node ∈ rq.head, ValidPriority (pcbs node).priority)
    (hpriority : ValidPriority priority) :
    runqueueTimeslice pcbs rq priority =
      if totalWeight pcbs rq.head < 2 ^ 31
      then .ok (sliceOf (weightOf priority) (totalWeight pcbs rq.head)) else .undefined := by
  rw [runqueueTimeslice, getWeight_eq hpriority, Outcome.ok_bind,
    foldlM_weight h le_rfl (by norm_num), zero_add]
  split
  · rw [Outcome.ok_bind]
    simp only [Outcome.pure_eq, sliceOf]
    congr 1
    split <;> omega
  · rfl

theorem minGranularity_le_sliceOf (weight total : Int) : minGranularity ≤ sliceOf weight total :=
  le_max_left _ _

/-- A share is rounded to the latency at most if it is less than half a millisecond above. -/
theorem sliceOf_le_iff {weight total : Int} (hweight : 0 ≤ weight) (htotal : 0 ≤ total) :
    sliceOf weight total ≤ schedLatency ↔ total = 0 ∨ 200 * weight < 201 * total := by
  rw [sliceOf, max_le_iff, and_iff_right (by decide)]
  by_cases hzero : total = 0
  · simp [hzero]
  · have hpos : (0 : ℚ) < total := by exact_mod_cast lt_of_le_of_ne htotal (Ne.symm hzero)
    have hweight' : (0 : ℚ) ≤ weight := by exact_mod_cast hweight
    have hshare : (0 : ℚ) ≤ (weight : ℚ) / total * schedLatency := by
      simp only [schedLatency]
      positivity
    rw [if_neg hzero, roundHalfAway, if_pos hshare, or_iff_right hzero]
    calc ⌊(weight : ℚ) / total * schedLatency + 1 / 2⌋ ≤ schedLatency
        ↔ (weight : ℚ) / total * 100 + 1 / 2 < 101 := by
          rw [← Int.lt_add_one_iff, Int.floor_lt]
          norm_num [schedLatency]
      _ ↔ (200 * weight : ℚ) < 201 * total := by
          rw [← lt_sub_iff_add_lt, div_mul_eq_mul_div, div_lt_iff₀ hpos]
          constructor <;> intro h <;> linarith
      _ ↔ 200 * weight < 201 * total := by exact_mod_cast Iff.rfl

/-- `start_process_thread` gets a slice within the bounds, once the pcb is off the queue. -/
def SliceInBounds (pcbs : Nat → Pcb) (rq : Runqueue) (pcb : Nat) : Prop :=
  ∃ timeslice, getTimesliceForPcb pcbs (runqueueRemovePcb rq pcb) pcb = .ok timeslice ∧
    minGranularity ≤ timeslice ∧ timeslice ≤ schedLatency

section Slice

variable {pcbs : Nat → Pcb} {rq : Runqueue} {pcb : Nat}

theorem sliceInBounds_of_timeslice {total : Int}
    (h : getTimesliceForPcb pcbs (runqueueRemovePcb rq pcb) pcb
      = .ok (sliceOf (weightOf (pcbs pcb).priority) total)) :
    SliceInBounds pcbs rq pcb ↔ sliceOf (weightOf (pcbs pcb).priority) total ≤ schedLatency := by
  constructor
  · rintro ⟨timeslice, hslice, -, hmax⟩
    rw [h] at hslice
    cases hslice
    exact hmax
  · intro hmax
    exact ⟨_, h, minGranularity_le_sliceOf _ _, hmax⟩

end Slice

/-- **The bounds of a slice.** It is never below the minimum granularity. It is within the latency
exactly if nobody else is queued, or the others outweigh the process up to half a percent, with a
total weight that is an int. -/
theorem slice_in_bounds_iff (pcbs : Nat → Pcb) (rq : Runqueue) (pcb : Nat)
    (hqueue : ∀ node ∈ rq.head, ValidPriority (pcbs node).priority)
    (hpcb : ValidPriority (pcbs pcb).priority) :
    SliceInBounds pcbs rq pcb ↔
      rq.head.erase pcb = [] ∨
        (200 * weightOf (pcbs pcb).priority < 201 * totalWeight pcbs (rq.head.erase pcb) ∧
          totalWeight pcbs (rq.head.erase pcb) < 2 ^ 31) := by
  have hothers : ∀ node ∈ rq.head.erase pcb, ValidPriority (pcbs node).priority :=
    fun node hnode => hqueue node (List.mem_of_mem_erase hnode)
  have hslice : getTimesliceForPcb pcbs (runqueueRemovePcb rq pcb) pcb =
      if totalWeight pcbs (rq.head.erase pcb) < 2 ^ 31
      then .ok (sliceOf (weightOf (pcbs pcb).priority) (totalWeight pcbs (rq.head.erase pcb)))
      else .undefined := runqueueTimeslice_eq hothers hpcb
  have hweight := weightOf_pos hpcb
  have htotal := totalWeight_nonneg hothers
  rw [← totalWeight_eq_zero hothers]
  by_cases hlt : totalWeight pcbs (rq.head.erase pcb) < 2 ^ 31
  · rw [if_pos hlt] at hslice
    rw [sliceInBounds_of_timeslice hslice, sliceOf_le_iff hweight.le htotal, and_iff_left hlt]
  · rw [if_neg hlt] at hslice
    constructor
    · rintro ⟨timeslice, h, -⟩
      rw [hslice] at h
      cases h
    · rintro (h | ⟨-, h⟩)
      · omega
      · exact absurd h hlt

/-- Two pcbs, of priority 0 and 1. -/
def twoPcbs (pcb : Nat) : Pcb where
  pid := pcb + 1
  state := .ready
  priority := pcb
  processLength := 1000
  cpuTime := 0
  vruntime := 0

theorem slice_in_bounds_light :
    SliceInBounds twoPcbs ⟨[1, 0], 0⟩ 1 ↔
      [1, 0].erase 1 = [] ∨
        (200 * weightOf (twoPcbs 1).priority < 201 * totalWeight twoPcbs ([1, 0].erase 1) ∧
          totalWeight twoPcbs ([1, 0].erase 1) < 2 ^ 31) :=
  slice_in_bounds_iff twoPcbs ⟨[1, 0], 0⟩ 1 (by decide) (by decide)

/-- The heavier of the two gets 125 ms. -/
theorem slice_not_in_bounds : ¬ SliceInBounds twoPcbs ⟨[1, 0], 0⟩ 0 := by
  have hslice : getTimesliceForPcb twoPcbs (runqueueRemovePcb ⟨[1, 0], 0⟩ 0) 0
      = .ok (sliceOf (weightOf (twoPcbs 0).priority) 820) :=
    runqueueTimeslice_eq (by decide) (by decide)
  rw [sliceInBounds_of_timeslice hslice, sliceOf_le_iff (by decide) (by decide)]
  decide

end Cs342.Cfs
