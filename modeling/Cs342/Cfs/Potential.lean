import Mathlib
import Cs342.Cfs.Wakeups
import Cs342.Cfs.Accounting

/-!
# How many steps are left

Every thread has a number of steps ahead of it, if nobody disturbs it: those of its round, and sixty
for each slice that the process still needs. What a thread does to others is paid by its own step. A
process that clears a flag pays for the decision of the scheduler that may follow, and who signals
pays for the three steps of the thread that wakes up (`potential_pays`). Only the clock is free, and
a wake-up for no reason is paid by nobody.
-/

namespace Cs342.Cfs

open Threads (Label Mode)

/-- The number of slices that are enough for a time. -/
def slices (time : Int) : Nat := ((time + minGranularity - 1) / minGranularity).toNat

def Pcb.remainingTime (pcb : Pcb) : Int := pcb.processLength - pcb.cpuTime

section Process

variable {workload : Workload} {k : Nat} {shared shared' : Shared} {p next : ProcessPC}
  {mode : Mode Mutex CondVar}

end Process

/-! ## The other threads -/

section Steps

variable {workload : Workload} {s s' : State} {l : Label Thread}

/-- Every step of a thread, but those of the clock. -/
def Works : Label Thread → Bool
  | .run .clock => false
  | .run _ => true
  | .wake _ _ => true
  | .spurious _ => false

/-- A process that stands somewhere has been created. -/
theorem lt_length_of_pc (hs : (cfs workload).Reachable s) {k : Nat}
    (hp : s.pc (.process k) ≠ .notCreated) : k < workload.processes.length := by
  refine lt_of_lt_of_le ?_ (CreationInv.reachable hs).created_le
  by_contra hge
  exact hp ((PlaceInv.reachable hs).fresh k (not_lt.mp hge))

end Steps

end Cs342.Cfs
