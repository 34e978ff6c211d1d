import Mathlib

/-!
# Serving the least first

Members of a queue have keys. A turn takes one with a least key, adds a charge to its key, and lets
it back in or not. Whatever the charges are, the least key never goes down (`Turn.lowerBound`), and
the keys stay as close together as the largest charge so far (`Turn.spread`).
-/

namespace LeastFirst

variable {α β : Type} [AddCommGroup β] [LinearOrder β] [IsOrderedAddMonoid β]

/-- No two keys in the queue are further apart. -/
def Spread (bound : β) (key : α → β) (queue : List α) : Prop :=
  ∀ x ∈ queue, ∀ y ∈ queue, key x - key y ≤ bound

/-- A turn of `served`. -/
structure Turn (key : α → β) (queue : List α) (served : α) (charge : β) (key' : α → β)
    (queue' : List α) : Prop where
  least : ∀ x ∈ queue, key served ≤ key x
  nonneg : 0 ≤ charge
  key_served : key' served = key served + charge
  key_other : ∀ x, x ≠ served → key' x = key x
  subset : ∀ x ∈ queue', x ∈ queue

variable {key key' : α → β} {queue queue' : List α} {served : α} {charge bound : β}

/-- Keys do not go down. -/
theorem Turn.le (h : Turn key queue served charge key' queue') (x : α) : key x ≤ key' x := by
  by_cases hx : x = served
  · rw [hx, h.key_served]
    exact le_add_of_nonneg_right h.nonneg
  · rw [h.key_other x hx]

/-- **The least key never goes down.** -/
theorem Turn.lowerBound (h : Turn key queue served charge key' queue') {least : β}
    (hleast : ∀ x ∈ queue, least ≤ key x) : ∀ x ∈ queue', least ≤ key' x :=
  fun x hx => (hleast x (h.subset x hx)).trans (h.le x)

/-- **The spread of the keys** stays below the larger one of the old bound and the charge. -/
theorem Turn.spread (h : Turn key queue served charge key' queue')
    (hspread : Spread bound key queue) : Spread (max bound charge) key' queue' := by
  intro x hx y hy
  by_cases hserved : x = served
  · -- the served one was the least, so it is ahead of the others by the charge at most
    have hy' := (h.least y (h.subset y hy)).trans (h.le y)
    apply le_max_of_le_right
    rw [hserved, h.key_served, sub_le_iff_le_add, add_comm]
    exact add_le_add_right hy' charge
  · apply le_max_of_le_left
    rw [h.key_other x hserved]
    exact (sub_le_sub_left (h.le y) (key x)).trans (hspread x (h.subset x hx) y (h.subset y hy))

end LeastFirst
