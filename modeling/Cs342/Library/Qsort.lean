import Mathlib

/-!
# `qsort`

`qsort` promises that the array afterwards is a permutation in which no element compares greater
than a later one, and nothing about elements that compare equal. `qsort` here is one sort that
does so; `eq_qsort` says that where only equal elements compare equal there is no other result.
-/

namespace Qsort

variable {α : Type} {cmp : α → α → Int}

/-- Sort by a comparator that returns a negative, zero or positive number. -/
def qsort (cmp : α → α → Int) (l : List α) : List α := l.mergeSort fun a b => cmp a b ≤ 0

theorem qsort_perm (l : List α) : (qsort cmp l).Perm l := List.mergeSort_perm l _

theorem qsort_pairwise (htrans : ∀ a b c, cmp a b ≤ 0 → cmp b c ≤ 0 → cmp a c ≤ 0)
    (htotal : ∀ a b, cmp a b ≤ 0 ∨ cmp b a ≤ 0) (l : List α) :
    (qsort cmp l).Pairwise fun a b => cmp a b ≤ 0 := by
  have h : (qsort cmp l).Pairwise fun a b => decide (cmp a b ≤ 0) = true := by
    apply List.pairwise_mergeSort
    · intro a b c h₁ h₂
      simp only [decide_eq_true_eq] at h₁ h₂ ⊢
      exact htrans a b c h₁ h₂
    · intro a b
      simpa using htotal a b
  exact h.imp fun h => by simpa using h

/-- **The sorted array is unique** where elements that compare equal are equal: any permutation
in comparator order is the one `qsort` returns. -/
theorem eq_qsort {l m : List α} (htrans : ∀ a b c, cmp a b ≤ 0 → cmp b c ≤ 0 → cmp a c ≤ 0)
    (htotal : ∀ a b, cmp a b ≤ 0 ∨ cmp b a ≤ 0)
    (hantisymm : ∀ a ∈ l, ∀ b ∈ l, cmp a b ≤ 0 → cmp b a ≤ 0 → a = b)
    (hperm : m.Perm l) (hsorted : m.Pairwise fun a b => cmp a b ≤ 0) : m = qsort cmp l := by
  refine List.Perm.eq_of_pairwise ?_ hsorted (qsort_pairwise htrans htotal l)
    (hperm.trans (qsort_perm l).symm)
  intro a b ha hb h₁ h₂
  exact hantisymm a (hperm.subset ha) b ((qsort_perm l).subset hb) h₁ h₂

end Qsort
