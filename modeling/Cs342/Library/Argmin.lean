import Mathlib

/-!
# Scans for a smallest key

A scan keeps the best element so far and replaces it by a live one with a strictly smaller key,
starting from a bound and no element. If some live element lies below the bound, the scan ends at a
live element with the smallest key of all.
-/

namespace Argmin

variable {α : Type} (key : α → Int) (live : α → Bool)

/-- One comparison: the smallest key so far and where it was found. -/
def step (best : Int × Option α) (x : α) : Int × Option α :=
  if best.1 > key x ∧ live x = true then (key x, some x) else best

/-- The scan of a list. -/
def scan (bound : Int) (xs : List α) : Int × Option α := xs.foldl (step key live) (bound, none)

/-- What is kept is below the bound and what has been scanned, or nothing below the bound has been
scanned. -/
structure Best (bound : Int) (scanned : List α) (best : Int × Option α) : Prop where
  le_bound : best.1 ≤ bound
  le_key : ∀ y ∈ scanned, live y = true → best.1 ≤ key y ∨ bound ≤ key y
  found : best.1 < bound → ∃ x ∈ scanned, best.2 = some x ∧ live x = true ∧ key x = best.1

variable {key live} {bound : Int}

theorem Best.step {scanned : List α} {best : Int × Option α} (h : Best key live bound scanned best)
    (x : α) : Best key live bound (scanned ++ [x]) (step key live best x) := by
  unfold Argmin.step
  split
  · next hlt =>
      refine ⟨?_, fun y hy hlive => ?_, fun _ => ⟨x, by simp, rfl, hlt.2, rfl⟩⟩
      · exact hlt.1.le.trans h.le_bound
      · rcases List.mem_append.mp hy with hy | hy
        · exact (h.le_key y hy hlive).imp_left hlt.1.le.trans
        · rw [List.mem_singleton.mp hy]
          exact Or.inl le_rfl
  · next hge =>
      refine ⟨h.le_bound, fun y hy hlive => ?_, fun hb => ?_⟩
      · rcases List.mem_append.mp hy with hy | hy
        · exact h.le_key y hy hlive
        · have hx := List.mem_singleton.mp hy
          subst hx
          grind
      · obtain ⟨z, hz, hfound⟩ := h.found hb
        exact ⟨z, List.mem_append_left _ hz, hfound⟩

theorem best_scan (xs : List α) : Best key live bound xs (scan key live bound xs) := by
  induction xs using List.reverseRecOn with
  | nil => exact ⟨le_rfl, by simp, fun h => absurd h (lt_irrefl _)⟩
  | append_singleton xs x ih =>
      have : scan key live bound (xs ++ [x])
          = step key live (scan key live bound xs) x := by simp [scan]
      rw [this]
      exact ih.step x

/-- What a scan finds is live and below the bound. -/
theorem of_scan_eq_some {xs : List α} {x : α} (h : (scan key live bound xs).2 = some x) :
    x ∈ xs ∧ live x = true ∧ key x < bound := by
  induction xs using List.reverseRecOn with
  | nil => cases h
  | append_singleton xs y ih =>
      have hlast : scan key live bound (xs ++ [y])
          = step key live (scan key live bound xs) y := by simp [scan]
      rw [hlast, step] at h
      split at h
      · next hlt =>
          have hbest : Best key live bound xs (scan key live bound xs) := best_scan xs
          cases h
          exact ⟨by simp, hlt.2, hlt.1.trans_le hbest.le_bound⟩
      · obtain ⟨hmem, hfound⟩ := ih h
        exact ⟨List.mem_append_left _ hmem, hfound⟩

/-- **The scan finds a smallest live key**, if there is one below the bound. -/
theorem scan_eq_some {xs : List α} (h : ∃ y ∈ xs, live y = true ∧ key y < bound) :
    ∃ x ∈ xs, (scan key live bound xs).2 = some x ∧ live x = true ∧
      ∀ y ∈ xs, live y = true → key x ≤ key y := by
  obtain ⟨y, hy, hlive, hlt⟩ := h
  have hbest : Best key live bound xs (scan key live bound xs) := best_scan xs
  have hbelow : (scan key live bound xs).1 < bound := by
    rcases hbest.le_key y hy hlive with h | h <;> omega
  obtain ⟨x, hx, hsome, hxlive, hkey⟩ := hbest.found hbelow
  refine ⟨x, hx, hsome, hxlive, fun z hz hzlive => ?_⟩
  rw [hkey]
  rcases hbest.le_key z hz hzlive with h | h <;> omega

end Argmin
