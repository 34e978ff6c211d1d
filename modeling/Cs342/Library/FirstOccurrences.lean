import Mathlib

/-!
# First occurrences

A stream of values is read up to some point, and every value is kept where it comes first, unless it
was used before the stream began. What is kept is every other value that the stream has had so far,
once (`mem_firstOccurrences`, `nodup_firstOccurrences`), in the order of the stream
(`pairwise_firstOccurrences`).
-/

section

variable {α : Type} [DecidableEq α]

/-- The values among the first `n` of a stream that are not used, each where it comes first. -/
def firstOccurrences (f : Nat → α) (used : List α) : Nat → List α
  | 0 => []
  | n + 1 =>
    if f n ∈ used ++ firstOccurrences f used n then firstOccurrences f used n
    else firstOccurrences f used n ++ [f n]

example : firstOccurrences (fun i => i * i % 7) [4] 6 = [0, 1, 2] := by decide

variable {f : Nat → α} {used : List α} {n m : Nat} {x : α}

theorem firstOccurrences_of_mem (h : f n ∈ used ++ firstOccurrences f used n) :
    firstOccurrences f used (n + 1) = firstOccurrences f used n := if_pos h

theorem firstOccurrences_of_not_mem (h : f n ∉ used ++ firstOccurrences f used n) :
    firstOccurrences f used (n + 1) = firstOccurrences f used n ++ [f n] := if_neg h

theorem mem_firstOccurrences : x ∈ firstOccurrences f used n ↔ x ∉ used ∧ ∃ i < n, f i = x := by
  induction n with
  | zero => simp [firstOccurrences]
  | succ n ih =>
      have hsplit : (∃ i < n + 1, f i = x) ↔ (∃ i < n, f i = x) ∨ f n = x := by
        simp only [Nat.lt_succ_iff_lt_or_eq, or_and_right, exists_or, exists_eq_left]
      rw [hsplit]
      by_cases h : f n ∈ used ++ firstOccurrences f used n
      · rw [firstOccurrences_of_mem h, ih]
        constructor
        · rintro ⟨hx, hbefore⟩
          exact ⟨hx, Or.inl hbefore⟩
        · rintro ⟨hx, hbefore | rfl⟩
          · exact ⟨hx, hbefore⟩
          · exact ih.mp ((List.mem_append.mp h).resolve_left hx)
      · rw [firstOccurrences_of_not_mem h, List.mem_append, List.mem_singleton, ih]
        constructor
        · rintro (⟨hx, hbefore⟩ | rfl)
          · exact ⟨hx, Or.inl hbefore⟩
          · exact ⟨fun hx => h (List.mem_append_left _ hx), Or.inr rfl⟩
        · rintro ⟨hx, hbefore | rfl⟩
          · exact Or.inl ⟨hx, hbefore⟩
          · exact Or.inr rfl

theorem nodup_firstOccurrences : (firstOccurrences f used n).Nodup := by
  induction n with
  | zero => exact List.nodup_nil
  | succ n ih =>
      by_cases h : f n ∈ used ++ firstOccurrences f used n
      · rw [firstOccurrences_of_mem h]
        exact ih
      · rw [firstOccurrences_of_not_mem h, ← List.concat_eq_append]
        exact ih.concat fun hmem => h (List.mem_append_right _ hmem)

/-- **The order of the stream**: when a value has come, those behind it have not. -/
theorem pairwise_firstOccurrences : (firstOccurrences f used n).Pairwise
    fun x y => ∃ i, f i = x ∧ ∀ j ≤ i, f j ≠ y := by
  induction n with
  | zero => exact .nil
  | succ n ih =>
      by_cases h : f n ∈ used ++ firstOccurrences f used n
      · rw [firstOccurrences_of_mem h]
        exact ih
      · rw [firstOccurrences_of_not_mem h, List.pairwise_append]
        refine ⟨ih, List.pairwise_singleton _ _, fun x hx y hy => ?_⟩
        rw [List.mem_singleton.mp hy]
        obtain ⟨-, i, hi, rfl⟩ := mem_firstOccurrences.mp hx
        refine ⟨i, rfl, fun j hj heq => h (List.mem_append_right _ ?_)⟩
        apply mem_firstOccurrences.mpr
        exact ⟨fun hused => h (List.mem_append_left _ hused), j, hj.trans_lt hi, heq⟩

/-- Nothing is kept while nothing new comes. -/
theorem firstOccurrences_of_stale (hle : n ≤ m)
    (h : ∀ i, n ≤ i → i < m → f i ∈ used ++ firstOccurrences f used n) :
    firstOccurrences f used m = firstOccurrences f used n := by
  induction m, hle using Nat.le_induction with
  | base => rfl
  | succ m hle ih =>
      have hsame := ih fun i hi hlt => h i hi (hlt.trans m.lt_succ_self)
      rw [firstOccurrences_of_mem, hsame]
      rw [hsame]
      exact h m hle m.lt_succ_self

/-- **Everything has come** exactly if as many values are kept as there are. -/
theorem length_firstOccurrences_iff {all : List α} (hall : all.Nodup) (hf : ∀ i, f i ∈ used ++ all)
    (hdisjoint : ∀ x ∈ all, x ∉ used) :
    (∃ n, (firstOccurrences f used n).length = all.length) ↔ ∀ x ∈ all, ∃ i, f i = x := by
  have hsub : ∀ n, firstOccurrences f used n ⊆ all := by
    intro n x hx
    obtain ⟨hused, i, -, rfl⟩ := mem_firstOccurrences.mp hx
    exact (List.mem_append.mp (hf i)).resolve_left hused
  constructor
  · rintro ⟨n, hlength⟩ x hx
    have hperm : (firstOccurrences f used n).Perm all :=
      (nodup_firstOccurrences.subperm (hsub n)).perm_of_length_le hlength.ge
    obtain ⟨-, i, -, hi⟩ := mem_firstOccurrences.mp (hperm.mem_iff.mpr hx)
    exact ⟨i, hi⟩
  · intro h
    choose! index hindex using h
    -- by the last of these indices, everything has come
    refine ⟨(all.map index).sum + 1, ?_⟩
    refine le_antisymm (nodup_firstOccurrences.subperm (hsub _)).length_le ?_
    refine (hall.subperm fun x hx => ?_).length_le
    apply mem_firstOccurrences.mpr
    refine ⟨hdisjoint x hx, index x, ?_, hindex x hx⟩
    exact Nat.lt_succ_of_le (List.single_le_sum (by simp) _ (List.mem_map_of_mem hx))

end
