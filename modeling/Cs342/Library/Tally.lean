import Mathlib

/-!
# Tallies: association lists that add up

A tally lists keys with weights. Adding a weight to a key raises the entry of that key, or
appends one when there is none. Whatever the order of the additions, a key's weight is the sum of
what was added to it, and the keys stay distinct, so that keys and sums determine a tally up to
order.
-/

namespace Tally

variable {α M : Type} [DecidableEq α] [AddCommMonoid M]

/-- The keys, in list order. -/
def keys (l : List (α × M)) : List α := l.map Prod.fst

/-- The sum of the weights listed under a key. -/
def total (l : List (α × M)) (k : α) : M := ((l.filter fun e => e.1 = k).map Prod.snd).sum

/-- Add `x` to the first entry of `k`, or append a new entry. -/
def bump : List (α × M) → α → M → List (α × M)
  | [], k, x => [(k, x)]
  | e :: l, k, x => if e.1 = k then (e.1, e.2 + x) :: l else e :: bump l k x

/-- Add every entry of a list in turn. -/
def bumpAll (l es : List (α × M)) : List (α × M) := es.foldl (fun t e => bump t e.1 e.2) l

omit [DecidableEq α] [AddCommMonoid M] in
@[simp] theorem keys_nil : keys ([] : List (α × M)) = [] := rfl

omit [DecidableEq α] [AddCommMonoid M] in
@[simp] theorem keys_cons (e : α × M) (l : List (α × M)) : keys (e :: l) = e.1 :: keys l := rfl

@[simp] theorem total_nil (k : α) : total ([] : List (α × M)) k = 0 := rfl

theorem total_cons (e : α × M) (l : List (α × M)) (k : α) :
    total (e :: l) k = (if e.1 = k then e.2 else 0) + total l k := by
  by_cases h : e.1 = k <;> simp [total, h]

theorem total_append (l m : List (α × M)) (k : α) :
    total (l ++ m) k = total l k + total m k := by
  simp [total]

/-- A sum does not depend on the order of the entries. -/
theorem total_perm {l m : List (α × M)} (h : l.Perm m) (k : α) : total l k = total m k :=
  ((h.filter _).map _).sum_eq

theorem total_flatten (ls : List (List (α × M))) (k : α) :
    total ls.flatten k = (ls.map fun l => total l k).sum := by
  induction ls with
  | nil => rfl
  | cons l ls ih => rw [List.flatten_cons, total_append, ih, List.map_cons, List.sum_cons]

theorem total_flatMap_append {ι : Type} (l : List ι) (f g : ι → List (α × M)) (k : α) :
    total (l.flatMap fun i => f i ++ g i) k = total (l.flatMap f) k + total (l.flatMap g) k := by
  induction l with
  | nil => simp
  | cons i l ih =>
      simp only [List.flatMap_cons, total_append, ih]
      abel

/-- A key that is not listed weighs nothing. -/
theorem total_eq_zero {l : List (α × M)} {k : α} (h : k ∉ keys l) : total l k = 0 := by
  induction l with
  | nil => rfl
  | cons e l ih =>
      rw [keys_cons, List.mem_cons, not_or] at h
      rw [total_cons, if_neg (Ne.symm h.1), ih h.2, zero_add]

/-- With distinct keys the weight of an entry is the sum under its key. -/
theorem total_eq_of_mem {l : List (α × M)} (hn : (keys l).Nodup) {e : α × M} (he : e ∈ l) :
    total l e.1 = e.2 := by
  induction l with
  | nil => cases he
  | cons f l ih =>
      rw [keys_cons, List.nodup_cons] at hn
      rcases List.mem_cons.mp he with rfl | hl
      · rw [total_cons, if_pos rfl, total_eq_zero hn.1, add_zero]
      · have hne : f.1 ≠ e.1 := fun h => hn.1 (h ▸ List.mem_map_of_mem hl)
        rw [total_cons, if_neg hne, zero_add, ih hn.2 hl]

/-! ## Additions -/

theorem mem_keys_bump {l : List (α × M)} {k k' : α} {x : M} :
    k' ∈ keys (bump l k x) ↔ k' ∈ keys l ∨ k' = k := by
  induction l with
  | nil => simp [bump]
  | cons e l ih =>
      by_cases h : e.1 = k
      · subst h
        simp only [bump, if_pos, keys_cons, List.mem_cons]
        tauto
      · rw [bump, if_neg h, keys_cons, keys_cons, List.mem_cons, List.mem_cons, ih]
        tauto

theorem nodup_keys_bump {l : List (α × M)} {k : α} {x : M} (h : (keys l).Nodup) :
    (keys (bump l k x)).Nodup := by
  induction l with
  | nil => simp [bump]
  | cons e l ih =>
      rw [keys_cons, List.nodup_cons] at h
      by_cases hk : e.1 = k
      · rw [bump, if_pos hk]
        exact List.nodup_cons.mpr h
      · rw [bump, if_neg hk, keys_cons, List.nodup_cons, mem_keys_bump]
        exact ⟨not_or.mpr ⟨h.1, hk⟩, ih h.2⟩

/-- An addition raises the sum of its key and no other. -/
theorem total_bump (l : List (α × M)) (k k' : α) (x : M) :
    total (bump l k x) k' = total l k' + (if k = k' then x else 0) := by
  induction l with
  | nil => simp [bump, total_cons]
  | cons e l ih =>
      by_cases hk : e.1 = k
      · rw [bump, if_pos hk, total_cons, total_cons, hk]
        by_cases h : k = k'
        · simp only [h, if_true]; abel
        · simp only [h, if_false, zero_add, add_zero]
      · rw [bump, if_neg hk, total_cons, total_cons, ih, add_assoc]

theorem bumpAll_cons (l : List (α × M)) (e : α × M) (es : List (α × M)) :
    bumpAll l (e :: es) = bumpAll (bump l e.1 e.2) es := rfl

theorem mem_keys_bumpAll {l es : List (α × M)} {k : α} :
    k ∈ keys (bumpAll l es) ↔ k ∈ keys l ∨ k ∈ keys es := by
  induction es generalizing l with
  | nil => simp [bumpAll]
  | cons e es ih =>
      rw [bumpAll_cons, ih, mem_keys_bump, keys_cons, List.mem_cons, or_assoc]

theorem nodup_keys_bumpAll {l es : List (α × M)} (h : (keys l).Nodup) :
    (keys (bumpAll l es)).Nodup := by
  induction es generalizing l with
  | nil => exact h
  | cons e es ih => exact ih (nodup_keys_bump h)

/-- **The sum law**: after a list of additions a key weighs what it weighed plus all that was
added to it. -/
theorem total_bumpAll (l es : List (α × M)) (k : α) :
    total (bumpAll l es) k = total l k + total es k := by
  induction es generalizing l with
  | nil => simp [bumpAll]
  | cons e es ih => rw [bumpAll_cons, ih, total_bump, total_cons, add_assoc]

end Tally
