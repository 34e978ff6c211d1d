import Mathlib

/-!
# Interleavings of any number of sequences

`Interleaves ls out`: `out` merges the sequences `ls`, every one of them in its own order.
-/

/-- `out` takes, at every point, the head of one of the sequences, until all are empty. -/
inductive Interleaves {α : Type} : List (List α) → List α → Prop
  | done {ls : List (List α)} : (∀ l ∈ ls, l = []) → Interleaves ls []
  | take {ls : List (List α)} {i : Nat} {a : α} {l out : List α} :
      ls[i]? = some (a :: l) → Interleaves (ls.set i l) out → Interleaves ls (a :: out)

namespace Interleaves

variable {α : Type} {ls : List (List α)} {out : List α}

/-- Taking the head of one sequence takes one element off the whole. -/
theorem perm_flatten_set {i : Nat} {a : α} {l : List α} (h : ls[i]? = some (a :: l)) :
    ls.flatten.Perm (a :: (ls.set i l).flatten) := by
  induction ls generalizing i with
  | nil => simp at h
  | cons m ls ih =>
      cases i with
      | zero =>
          simp only [List.getElem?_cons_zero, Option.some.injEq] at h
          subst h
          simp
      | succ i =>
          rw [List.getElem?_cons_succ] at h
          simp only [List.set_cons_succ, List.flatten_cons]
          exact ((ih h).append_left m).trans List.perm_middle

/-- An interleaving has the elements of the sequences, each as often as they do. -/
theorem perm_flatten (h : Interleaves ls out) : out.Perm ls.flatten := by
  induction h with
  | @done ls hnil =>
      have : ls.flatten = [] := by simpa [List.flatten_eq_nil_iff] using hnil
      rw [this]
  | take hi _ ih => exact (ih.cons _).trans (perm_flatten_set hi).symm

/-- One more element at the end of one sequence may come at the end of the whole. -/
theorem snoc (h : Interleaves ls out) {i : Nat} {l : List α} (a : α) (hi : ls[i]? = some l) :
    Interleaves (ls.set i (l ++ [a])) (out ++ [a]) := by
  induction h generalizing l with
  | @done ls hnil =>
      have hl : l = [] := hnil l (List.mem_of_getElem? hi)
      subst hl
      have hlt : i < ls.length := (List.getElem?_eq_some_iff.mp hi).1
      refine take (i := i) (l := []) ?_ (done ?_)
      · simp [hlt]
      · intro m hm
        rw [List.set_set] at hm
        rcases List.mem_or_eq_of_mem_set hm with hm | rfl
        · exact hnil m hm
        · rfl
  | @take ls j b m out hj _ ih =>
      by_cases hij : i = j
      · subst hij
        have hl : l = b :: m := by rw [hi] at hj; exact Option.some.inj hj
        subst hl
        have hlt : i < ls.length := (List.getElem?_eq_some_iff.mp hi).1
        have hm : (ls.set i m)[i]? = some m := by simp [hlt]
        have := ih hm
        rw [List.set_set] at this
        refine take (i := i) (l := m ++ [a]) (by simp [hlt]) ?_
        rw [List.set_set]
        exact this
      · have hi' : (ls.set j m)[i]? = some l := by
          rw [List.getElem?_set_ne (Ne.symm hij)]; exact hi
        have := ih hi'
        refine take (i := j) (l := m) (by rw [List.getElem?_set_ne hij]; exact hj) ?_
        rw [List.set_comm _ _ hij]
        exact this

end Interleaves
