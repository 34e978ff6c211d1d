import Mathlib

/-!
# Search trees

Binary search trees over a linear order, in which equal values go to the left. Inserting a value
descends to a free place and puts a new leaf there (`insert`): it keeps the order
(`Ordered.insert`) and adds one value (`inorder_insert_perm`). The values of an ordered tree, from
left to right, are sorted (`Ordered.pairwise_inorder`), so they depend only on what was inserted.
-/

namespace SearchTree

variable {α : Type}

/-- The values from left to right. -/
def inorder : BinaryTree α → List α
  | .nil => []
  | .node value left right => inorder left ++ value :: inorder right

theorem length_inorder (t : BinaryTree α) : (inorder t).length = t.numNodes := by
  induction t with
  | nil => rfl
  | node value left right ihl ihr =>
      rw [inorder, List.length_append, List.length_cons, ihl, ihr, BinaryTree.numNodes]
      omega

variable [LinearOrder α] {value : α} {t left right : BinaryTree α}

/-- At every node: left values ≤ value < right values. -/
inductive Ordered : BinaryTree α → Prop
  | nil : Ordered .nil
  | node {value : α} {left right : BinaryTree α} (hleft : Ordered left) (hright : Ordered right)
      (hle : ∀ x ∈ inorder left, x ≤ value) (hlt : ∀ x ∈ inorder right, value < x) :
      Ordered (.node value left right)

theorem ordered_leaf (value : α) : Ordered (.node value .nil .nil) :=
  .node .nil .nil (fun x hx => by cases hx) (fun x hx => by cases hx)

/-- A new leaf for the value, to the right of all smaller values. -/
def insert (value : α) : BinaryTree α → BinaryTree α
  | .nil => .node value .nil .nil
  | .node v left right =>
      if v < value then .node v left (insert value right) else .node v (insert value left) right

theorem insert_node_of_lt {v : α} (h : v < value) :
    insert value (.node v left right) = .node v left (insert value right) := by
  rw [insert, if_pos h]

theorem insert_node_of_le {v : α} (h : value ≤ v) :
    insert value (.node v left right) = .node v (insert value left) right := by
  rw [insert, if_neg (not_lt.mpr h)]

/-- Inserting adds the value, once. -/
theorem inorder_insert_perm (value : α) (t : BinaryTree α) :
    (inorder (insert value t)).Perm (value :: inorder t) := by
  induction t with
  | nil => exact .refl _
  | node v left right ihl ihr =>
      rcases lt_or_ge v value with h | h
      · rw [insert_node_of_lt h, inorder, inorder]
        have hright : (v :: inorder (insert value right)).Perm (value :: v :: inorder right) :=
          (ihr.cons v).trans (.swap ..)
        exact (hright.append_left _).trans List.perm_middle
      · rw [insert_node_of_le h, inorder, inorder]
        exact ihl.append_right (v :: inorder right)

theorem mem_inorder_insert {x : α} : x ∈ inorder (insert value t) ↔ x = value ∨ x ∈ inorder t := by
  rw [(inorder_insert_perm value t).mem_iff, List.mem_cons]

/-- **Inserting keeps the order**, for values that are already in the tree as well. -/
theorem Ordered.insert (h : Ordered t) (value : α) : Ordered (insert value t) := by
  induction h with
  | nil => exact ordered_leaf value
  | @node v left right hleft hright hle hlt ihl ihr =>
      rcases lt_or_ge v value with h | h
      · rw [insert_node_of_lt h]
        apply Ordered.node hleft ihr hle
        intro x hx
        rcases mem_inorder_insert.mp hx with rfl | hx
        · exact h
        · exact hlt x hx
      · rw [insert_node_of_le h]
        refine Ordered.node ihl hright ?_ hlt
        intro x hx
        rcases mem_inorder_insert.mp hx with rfl | hx
        · exact h
        · exact hle x hx

/-- **The values are sorted** from left to right. -/
theorem Ordered.pairwise_inorder (h : Ordered t) : (inorder t).Pairwise (· ≤ ·) := by
  induction h with
  | nil => exact .nil
  | @node v left right hleft hright hle hlt ihl ihr =>
      rw [inorder, List.pairwise_append, List.pairwise_cons]
      refine ⟨ihl, ⟨fun x hx => (hlt x hx).le, ihr⟩, fun x hx y hy => ?_⟩
      rcases List.mem_cons.mp hy with rfl | hy
      · exact hle x hx
      · exact (hle x hx).trans (hlt y hy).le

/-- The tree of values that are inserted one after the other. -/
def insertAll (values : List α) (t : BinaryTree α) : BinaryTree α :=
  values.foldl (fun t value => insert value t) t

theorem insertAll_append (values : List α) (value : α) (t : BinaryTree α) :
    insertAll (values ++ [value]) t = insert value (insertAll values t) := by
  rw [insertAll, List.foldl_append]
  rfl

theorem Ordered.insertAll (h : Ordered t) (values : List α) : Ordered (insertAll values t) := by
  induction values generalizing t with
  | nil => exact h
  | cons value values ih => exact ih (h.insert value)

theorem inorder_insertAll_perm (values : List α) (t : BinaryTree α) :
    (inorder (insertAll values t)).Perm (values ++ inorder t) := by
  induction values generalizing t with
  | nil => exact .refl _
  | cons value values ih =>
      refine (ih (insert value t)).trans ?_
      exact ((inorder_insert_perm value t).append_left values).trans List.perm_middle

end SearchTree
