import Mathlib
import Cs342.Library.SearchTree

/-!
# Trees of linked nodes

Binary trees whose nodes have been allocated one by one: nodes are numbered in the order of their
allocation, and a pointer is the number of a node, or null. A pointer to a tree determines its
values and the places of its nodes (`IsTree`). Only the nodes at these places matter for it
(`IsTree.frame`), so a tree with no place twice can be changed in one branch and stays what it is in
the other.
-/

variable {α : Type}

/-- A node with its two links. -/
structure TreeNode (α : Type) where
  val : α
  left : Option Nat
  right : Option Nat

/-- The tree from a pointer on, and the places of its nodes from left to right. -/
inductive IsTree (nodes : List (TreeNode α)) : Option Nat → BinaryTree α → List Nat → Prop
  | null : IsTree nodes none .nil []
  | node {i : Nat} {val : α} {left right : Option Nat} {tl tr : BinaryTree α} {pl pr : List Nat}
      (hnode : nodes[i]? = some ⟨val, left, right⟩) (hleft : IsTree nodes left tl pl)
      (hright : IsTree nodes right tr pr) : IsTree nodes (some i) (.node val tl tr) (pl ++ i :: pr)

namespace IsTree

variable {nodes nodes' : List (TreeNode α)} {pointer : Option Nat} {t : BinaryTree α}
  {places : List Nat} {i : Nat}

/-- A new node without children. -/
theorem leaf {val : α} (h : nodes[i]? = some ⟨val, none, none⟩) :
    IsTree nodes (some i) (.node val .nil .nil) [i] := .node h .null .null

theorem length_places (h : IsTree nodes pointer t places) : places.length = t.numNodes := by
  induction h with
  | null => rfl
  | node _ _ _ ihl ihr =>
      rw [List.length_append, List.length_cons, ihl, ihr, BinaryTree.numNodes]
      omega

theorem lt_length (h : IsTree nodes pointer t places) (hi : i ∈ places) : i < nodes.length := by
  induction h with
  | null => cases hi
  | node hnode _ _ ihl ihr =>
      rcases List.mem_append.mp hi with hi | hi
      · exact ihl hi
      · rcases List.mem_cons.mp hi with rfl | hi
        · exact (List.getElem?_eq_some_iff.mp hnode).1
        · exact ihr hi

/-- **Frame**: a tree stays what it is as long as its own nodes do. -/
theorem frame (h : IsTree nodes pointer t places) (hsame : ∀ i ∈ places, nodes'[i]? = nodes[i]?) :
    IsTree nodes' pointer t places := by
  induction h with
  | null => exact .null
  | node hnode _ _ ihl ihr =>
      apply IsTree.node
      · rw [hsame _ (List.mem_append_right _ List.mem_cons_self), hnode]
      · exact ihl fun i hi => hsame i (List.mem_append_left _ hi)
      · exact ihr fun i hi => hsame i (List.mem_append_right _ (List.mem_cons_of_mem _ hi))

end IsTree

/-! ## One node more -/

/-- A pointer now gives `t'`: one node has been allocated, which is in the tree, and no node outside
the tree has changed. -/
structure Grown (nodes nodes' : List (TreeNode α)) (pointer : Option Nat) (t' : BinaryTree α)
    (places places' : List Nat) : Prop where
  tree : IsTree nodes' pointer t' places'
  length : nodes'.length = nodes.length + 1
  perm : places'.Perm (nodes.length :: places)
  outside : ∀ i < nodes.length, i ∉ places → nodes'[i]? = nodes[i]?

/-- Nodes with a new leaf, and with a change at the node that is to link to it. -/
def attach (nodes : List (TreeNode α)) (val : α) (i : Nat) (link : TreeNode α → TreeNode α) :
    List (TreeNode α) :=
  (nodes ++ [TreeNode.mk val none none]).modify i link

section Growing

variable {nodes nodes' : List (TreeNode α)} {t' tl tr : BinaryTree α} {v val : α} {i : Nat}
  {left right : Option Nat} {pl pr places' : List Nat} {link : TreeNode α → TreeNode α}

theorem length_attach : (attach nodes val i link).length = nodes.length + 1 := by
  rw [attach, List.length_modify, List.length_append, List.length_singleton]

theorem attach_new (hi : i < nodes.length) :
    (attach nodes val i link)[nodes.length]? = some ⟨val, none, none⟩ := by
  rw [attach, List.getElem?_modify_ne _ _ hi.ne, List.getElem?_concat_length]

theorem attach_changed {node : TreeNode α} (hnode : nodes[i]? = some node) :
    (attach nodes val i link)[i]? = some (link node) := by
  have hi := (List.getElem?_eq_some_iff.mp hnode).1
  rw [attach, List.getElem?_modify_eq, List.getElem?_append_left hi, hnode]
  rfl

theorem attach_other {j : Nat} (hj : j < nodes.length) (hne : j ≠ i) :
    (attach nodes val i link)[j]? = nodes[j]? := by
  rw [attach, List.getElem?_modify_ne _ _ hne.symm, List.getElem?_append_left hj]

/-- The left subtree and the node above it have no place in the right subtree. -/
theorem not_mem_right (h : (pl ++ i :: pr).Nodup) : i ∉ pr ∧ ∀ j ∈ pl, j ∉ pr := by
  obtain ⟨-, hright, hdisjoint⟩ := List.nodup_append'.mp h
  exact ⟨(List.nodup_cons.mp hright).1,
    fun j hj hj' => hdisjoint hj (List.mem_cons_of_mem _ hj')⟩

theorem not_mem_left (h : (pl ++ i :: pr).Nodup) : i ∉ pl ∧ ∀ j ∈ pr, j ∉ pl := by
  obtain ⟨-, -, hdisjoint⟩ := List.nodup_append'.mp h
  exact ⟨fun hi => hdisjoint hi List.mem_cons_self,
    fun j hj hj' => hdisjoint hj' (List.mem_cons_of_mem _ hj)⟩

variable (hnode : nodes[i]? = some ⟨v, left, right⟩) (hleft : IsTree nodes left tl pl)
  (hright : IsTree nodes right tr pr) (hnodup : (pl ++ i :: pr).Nodup)
include hnode hleft hright hnodup

omit hright in
/-- A subtree that grows makes the tree grow. -/
theorem Grown.of_right (h : Grown nodes nodes' right t' pr places') :
    Grown nodes nodes' (some i) (.node v tl t') (pl ++ i :: pr) (pl ++ i :: places') := by
  obtain ⟨hi, hpl⟩ := not_mem_right hnodup
  constructor
  · have hsame : nodes'[i]? = some ⟨v, left, right⟩ := by
      rw [h.outside i (List.getElem?_eq_some_iff.mp hnode).1 hi, hnode]
    apply IsTree.node hsame
    · exact hleft.frame fun j hj => h.outside j (hleft.lt_length hj) (hpl j hj)
    · exact h.tree
  · exact h.length
  · have hplaces := (h.perm.cons i).trans (.swap ..)
    exact (hplaces.append_left pl).trans List.perm_middle
  · intro j hj hmem
    apply h.outside j hj
    exact fun hj => hmem (List.mem_append_right _ (List.mem_cons_of_mem _ hj))

omit hleft in
theorem Grown.of_left (h : Grown nodes nodes' left t' pl places') :
    Grown nodes nodes' (some i) (.node v t' tr) (pl ++ i :: pr) (places' ++ i :: pr) := by
  obtain ⟨hi, hpr⟩ := not_mem_left hnodup
  constructor
  · have hsame : nodes'[i]? = some ⟨v, left, right⟩ := by
      rw [h.outside i (List.getElem?_eq_some_iff.mp hnode).1 hi, hnode]
    apply IsTree.node hsame
    · exact h.tree
    · exact hright.frame fun j hj => h.outside j (hright.lt_length hj) (hpr j hj)
  · exact h.length
  · exact h.perm.append_right (i :: pr)
  · intro j hj hmem
    exact h.outside j hj fun hj => hmem (List.mem_append_left _ hj)

/-- The new leaf is linked to a node without a right child. -/
theorem Grown.attach_right (hnone : right = none) :
    Grown nodes (attach nodes val i fun node => { node with right := some nodes.length }) (some i)
      (.node v tl (.node val .nil .nil)) (pl ++ i :: pr) (pl ++ [i, nodes.length]) := by
  subst hnone
  obtain ⟨⟩ := hright
  have hi := (List.getElem?_eq_some_iff.mp hnode).1
  obtain ⟨hmem, -⟩ := not_mem_left hnodup
  constructor
  · apply IsTree.node (attach_changed hnode) _ (.leaf (attach_new hi))
    exact hleft.frame fun j hj => attach_other (hleft.lt_length hj) fun h => hmem (h ▸ hj)
  · exact length_attach
  · have hplaces : (pl ++ [i, nodes.length]).Perm (nodes.length :: (pl ++ [i])) := by
      rw [← List.singleton_append, ← List.append_assoc]
      exact List.perm_append_singleton _ _
    exact hplaces
  · intro j hj hmem
    exact attach_other hj fun h => hmem (h ▸ List.mem_append_right _ List.mem_cons_self)

theorem Grown.attach_left (hnone : left = none) :
    Grown nodes (attach nodes val i fun node => { node with left := some nodes.length }) (some i)
      (.node v (.node val .nil .nil) tr) (pl ++ i :: pr) (nodes.length :: i :: pr) := by
  subst hnone
  obtain ⟨⟩ := hleft
  have hi := (List.getElem?_eq_some_iff.mp hnode).1
  obtain ⟨hmem, -⟩ := not_mem_right hnodup
  constructor
  · apply IsTree.node (attach_changed hnode) (.leaf (attach_new hi))
    exact hright.frame fun j hj => attach_other (hright.lt_length hj) fun h => hmem (h ▸ hj)
  · exact length_attach
  · exact .refl _
  · intro j hj hmem
    exact attach_other hj fun h => hmem (h ▸ List.mem_append_right _ List.mem_cons_self)

end Growing
