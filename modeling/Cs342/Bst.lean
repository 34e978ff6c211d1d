import Mathlib
import Cs342.Library.LinkedTree
import Cs342.Library.Loop
import Cs342.Library.Numerals

/-!
# The binary search tree (`hw01/src/tree.c`)

A tree of ints that grows by one leaf with every inserted value. Inserting is a loop down from the
root, which ends at the first missing child on its way and links a new node there. Whatever has been
inserted, in any order, the tree is a search tree with all the nodes that were allocated, and an
inorder traversal prints what was inserted in ascending order (`bst_insertion`). Memory does not run
out in the model.
-/

namespace Cs342.Bst

open ByteBuffer (Bytes)

variable {nodes nodes' : List (TreeNode Int)} {root : Nat} {pointer : Option Nat}
  {t : BinaryTree Int} {places : List Nat} {val first : Int}

/-! ## The functions -/

/-- `create_bst_node`: the new node, and the nodes with it. -/
def createBstNode (nodes : List (TreeNode Int)) (val : Int) : Nat × List (TreeNode Int) :=
  (nodes.length, nodes ++ [{ val := val, left := none, right := none }])

/-- The local variable `node` of `insert_bst_node`, and whether the function has returned from
inside of its loop. -/
structure Descent where
  nodes : List (TreeNode Int)
  node : Option Nat
  returned : Bool

/-- One round of `while (node != 0)`. -/
def insertRound (val : Int) (s : Descent) : Outcome (ForInStep Descent) :=
  match s.node with
  | none => .ok (.done s)
  | some i => do
    let node ← Outcome.ofOption s.nodes[i]?
    if node.val < val then
      match node.right with
      | none =>
        let (new, nodes) := createBstNode s.nodes val
        return .done {
          nodes := nodes.modify i fun node => { node with right := some new }
          node := some i
          returned := true }
      | some right => return .yield { s with node := some right }
    else
      match node.left with
      | none =>
        let (new, nodes) := createBstNode s.nodes val
        return .done {
          nodes := nodes.modify i fun node => { node with left := some new }
          node := some i
          returned := true }
      | some left => return .yield { s with node := some left }

/-- `insert_bst_node`, given up after `fuel` rounds. Behind the loop it makes a node that only its
own copy of `root` points to. -/
def insertBstNode (fuel : Nat) (nodes : List (TreeNode Int)) (root : Option Nat) (val : Int) :
    Outcome (Option (List (TreeNode Int))) := do
  let some s ← Loop.run (insertRound val) fuel ⟨nodes, root, false⟩ | return none
  if s.returned then return some s.nodes
  else return some (createBstNode s.nodes val).2

/-- `printf("%d ", val)`. -/
def printed (val : Int) : Bytes := Scanf.decimalText val ++ [32]

/-- What `traverse_inorder` prints, given up where calls are nested more than `depth` deep. -/
def traverseInorder (nodes : List (TreeNode Int)) : Nat → Option Nat → Outcome (Option Bytes)
  | _, none => .ok (some [])
  | 0, some _ => .ok none
  | depth + 1, some i => do
    let node ← Outcome.ofOption nodes[i]?
    let some left ← traverseInorder nodes depth node.left | return none
    let some right ← traverseInorder nodes depth node.right | return none
    return some (left ++ printed node.val ++ right)

example : insertBstNode 2 [⟨5, some 1, none⟩, ⟨3, none, none⟩] (some 0) 5
    = .ok (some [⟨5, some 1, none⟩, ⟨3, none, some 2⟩, ⟨5, none, none⟩]) := by rfl

/-- Inserting ends, with these nodes. -/
def Inserts (nodes : List (TreeNode Int)) (root : Option Nat) (val : Int)
    (nodes' : List (TreeNode Int)) : Prop :=
  ∃ fuel, insertBstNode fuel nodes root val = .ok (some nodes')

/-- The traversal ends, and prints these values in decimal digits, with a blank behind each. -/
def Prints (nodes : List (TreeNode Int)) (root : Option Nat) (vals : List Int) : Prop :=
  ∃ enough, ∀ depth ≥ enough,
    traverseInorder nodes depth root = .ok (some (Scanf.decimalRow vals))

/-- The tree that is created with the first value and gets the others one by one. -/
inductive Built (first : Int) (root : Nat) : List Int → List (TreeNode Int) → Prop
  | create {nodes : List (TreeNode Int)} (h : createBstNode [] first = (root, nodes)) :
      Built first root [] nodes
  | insert {vals : List Int} {nodes nodes' : List (TreeNode Int)} {val : Int}
      (h : Built first root vals nodes) (hinsert : Inserts nodes (some root) val nodes') :
      Built first root (vals ++ [val]) nodes'

/-! ## Inserting -/

/-- The round at a node whose value is smaller. -/
theorem insertRound_of_lt {i : Nat} {v : Int} {left right : Option Nat} (returned : Bool)
    (hnode : nodes[i]? = some ⟨v, left, right⟩) (h : v < val) :
    insertRound val ⟨nodes, some i, returned⟩ = .ok (match right with
      | none => .done ⟨attach nodes val i fun node => { node with right := some nodes.length },
          some i, true⟩
      | some right => .yield ⟨nodes, some right, returned⟩) := by
  simp only [insertRound, hnode, Outcome.ofOption_some, Outcome.ok_bind, if_pos h]
  cases right <;> rfl

theorem insertRound_of_le {i : Nat} {v : Int} {left right : Option Nat} (returned : Bool)
    (hnode : nodes[i]? = some ⟨v, left, right⟩) (h : val ≤ v) :
    insertRound val ⟨nodes, some i, returned⟩ = .ok (match left with
      | none => .done ⟨attach nodes val i fun node => { node with left := some nodes.length },
          some i, true⟩
      | some left => .yield ⟨nodes, some left, returned⟩) := by
  simp only [insertRound, hnode, Outcome.ofOption_some, Outcome.ok_bind, if_neg (not_lt.mpr h)]
  cases left <;> rfl

/-- **The descent** from the root of a tree, whatever its shape: it returns from inside of the loop,
with the value inserted into the tree. -/
theorem exits_insertRound (h : IsTree nodes pointer t places) (hne : pointer ≠ none)
    (hnodup : places.Nodup) (val : Int) :
    ∃ s places', Loop.Exits (insertRound val) ⟨nodes, pointer, false⟩ s ∧ s.returned = true ∧
      Grown nodes s.nodes pointer (SearchTree.insert val t) places places' := by
  induction h with
  | null => exact absurd rfl hne
  | @node i v left right tl tr pl pr hnode hleft hright ihl ihr =>
      obtain ⟨hndl, hndr, -⟩ := List.nodup_append'.mp hnodup
      rcases lt_or_ge v val with hv | hv
      · have hround := insertRound_of_lt false hnode hv
        rw [SearchTree.insert_node_of_lt hv]
        cases right with
        | none =>
            obtain ⟨⟩ := hright
            exact ⟨_, _, Loop.exits_iff.mpr (.inl hround), rfl,
              Grown.attach_right hnode hleft .null hnodup rfl⟩
        | some right =>
            obtain ⟨s, places', hexits, hreturned, hgrown⟩ :=
              ihr (by simp) (List.nodup_cons.mp hndr).2
            exact ⟨s, _, Loop.exits_iff.mpr (.inr ⟨_, hround, hexits⟩), hreturned,
              Grown.of_right hnode hleft hnodup hgrown⟩
      · have hround := insertRound_of_le false hnode hv
        rw [SearchTree.insert_node_of_le hv]
        cases left with
        | none =>
            obtain ⟨⟩ := hleft
            exact ⟨_, _, Loop.exits_iff.mpr (.inl hround), rfl,
              Grown.attach_left hnode .null hright hnodup rfl⟩
        | some left =>
            obtain ⟨s, places', hexits, hreturned, hgrown⟩ := ihl (by simp) hndl
            exact ⟨s, _, Loop.exits_iff.mpr (.inr ⟨_, hround, hexits⟩), hreturned,
              Grown.of_left hnode hright hnodup hgrown⟩

theorem insertBstNode_eq_ok {fuel : Nat} :
    insertBstNode fuel nodes pointer val = .ok (some nodes') ↔
      ∃ s, Loop.run (insertRound val) fuel ⟨nodes, pointer, false⟩ = .ok (some s) ∧
        nodes' = if s.returned then s.nodes else (createBstNode s.nodes val).2 := by
  rw [insertBstNode, Outcome.bind_eq_ok]
  constructor
  · rintro ⟨_ | s, hrun, h⟩
    · cases h
    · refine ⟨s, hrun, ?_⟩
      by_cases hreturned : s.returned <;> simpa [hreturned, eq_comm] using h
  · rintro ⟨s, hrun, rfl⟩
    refine ⟨some s, hrun, ?_⟩
    by_cases hreturned : s.returned <;> simp [hreturned]

theorem inserts_iff : Inserts nodes pointer val nodes' ↔
    ∃ s, Loop.Exits (insertRound val) ⟨nodes, pointer, false⟩ s ∧
      nodes' = if s.returned then s.nodes else (createBstNode s.nodes val).2 := by
  simp only [Inserts, insertBstNode_eq_ok, Loop.Exits]
  exact ⟨fun ⟨fuel, s, hrun, h⟩ => ⟨s, ⟨fuel, hrun⟩, h⟩,
    fun ⟨s, ⟨fuel, hrun⟩, h⟩ => ⟨fuel, s, hrun, h⟩⟩

theorem Inserts.unique {nodes'' : List (TreeNode Int)} (h : Inserts nodes pointer val nodes')
    (h' : Inserts nodes pointer val nodes'') : nodes' = nodes'' := by
  obtain ⟨s, hexits, rfl⟩ := inserts_iff.mp h
  obtain ⟨s', hexits', rfl⟩ := inserts_iff.mp h'
  rw [hexits.unique hexits']

/-- **Inserting** ends, and is the insertion into a search tree with one node more. -/
theorem exists_inserts (h : IsTree nodes (some root) t places) (hnodup : places.Nodup)
    (val : Int) : ∃ nodes' places', Inserts nodes (some root) val nodes' ∧
      Grown nodes nodes' (some root) (SearchTree.insert val t) places places' := by
  obtain ⟨s, places', hexits, hreturned, hgrown⟩ := exits_insertRound h (by simp) hnodup val
  exact ⟨s.nodes, places', inserts_iff.mpr ⟨s, hexits, by rw [if_pos hreturned]⟩, hgrown⟩

/-! ## Building the tree -/

/-- A tree with these values inserted, of all the nodes. -/
structure HasInserted (first : Int) (root : Nat) (vals : List Int) (nodes : List (TreeNode Int))
    (places : List Nat) : Prop where
  tree : IsTree nodes (some root)
    (SearchTree.insertAll vals (.node first .nil .nil)) places
  perm : places.Perm (List.range nodes.length)

theorem HasInserted.nodup {vals : List Int} (h : HasInserted first root vals nodes places) :
    places.Nodup := h.perm.nodup_iff.mpr List.nodup_range

theorem hasInserted_create (h : createBstNode [] first = (root, nodes)) :
    HasInserted first root [] nodes [root] := by
  obtain ⟨rfl, rfl⟩ := Prod.mk.inj h
  exact ⟨.leaf rfl, .refl _⟩

theorem HasInserted.insert {vals : List Int} {places' : List Nat}
    (h : HasInserted first root vals nodes places)
    (hgrown : Grown nodes nodes' (some root)
      (SearchTree.insert val (SearchTree.insertAll vals (.node first .nil .nil))) places places') :
    HasInserted first root (vals ++ [val]) nodes' places' := by
  constructor
  · rw [SearchTree.insertAll_append]
    exact hgrown.tree
  · rw [hgrown.length, List.range_succ]
    exact (hgrown.perm.trans (h.perm.cons _)).trans (List.perm_append_singleton _ _).symm

/-- What has been built holds what has been inserted. -/
theorem Built.hasInserted {vals : List Int} (h : Built first root vals nodes) :
    ∃ places, HasInserted first root vals nodes places := by
  induction h with
  | create h => exact ⟨_, hasInserted_create h⟩
  | insert _ hinsert ih =>
      obtain ⟨places, hold⟩ := ih
      obtain ⟨nodes', places', hinsert', hgrown⟩ := exists_inserts hold.tree hold.nodup _
      obtain rfl := hinsert'.unique hinsert
      exact ⟨places', hold.insert hgrown⟩

theorem exists_built (first : Int) (vals : List Int) :
    ∃ root nodes, Built first root vals nodes := by
  induction vals using List.reverseRecOn with
  | nil => exact ⟨_, _, .create rfl⟩
  | append_singleton vals val ih =>
      obtain ⟨root, nodes, hbuilt⟩ := ih
      obtain ⟨places, hold⟩ := hbuilt.hasInserted
      obtain ⟨nodes', places', hinsert, -⟩ := exists_inserts hold.tree hold.nodup val
      exact ⟨root, nodes', hbuilt.insert hinsert⟩

/-! ## Printing -/

theorem flatMap_printed (vals : List Int) : vals.flatMap printed = Scanf.decimalRow vals := rfl

/-- **The traversal** prints the values from left to right. -/
theorem traverseInorder_eq (h : IsTree nodes pointer t places) {depth : Nat}
    (hdepth : t.height ≤ depth) :
    traverseInorder nodes depth pointer
      = .ok (some ((SearchTree.inorder t).flatMap printed)) := by
  induction h generalizing depth with
  | null => rw [traverseInorder]; rfl
  | node hnode _ _ ihl ihr =>
      rw [BinaryTree.height] at hdepth
      obtain ⟨depth, rfl⟩ := Nat.exists_eq_add_one_of_ne_zero (n := depth) (by omega)
      have hleft := @ihl depth (by omega)
      have hright := @ihr depth (by omega)
      rw [traverseInorder, hnode, Outcome.ofOption_some, Outcome.ok_bind, hleft, Outcome.ok_bind]
      simp only [hright, Outcome.ok_bind, Outcome.pure_eq, SearchTree.inorder, List.flatMap_append,
        List.flatMap_cons, List.append_assoc]

/-- **Insertion into the tree**: whatever values come in, the tree can be built, every insertion
ends and adds one node, the tree is ordered and made of all the nodes, and the traversal prints the
values in ascending order. -/
theorem bst_insertion (first : Int) (vals : List Int) :
    (∃ root nodes, Built first root vals nodes) ∧
    ∀ root nodes, Built first root vals nodes →
      (∃ t places, IsTree nodes (some root) t places ∧ places.Perm (List.range nodes.length) ∧
        nodes.length = vals.length + 1 ∧ SearchTree.Ordered t ∧
        ∀ val, ∃ nodes' places', Inserts nodes (some root) val nodes' ∧
          Grown nodes nodes' (some root) (SearchTree.insert val t) places places') ∧
      ∃ sorted, sorted.Perm (first :: vals) ∧ sorted.Pairwise (· ≤ ·) ∧
        Prints nodes (some root) sorted := by
  refine ⟨exists_built first vals, fun root nodes hbuilt => ?_⟩
  obtain ⟨places, hold⟩ := hbuilt.hasInserted
  have hordered := (SearchTree.ordered_leaf first).insertAll vals
  have hperm : (SearchTree.inorder
      (SearchTree.insertAll vals (.node first .nil .nil))).Perm (first :: vals) :=
    (SearchTree.inorder_insertAll_perm vals _).trans (List.perm_append_singleton first vals)
  constructor
  · refine ⟨_, places, hold.tree, hold.perm, ?_, hordered, exists_inserts hold.tree hold.nodup⟩
    have hlength := hold.perm.length_eq
    rw [List.length_range, hold.tree.length_places, ← SearchTree.length_inorder,
      hperm.length_eq, List.length_cons] at hlength
    exact hlength.symm
  · exact ⟨_, hperm, hordered.pairwise_inorder, _, fun depth => traverseInorder_eq hold.tree⟩

end Cs342.Bst
