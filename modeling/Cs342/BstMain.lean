import Mathlib
import Cs342.Library.Bounded
import Cs342.Library.FirstOccurrences
import Cs342.Library.Heap
import Cs342.Library.PrintedText
import Cs342.Bst

/-!
# The whole tree program (`main` of `hw01/src/tree.c`)

The numbers below `NODE_COUNT` are drawn in a random order and inserted into a tree that begins with
the middle one. A number that has been drawn before is drawn again, so the program ends exactly if
`rand` comes to every number at some time; then it prints the numbers in the order in which they
came first, and in ascending order, and frees every node once (`tree_program`).
-/

namespace Cs342.Bst

open ByteBuffer (Bytes)
open PrintedText (ascii newline)

/-! ## The functions -/

/-- `free_tree`, given up where calls are nested more than `depth` deep. -/
def freeTree : Nat → Heap (TreeNode Int) → Option Nat → Outcome (Option (Heap (TreeNode Int)))
  | _, heap, none => .ok (some heap)
  | 0, _, some _ => .ok none
  | depth + 1, heap, some i => do
    let node ← heap.read i
    let some heap ← freeTree depth heap node.left | return none
    let node ← heap.read i
    let some heap ← freeTree depth heap node.right | return none
    let heap ← heap.free i
    return some heap

/-- The results of `rand`, one after the other. -/
abbrev RandomNumbers := Nat → Fin (2 ^ 31)

/-- The calls of `rand` so far, and `randomNumber`, which is assigned before it is read. -/
structure Drawing where
  calls : Nat
  randomNumber : Nat

/-- One round of `do … while (table[randomNumber] != 0)`. -/
def drawRound (rand : RandomNumbers) (nodeCount : Nat) (table : List Int) (s : Drawing) :
    Outcome (ForInStep Drawing) := do
  let randomNumber := (rand s.calls).val % nodeCount
  let used ← Outcome.ofOption table[randomNumber]?
  let s := { calls := s.calls + 1, randomNumber }
  return if used ≠ 0 then .yield s else .done s

/-- The variables of `main` in its loop, and what it has printed. -/
structure Filling where
  calls : Nat
  table : List Int
  nodes : List (TreeNode Int)
  stdout : Bytes

/-- One round of the `for` loop. -/
def fillRound (rand : RandomNumbers) (nodeCount root : Nat) (s : Filling) : Bounded Filling := do
  let drawing ← Bounded.loop (drawRound rand nodeCount s.table) ⟨s.calls, 0⟩
  let randomNumber := drawing.randomNumber
  let nodes ← Bounded.of fun fuel => insertBstNode fuel s.nodes (some root) randomNumber
  return {
    calls := drawing.calls
    table := s.table.set randomNumber 1
    nodes
    stdout := s.stdout ++ printed randomNumber }

/-- `for (int i = 0; i != NODE_COUNT - 1; ++i)`, by the rounds that are left. -/
def fill (rand : RandomNumbers) (nodeCount root : Nat) : Nat → Filling → Bounded Filling
  | 0, s => pure s
  | rounds + 1, s => do
    let s ← fillRound rand nodeCount root s
    fill rand nodeCount root rounds s

def startText (nodeCount : Nat) : Bytes :=
  ascii "Starting to populate BST randomly (" ++ Scanf.decimalText nodeCount ++ ascii " nodes):\n"

/-- What is printed between the two rows of numbers. -/
def elapsedText (elapsed : Int) : Bytes :=
  ascii "\nmicroseconds elapsed: " ++ Scanf.decimalText elapsed ++
    ascii "\n\nValidate BST with inorder traversal:\n"

/-- `main` with its constant: what is printed, and the nodes that are left. The time that it takes
is given. -/
def treeProgram (nodeCount : Nat) (rand : RandomNumbers) (elapsed : Int) :
    Bounded (Bytes × Heap (TreeNode Int)) := do
  let midpoint := nodeCount / 2
  let (root, nodes) := createBstNode [] midpoint
  let table := (List.replicate nodeCount (0 : Int)).set midpoint 1
  let s ← fill rand nodeCount root (nodeCount - 1)
    { calls := 0, table, nodes, stdout := startText nodeCount }
  let sorted ← Bounded.of fun depth => traverseInorder s.nodes depth (some root)
  let heap ← Bounded.of fun depth => freeTree depth (Heap.ofList s.nodes) (some root)
  return (s.stdout ++ elapsedText elapsed ++ sorted ++ [newline], heap)

/-- `main`. -/
def main (rand : RandomNumbers) (elapsed : Int) : Bounded (Bytes × Heap (TreeNode Int)) :=
  treeProgram 1000 rand elapsed

/-! ## Freeing -/

section Freeing

variable {nodes : List (TreeNode Int)} {pointer : Option Nat} {t : BinaryTree Int}
  {places : List Nat}

/-- **Freeing a tree** frees each of its nodes once and touches no other cell. -/
theorem freeTree_eq (h : IsTree nodes pointer t places) (hnodup : places.Nodup)
    {heap : Heap (TreeNode Int)} (hsame : ∀ i ∈ places, heap.cells i = nodes[i]?) :
    ∃ heap' : Heap (TreeNode Int),
      (∀ i, heap'.cells i = if i ∈ places then none else heap.cells i) ∧
      ∀ depth, freeTree depth heap pointer
        = .ok (if t.height ≤ depth then some heap' else none) := by
  induction h generalizing heap with
  | null => exact ⟨heap, fun i => rfl, fun depth => by rw [freeTree]; rfl⟩
  | @node i v left right tl tr pl pr hnode _ _ ihl ihr =>
      obtain ⟨hndl, hndr, -⟩ := List.nodup_append'.mp hnodup
      obtain ⟨hil, hpr⟩ := not_mem_left hnodup
      obtain ⟨hir, hndr⟩ := List.nodup_cons.mp hndr
      obtain ⟨heap₁, hcells₁, hfree₁⟩ := ihl hndl
        fun j hj => hsame j (List.mem_append_left _ hj)
      -- the node and the right subtree are still there
      have hright : ∀ j ∈ pr, heap₁.cells j = nodes[j]? := by
        intro j hj
        rw [hcells₁, if_neg (hpr j hj)]
        exact hsame j (List.mem_append_right _ (List.mem_cons_of_mem _ hj))
      obtain ⟨heap₂, hcells₂, hfree₂⟩ := ihr hndr hright
      have hcell : heap.cells i = some ⟨v, left, right⟩ := by
        rw [hsame i (List.mem_append_right _ List.mem_cons_self), hnode]
      have hcell₁ : heap₁.cells i = some ⟨v, left, right⟩ := by rw [hcells₁, if_neg hil, hcell]
      have hcell₂ : heap₂.cells i = some ⟨v, left, right⟩ := by rw [hcells₂, if_neg hir, hcell₁]
      obtain ⟨heap₃, hfree₃, -, hcells₃⟩ := Heap.free_of_cells hcell₂
      refine ⟨heap₃, fun j => ?_, fun depth => ?_⟩
      · rw [hcells₃, Function.update_apply, hcells₂, hcells₁]
        simp only [List.mem_append, List.mem_cons]
        split_ifs <;> grind
      · cases depth with
        | zero => rfl
        | succ depth =>
            rw [freeTree, Heap.read_of_cells hcell, Outcome.ok_bind, hfree₁, Outcome.ok_bind,
              BinaryTree.height]
            by_cases hl : tl.height ≤ depth
            · rw [if_pos hl]
              dsimp only
              rw [Heap.read_of_cells hcell₁, Outcome.ok_bind, hfree₂, Outcome.ok_bind]
              by_cases hr : tr.height ≤ depth
              · rw [if_pos hr, if_pos (by omega)]
                dsimp only
                rw [hfree₃]
                rfl
              · rw [if_neg hr, if_neg (by omega)]
                rfl
            · rw [if_neg hl, if_neg (by omega)]
              rfl

/-- The traversal is given up or prints the whole tree. -/
theorem traverseInorder_eq_ite (h : IsTree nodes pointer t places) (depth : Nat) :
    traverseInorder nodes depth pointer = .ok (if t.height ≤ depth then
      some ((SearchTree.inorder t).flatMap printed) else none) := by
  by_cases hdepth : t.height ≤ depth
  · rw [if_pos hdepth]
    exact traverseInorder_eq h hdepth
  · rw [if_neg hdepth]
    induction h generalizing depth with
    | null => exact absurd (Nat.zero_le _) hdepth
    | @node i v left right tl tr pl pr hnode hleft hright ihl ihr =>
        cases depth with
        | zero => rfl
        | succ depth =>
            rw [traverseInorder, hnode, Outcome.ofOption_some, Outcome.ok_bind]
            rw [BinaryTree.height] at hdepth
            by_cases hl : tl.height ≤ depth
            · rw [traverseInorder_eq hleft hl, Outcome.ok_bind]
              dsimp only
              rw [ihr depth (by omega)]
              rfl
            · rw [ihl depth hl]
              rfl

end Freeing

/-! ## Drawing -/

/-- The number that a call of `rand` draws. -/
def draw (rand : RandomNumbers) (nodeCount i : Nat) : Nat := (rand i).val % nodeCount

/-- The table has an entry for every number, which says whether it is used. -/
structure Marks (nodeCount : Nat) (table : List Int) (used : List Nat) : Prop where
  length : table.length = nodeCount
  entry : ∀ r < nodeCount, ∃ v, table[r]? = some v ∧ (v ≠ 0 ↔ r ∈ used)

section Drawing

variable {rand : RandomNumbers} {nodeCount : Nat} {table : List Int} {used : List Nat}

theorem marks_init (midpoint : Nat) (hlt : midpoint < nodeCount) :
    Marks nodeCount ((List.replicate nodeCount (0 : Int)).set midpoint 1) [midpoint] := by
  refine ⟨by simp, fun r hr => ?_⟩
  by_cases h : r = midpoint
  · subst h
    exact ⟨1, by simp [hr], by simp⟩
  · exact ⟨0, by simp [Ne.symm h, hr], by simp [h]⟩

theorem Marks.set (h : Marks nodeCount table used) {number : Nat} (hlt : number < nodeCount) :
    Marks nodeCount (table.set number 1) (used ++ [number]) := by
  refine ⟨by rw [List.length_set, h.length], fun r hr => ?_⟩
  by_cases heq : r = number
  · subst heq
    exact ⟨1, by simp [h.length, hr], by simp⟩
  · obtain ⟨v, hv, hused⟩ := h.entry r hr
    refine ⟨v, by rw [List.getElem?_set_ne (Ne.symm heq), hv], ?_⟩
    rw [hused, List.mem_append, List.mem_singleton]
    exact (or_iff_left heq).symm

/-- One round draws a number and goes on if it is used. -/
theorem drawRound_eq (hpos : 0 < nodeCount) (h : Marks nodeCount table used) (s : Drawing) :
    drawRound rand nodeCount table s = .ok (if draw rand nodeCount s.calls ∈ used
      then .yield ⟨s.calls + 1, draw rand nodeCount s.calls⟩
      else .done ⟨s.calls + 1, draw rand nodeCount s.calls⟩) := by
  obtain ⟨v, hv, hused⟩ := h.entry _ (Nat.mod_lt (rand s.calls).val hpos)
  rw [drawRound, hv, Outcome.ofOption_some, Outcome.ok_bind]
  simp only [hused, Outcome.pure_eq]
  rfl

/-- The first call, from one on, that draws a number that is not used. -/
structure FirstUnused (rand : RandomNumbers) (nodeCount : Nat) (used : List Nat)
    (calls k : Nat) : Prop where
  le : calls ≤ k
  unused : draw rand nodeCount k ∉ used
  before : ∀ i, calls ≤ i → i < k → draw rand nodeCount i ∈ used

theorem within_draw (hpos : 0 < nodeCount) (h : Marks nodeCount table used) (calls number : Nat) :
    (Bounded.loop (drawRound rand nodeCount table) ⟨calls, number⟩).Within fun s =>
      ∃ k, FirstUnused rand nodeCount used calls k ∧ s = ⟨k + 1, draw rand nodeCount k⟩ := by
  refine Bounded.within_loop
    (P := fun s => calls ≤ s.calls ∧ ∀ i, calls ≤ i → i < s.calls → draw rand nodeCount i ∈ used)
    (fun s hs => ?_) ⟨le_rfl, fun i hi hlt => absurd hlt (not_lt.mpr hi)⟩
  obtain ⟨hle, hbefore⟩ := hs
  by_cases hused : draw rand nodeCount s.calls ∈ used
  · refine .inl ⟨_, by rw [drawRound_eq hpos h, if_pos hused], hle.trans (Nat.le_succ _), ?_⟩
    intro i hi hlt
    rcases Nat.lt_succ_iff_lt_or_eq.mp hlt with hlt | rfl
    · exact hbefore i hi hlt
    · exact hused
  · exact .inr ⟨_, by rw [drawRound_eq hpos h, if_neg hused], s.calls, ⟨hle, hused, hbefore⟩, rfl⟩

theorem returns_draw (hpos : 0 < nodeCount) (h : Marks nodeCount table used) {calls k : Nat}
    (number : Nat) (hk : FirstUnused rand nodeCount used calls k) :
    (Bounded.loop (drawRound rand nodeCount table) ⟨calls, number⟩).Returns
      ⟨k + 1, draw rand nodeCount k⟩ := by
  apply Bounded.returns_of_exits
  obtain ⟨hle, hunused, hbefore⟩ := hk
  induction hd : k - calls generalizing calls number with
  | zero =>
      obtain rfl : calls = k := by omega
      exact Loop.exits_iff.mpr (.inl (by rw [drawRound_eq hpos h, if_neg hunused]))
  | succ d ih =>
      refine Loop.exits_iff.mpr (.inr ⟨⟨calls + 1, draw rand nodeCount calls⟩, ?_, ?_⟩)
      · rw [drawRound_eq hpos h, if_pos (hbefore calls le_rfl (by omega))]
      · exact ih _ (by omega) (fun i hi hlt => hbefore i (by omega) hlt) (by omega)

theorem exists_firstUnused {calls k : Nat} (hle : calls ≤ k)
    (hunused : draw rand nodeCount k ∉ used) :
    ∃ k, FirstUnused rand nodeCount used calls k := by
  have hex : ∃ k, calls ≤ k ∧ draw rand nodeCount k ∉ used := ⟨k, hle, hunused⟩
  refine ⟨Nat.find hex, (Nat.find_spec hex).1, (Nat.find_spec hex).2, fun i hi hlt => ?_⟩
  by_contra h
  exact Nat.find_min hex hlt ⟨hi, h⟩

end Drawing

/-! ## Filling the tree -/

/-- What the calls of `rand` have drawn besides the middle number. -/
def drawn (rand : RandomNumbers) (nodeCount calls : Nat) : List Nat :=
  firstOccurrences (draw rand nodeCount) [nodeCount / 2] calls

/-- The tree holds what has been drawn, and the table and the output say so. -/
structure FillInv (rand : RandomNumbers) (nodeCount root : Nat) (s : Filling) : Prop where
  marks : Marks nodeCount s.table (nodeCount / 2 :: drawn rand nodeCount s.calls)
  built : Built (nodeCount / 2 : Nat) root ((drawn rand nodeCount s.calls).map Nat.cast) s.nodes
  stdout : s.stdout = startText nodeCount ++
    ((drawn rand nodeCount s.calls).map Nat.cast).flatMap printed

section Filling

variable {rand : RandomNumbers} {nodeCount root : Nat} {s : Filling}

/-- An insertion that ends is defined with every bound. -/
theorem inserts_bounded {nodes nodes' : List (TreeNode Int)} {pointer : Option Nat} {val : Int}
    (h : Inserts nodes pointer val nodes') :
    (Bounded.of fun fuel => insertBstNode fuel nodes pointer val).Within (· = nodes') ∧
      (Bounded.of fun fuel => insertBstNode fuel nodes pointer val).Returns nodes' := by
  obtain ⟨s, hexits, hs⟩ := inserts_iff.mp h
  have hsome : ∀ {fuel}, Loop.run (insertRound val) fuel ⟨nodes, pointer, false⟩ = .ok (some s) →
      insertBstNode fuel nodes pointer val = .ok (some nodes') := fun hrun =>
    insertBstNode_eq_ok.mpr ⟨s, hrun, hs⟩
  constructor
  · intro fuel
    rcases Bounded.within_of_exits hexits fuel with hnone | ⟨t, hrun, rfl⟩
    · refine .inl ?_
      have hnone : Loop.run (insertRound val) fuel ⟨nodes, pointer, false⟩ = .ok none := hnone
      rw [Bounded.of, insertBstNode, hnone]
      rfl
    · exact .inr ⟨nodes', hsome hrun, rfl⟩
  · obtain ⟨enough, hrun⟩ := Bounded.returns_of_exits hexits
    exact ⟨enough, fun fuel hfuel => hsome (hrun fuel hfuel)⟩

/-- A number that comes for the first time. -/
theorem drawn_succ {calls k : Nat}
    (hk : FirstUnused rand nodeCount (nodeCount / 2 :: drawn rand nodeCount calls) calls k) :
    drawn rand nodeCount (k + 1) = drawn rand nodeCount calls ++ [draw rand nodeCount k] := by
  have hstale : drawn rand nodeCount k = drawn rand nodeCount calls :=
    firstOccurrences_of_stale hk.le hk.before
  have hunused := hk.unused
  rw [← hstale] at hunused ⊢
  exact firstOccurrences_of_not_mem hunused

/-- The state behind a round that draws with call `k`. -/
theorem FillInv.next (hpos : 0 < nodeCount) (h : FillInv rand nodeCount root s) {k : Nat}
    (hk : FirstUnused rand nodeCount (nodeCount / 2 :: drawn rand nodeCount s.calls) s.calls k)
    {nodes : List (TreeNode Int)}
    (hnodes : Inserts s.nodes (some root) (draw rand nodeCount k) nodes) :
    FillInv rand nodeCount root {
      calls := k + 1
      table := s.table.set (draw rand nodeCount k) 1
      nodes
      stdout := s.stdout ++ printed (draw rand nodeCount k) } := by
  have hdrawn := drawn_succ hk
  constructor
  · dsimp only
    rw [hdrawn, ← List.cons_append]
    exact h.marks.set (Nat.mod_lt _ hpos)
  · dsimp only
    rw [hdrawn, List.map_append, List.map_singleton]
    exact h.built.insert hnodes
  · dsimp only
    rw [hdrawn, h.stdout, List.map_append, List.flatMap_append, List.map_singleton,
      List.flatMap_singleton, List.append_assoc]

theorem FillInv.exists_inserts (h : FillInv rand nodeCount root s) (val : Int) :
    ∃ nodes, Inserts s.nodes (some root) val nodes := by
  obtain ⟨places, hold⟩ := h.built.hasInserted
  obtain ⟨nodes, -, hnodes, -⟩ := Bst.exists_inserts hold.tree hold.nodup val
  exact ⟨nodes, hnodes⟩

/-- **Step lemma**: a round that ends has drawn one number more. -/
theorem within_fillRound (hpos : 0 < nodeCount) (h : FillInv rand nodeCount root s) :
    (fillRound rand nodeCount root s).Within fun t => FillInv rand nodeCount root t ∧
      (drawn rand nodeCount t.calls).length = (drawn rand nodeCount s.calls).length + 1 := by
  unfold fillRound
  refine (within_draw hpos h.marks s.calls 0).bind ?_
  rintro drawing ⟨k, hk, rfl⟩
  obtain ⟨nodes, hnodes⟩ := h.exists_inserts (draw rand nodeCount k)
  refine (inserts_bounded hnodes).1.bind ?_
  rintro _ rfl
  refine Bounded.within_pure ⟨h.next hpos hk hnodes, ?_⟩
  rw [drawn_succ hk, List.length_append, List.length_singleton]

/-- It ends if there is a number to draw. -/
theorem exists_returns_fillRound (hpos : 0 < nodeCount) (h : FillInv rand nodeCount root s)
    {k : Nat} (hk : FirstUnused rand nodeCount (nodeCount / 2 :: drawn rand nodeCount s.calls)
      s.calls k) : ∃ t, (fillRound rand nodeCount root s).Returns t := by
  obtain ⟨nodes, hnodes⟩ := h.exists_inserts (draw rand nodeCount k)
  unfold fillRound
  exact ⟨_, (returns_draw hpos h.marks 0 hk).bind
    ((inserts_bounded hnodes).2.bind (Bounded.returns_pure _))⟩

/-- **Run lemma**: a loop that ends has drawn one number in each round. -/
theorem within_fill (hpos : 0 < nodeCount) (rounds : Nat) (h : FillInv rand nodeCount root s) :
    (fill rand nodeCount root rounds s).Within fun t => FillInv rand nodeCount root t ∧
      (drawn rand nodeCount t.calls).length = (drawn rand nodeCount s.calls).length + rounds := by
  induction rounds generalizing s with
  | zero => exact Bounded.within_pure ⟨h, rfl⟩
  | succ rounds ih =>
      rw [fill]
      refine (within_fillRound hpos h).bind ?_
      rintro t ⟨ht, hlength⟩ fuel
      rcases ih ht fuel with hnone | ⟨u, hu, hinv, hrest⟩
      · exact .inl hnone
      · exact .inr ⟨u, hu, hinv, by omega⟩

/-- It ends if so many numbers come at some time. -/
theorem exists_returns_fill (hpos : 0 < nodeCount) (rounds : Nat)
    (h : FillInv rand nodeCount root s) {n : Nat}
    (hn : (drawn rand nodeCount s.calls).length + rounds ≤ (drawn rand nodeCount n).length) :
    ∃ t, (fill rand nodeCount root rounds s).Returns t := by
  induction rounds generalizing s with
  | zero => exact ⟨s, Bounded.returns_pure s⟩
  | succ rounds ih =>
      obtain ⟨k, hk⟩ : ∃ k, FirstUnused rand nodeCount
          (nodeCount / 2 :: drawn rand nodeCount s.calls) s.calls k := by
        by_contra hnone
        -- nothing new comes any more, so that nothing is drawn up to `n`
        have hstale : ∀ i, s.calls ≤ i →
            draw rand nodeCount i ∈ nodeCount / 2 :: drawn rand nodeCount s.calls := by
          intro i hi
          by_contra hunused
          exact hnone (exists_firstUnused hi hunused)
        have hsame : (drawn rand nodeCount n).length ≤ (drawn rand nodeCount s.calls).length := by
          refine (nodup_firstOccurrences.subperm fun x hx => ?_).length_le
          obtain ⟨hother, i, -, rfl⟩ := mem_firstOccurrences.mp hx
          rcases Nat.lt_or_ge i s.calls with hi | hi
          · exact mem_firstOccurrences.mpr ⟨hother, i, hi, rfl⟩
          · exact (List.mem_cons.mp (hstale i hi)).resolve_left
              fun heq => hother (List.mem_singleton.mpr heq)
        omega
      obtain ⟨t, ht⟩ := exists_returns_fillRound hpos h hk
      obtain ⟨hinv, hlength⟩ := ht.within (within_fillRound hpos h)
      obtain ⟨u, hu⟩ := ih hinv (by omega)
      exact ⟨u, ht.bind hu⟩

end Filling

/-! ## The whole program -/

section Program

variable {rand : RandomNumbers} {nodeCount root : Nat} {s : Filling} {elapsed : Int}

/-- The numbers that are to be drawn. -/
def numbers (nodeCount : Nat) : List Nat := (List.range nodeCount).erase (nodeCount / 2)

theorem mem_numbers {r : Nat} : r ∈ numbers nodeCount ↔ r < nodeCount ∧ r ≠ nodeCount / 2 := by
  rw [numbers, List.nodup_range.mem_erase_iff, List.mem_range, and_comm]

theorem perm_range (hpos : 0 < nodeCount) :
    (List.range nodeCount).Perm (nodeCount / 2 :: numbers nodeCount) :=
  List.perm_cons_erase (List.mem_range.mpr (Nat.div_lt_self hpos one_lt_two))

theorem length_numbers (hpos : 0 < nodeCount) : (numbers nodeCount).length = nodeCount - 1 := by
  have hlength := (perm_range hpos).length_eq
  rw [List.length_range, List.length_cons] at hlength
  omega

theorem draw_mem (hpos : 0 < nodeCount) (i : Nat) :
    draw rand nodeCount i ∈ [nodeCount / 2] ++ numbers nodeCount :=
  (perm_range hpos).mem_iff.mp (List.mem_range.mpr (Nat.mod_lt _ hpos))

theorem drawn_subperm (hpos : 0 < nodeCount) (calls : Nat) :
    (drawn rand nodeCount calls).Subperm (numbers nodeCount) := by
  refine nodup_firstOccurrences.subperm fun x hx => ?_
  obtain ⟨hother, i, -, rfl⟩ := mem_firstOccurrences.mp hx
  exact (List.mem_append.mp (draw_mem hpos i)).resolve_left hother

/-- The state before the loop. -/
theorem fillInv_start (hpos : 0 < nodeCount) {nodes : List (TreeNode Int)}
    (h : createBstNode [] (nodeCount / 2 : Nat) = (root, nodes)) :
    FillInv rand nodeCount root {
      calls := 0
      table := (List.replicate nodeCount (0 : Int)).set (nodeCount / 2) 1
      nodes
      stdout := startText nodeCount } where
  marks := marks_init _ (Nat.div_lt_self hpos one_lt_two)
  built := .create h
  stdout := by simp [drawn, firstOccurrences]

/-- **The tree of all numbers**: it is traversed in ascending order, and freed without a rest. -/
theorem FillInv.finish (h : FillInv rand nodeCount root s) (hpos : 0 < nodeCount)
    (hall : (drawn rand nodeCount s.calls).Perm (numbers nodeCount)) :
    ∃ (least : Nat) (heap : Heap (TreeNode Int)), (∀ i, heap.cells i = none) ∧
      (∀ depth, traverseInorder s.nodes depth (some root) = .ok (if least ≤ depth then
        some (((List.range nodeCount).map Nat.cast).flatMap printed) else none)) ∧
      ∀ depth, freeTree depth (Heap.ofList s.nodes) (some root)
        = .ok (if least ≤ depth then some heap else none) := by
  obtain ⟨places, hold⟩ := h.built.hasInserted
  have hcopy : ∀ i ∈ places, (Heap.ofList s.nodes).cells i = s.nodes[i]? := fun _ _ => rfl
  obtain ⟨heap, hcells, hfree⟩ := freeTree_eq hold.tree hold.nodup hcopy
  let values : List Nat → List Int := List.map Nat.cast
  have hperm : (SearchTree.inorder (SearchTree.insertAll (values (drawn rand nodeCount s.calls))
      (.node ((nodeCount / 2 : Nat) : Int) .nil .nil))).Perm (values (List.range nodeCount)) := by
    refine (SearchTree.inorder_insertAll_perm _ _).trans ?_
    refine (List.perm_append_singleton _ _).trans ?_
    exact ((hall.cons (nodeCount / 2)).trans (perm_range hpos).symm).map Nat.cast
  have hsorted := hperm.eq_of_pairwise' (r := (· ≤ ·))
    (((SearchTree.ordered_leaf _).insertAll _).pairwise_inorder)
    (List.pairwise_map.mpr (List.pairwise_le_range.imp fun h => Int.ofNat_le.mpr h))
  refine ⟨_, heap, fun i => ?_, fun depth => ?_, hfree⟩
  · rw [hcells]
    split
    · rfl
    · next hi =>
        rw [hold.perm.mem_iff, List.mem_range, not_lt] at hi
        exact List.getElem?_eq_none hi
  · rw [traverseInorder_eq_ite hold.tree, hsorted]

/-- What the program leaves behind. -/
def Leaves (rand : RandomNumbers) (nodeCount : Nat) (elapsed : Int)
    (result : Bytes × Heap (TreeNode Int)) : Prop :=
  (∃ order : List Nat, order.Perm (numbers nodeCount) ∧
    (order.Pairwise fun x y => ∃ i, draw rand nodeCount i = x ∧
      ∀ j ≤ i, draw rand nodeCount j ≠ y) ∧
    result.1 = ascii "Starting to populate BST randomly (" ++ Scanf.decimalText nodeCount ++
      ascii " nodes):\n" ++ Scanf.decimalRow (order.map Nat.cast) ++
      ascii "\nmicroseconds elapsed: " ++ Scanf.decimalText elapsed ++
      ascii "\n\nValidate BST with inorder traversal:\n" ++
      Scanf.decimalRow ((List.range nodeCount).map Nat.cast) ++ [10]) ∧
  ∀ i, result.2.cells i = none

theorem drawn_perm (hpos : 0 < nodeCount) {calls : Nat}
    (hlength : (drawn rand nodeCount calls).length = nodeCount - 1) :
    (drawn rand nodeCount calls).Perm (numbers nodeCount) :=
  (drawn_subperm hpos calls).perm_of_length_le (by rw [length_numbers hpos, hlength])

theorem within_treeProgram (hpos : 0 < nodeCount) :
    (treeProgram nodeCount rand elapsed).Within (Leaves rand nodeCount elapsed) := by
  unfold treeProgram
  refine (within_fill hpos (nodeCount - 1) (fillInv_start hpos rfl)).bind ?_
  rintro s ⟨hinv, hlength⟩
  have hall := drawn_perm hpos (hlength.trans (Nat.zero_add _))
  obtain ⟨least, heap, hheap, htraverse, hfree⟩ := hinv.finish hpos hall
  refine (Bounded.within_of_eq htraverse rfl).bind ?_
  rintro _ rfl
  refine (Bounded.within_of_eq hfree rfl).bind ?_
  rintro _ rfl
  refine Bounded.within_pure ⟨⟨_, hall, pairwise_firstOccurrences, ?_⟩, hheap⟩
  rw [hinv.stdout, startText, elapsedText, flatMap_printed, flatMap_printed]
  simp only [List.append_assoc]
  rfl

theorem treeProgram_ends_iff (hpos : 0 < nodeCount) :
    (∃ fuel result, treeProgram nodeCount rand elapsed fuel = .ok (some result)) ↔
      ∀ r < nodeCount, r ≠ nodeCount / 2 → ∃ i, draw rand nodeCount i = r := by
  have hiff : (∃ n, (drawn rand nodeCount n).length = (numbers nodeCount).length) ↔
      ∀ r ∈ numbers nodeCount, ∃ i, draw rand nodeCount i = r := by
    apply length_firstOccurrences_iff (List.nodup_range.erase _) (draw_mem hpos)
    intro r hr hused
    exact (mem_numbers.mp hr).2 (List.mem_singleton.mp hused)
  simp only [mem_numbers, and_imp] at hiff
  rw [← hiff]
  constructor
  · rintro ⟨fuel, result, h⟩
    obtain ⟨s, hs, -⟩ := Bounded.bind_eq_some.mp h
    obtain ⟨-, hlength⟩ := (within_fill hpos _ (fillInv_start hpos rfl)).of_some hs
    exact ⟨s.calls, hlength.trans ((Nat.zero_add _).trans (length_numbers hpos).symm)⟩
  · rintro ⟨n, hn⟩
    have hcount : 0 + (nodeCount - 1) ≤ (drawn rand nodeCount n).length := by
      rw [hn, length_numbers hpos, Nat.zero_add]
    obtain ⟨s, hs⟩ := exists_returns_fill hpos (nodeCount - 1) (fillInv_start hpos rfl) hcount
    obtain ⟨hinv, hlength⟩ := hs.within (within_fill hpos _ (fillInv_start hpos rfl))
    have hall := drawn_perm hpos (hlength.trans (Nat.zero_add _))
    obtain ⟨least, heap, -, htraverse, hfree⟩ := hinv.finish hpos hall
    obtain ⟨result, enough, h⟩ : ∃ result,
        (treeProgram nodeCount rand elapsed).Returns result :=
      ⟨_, hs.bind ((Bounded.returns_of_eq htraverse).bind
        ((Bounded.returns_of_eq hfree).bind (Bounded.returns_pure _)))⟩
    exact ⟨enough, result, h enough le_rfl⟩

end Program

/-- **The tree program** ends exactly if `rand` comes to every number but the middle one. It is
never undefined, however long it runs; when it ends, it has printed the numbers in the order in
which they came first, then all in ascending order, and no node is left. -/
theorem tree_program (rand : RandomNumbers) (elapsed : Int) :
    ((∃ fuel result, main rand elapsed fuel = .ok (some result)) ↔
      ∀ r < 1000, r ≠ 500 → ∃ i, draw rand 1000 i = r) ∧
    (main rand elapsed).Within (Leaves rand 1000 elapsed) :=
  ⟨treeProgram_ends_iff (by decide), within_treeProgram (by decide)⟩

end Cs342.Bst
