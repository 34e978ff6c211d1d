import Mathlib
import Cs342.Library.Loop

/-!
# Linked lists that are built from the front

A list is chained node by node behind a dummy node: every new node is linked to the one before it,
and its own link is the null pointer. The link of the dummy node is the head of the list, and is
whatever it was before if no node has been added (`append_holds`). Nodes are numbered in the order
of their allocation, and a pointer is the number of a node, or null.
-/

variable {α : Type}

/-- A node with its link. -/
structure Cell (α : Type) where
  value : α
  next : Option Nat

/-- The list of the nodes from a pointer on, up to a null pointer. -/
inductive IsList (cells : List (Cell α)) : Option Nat → List α → Prop
  | null : IsList cells none []
  | node {i : Nat} {value : α} {next : Option Nat} {values : List α}
      (hcell : cells[i]? = some ⟨value, next⟩) (hrest : IsList cells next values) :
      IsList cells (some i) (value :: values)

/-! ## Walking over a list -/

/-- A pointer, and the values of the nodes that it has left behind. -/
structure Walker (α : Type) where
  pointer : Option Nat
  out : List α

/-- `while (pointer)`, with the node's value and the step to the next node. -/
def Walker.round (cells : List (Cell α)) (s : Walker α) : Outcome (ForInStep (Walker α)) :=
  match s.pointer with
  | none => .ok (.done s)
  | some i => do
    let cell ← Outcome.ofOption cells[i]?
    return .yield { pointer := cell.next, out := s.out ++ [cell.value] }

section Walking

variable {cells : List (Cell α)} {s s' : Walker α}

theorem Walker.round_eq_done : s.round cells = .ok (.done s') ↔ s.pointer = none ∧ s' = s := by
  rw [round]
  cases s.pointer with
  | none => simp [eq_comm]
  | some i => cases hcell : cells[i]? <;> simp [hcell]

theorem Walker.round_eq_yield : s.round cells = .ok (.yield s') ↔
    ∃ i cell, s.pointer = some i ∧ cells[i]? = some cell ∧
      s' = { pointer := cell.next, out := s.out ++ [cell.value] } := by
  rw [round]
  cases s.pointer with
  | none => simp
  | some i => cases hcell : cells[i]? <;> simp [hcell, eq_comm]

/-- **Walking over a list** ends, and comes to its values. -/
theorem Walker.appends_iff {head : Option Nat} {out values : List α} :
    Loop.Appends (round cells) Walker.out ⟨head, out⟩ values ↔ IsList cells head values := by
  have hdone : ∀ s t : Walker α, s.round cells = .ok (.done t) → t.out = s.out := by
    intro s t h
    rw [(round_eq_done.mp h).2]
  have hyield : ∀ s s' : Walker α, s.round cells = .ok (.yield s') →
      ∃ x, s'.out = s.out ++ [x] := by
    intro s s' h
    obtain ⟨i, cell, -, -, rfl⟩ := round_eq_yield.mp h
    exact ⟨_, rfl⟩
  induction values generalizing head out with
  | nil =>
      rw [Loop.appends_nil hdone hyield]
      constructor
      · rintro ⟨t, h⟩
        obtain ⟨rfl, -⟩ := round_eq_done.mp h
        exact .null
      · rintro ⟨⟩
        exact ⟨_, round_eq_done.mpr ⟨rfl, rfl⟩⟩
  | cons value values ih =>
      rw [Loop.appends_cons hdone hyield]
      constructor
      · rintro ⟨s', h, hout, hrest⟩
        obtain ⟨i, cell, rfl, hcell, rfl⟩ := round_eq_yield.mp h
        obtain ⟨rfl⟩ : cell.value = value := by simpa using hout
        exact .node hcell (ih.mp hrest)
      · rintro ⟨⟩
        next i next hcell hrest =>
          exact ⟨_, round_eq_yield.mpr ⟨i, _, rfl, hcell, rfl⟩, rfl, ih.mpr hrest⟩

end Walking

/-! ## Building a list -/

/-- The link of the dummy node, the nodes, and the last node (`none` for the dummy node). -/
structure Chain (α : Type) where
  dummyNext : Option Nat
  cells : List (Cell α)
  node : Option Nat

namespace Chain

/-- The dummy node alone. Its link is not set. -/
def start (uninitialised : Option Nat) : Chain α where
  dummyNext := uninitialised
  cells := []
  node := none

/-- `node->next = malloc(...)`, with a null pointer as its link; the new node is the last one. -/
def append (chain : Chain α) (value : α) : Chain α :=
  let new := chain.cells.length
  match chain.node with
  | none => {
      dummyNext := some new
      cells := chain.cells ++ [⟨value, none⟩]
      node := some new }
  | some i => {
      dummyNext := chain.dummyNext
      cells := chain.cells.modify i (fun cell => { cell with next := some new })
        ++ [⟨value, none⟩]
      node := some new }

/-- The list from the dummy node on has these values, and there are no other nodes. -/
def Holds (chain : Chain α) (values : List α) : Prop :=
  IsList chain.cells chain.dummyNext values ∧ chain.cells.length = values.length

/-- The nodes of a list, in the order of their allocation. -/
def linked (values : List α) : List (Cell α) :=
  values.mapIdx fun i value => ⟨value, if i + 1 = values.length then none else some (i + 1)⟩

theorem length_linked (values : List α) : (linked values).length = values.length :=
  List.length_mapIdx

theorem isList_linked_drop (values : List α) {i : Nat} (hi : i ≤ values.length) :
    IsList (linked values) (if i = values.length then none else some i) (values.drop i) := by
  induction hk : values.length - i generalizing i with
  | zero =>
      have heq : i = values.length := by omega
      rw [if_pos heq, heq, List.drop_length]
      exact .null
  | succ k ih =>
      have hlt : i < values.length := by omega
      rw [if_neg hlt.ne, List.drop_eq_getElem_cons hlt]
      have hnode : (linked values)[i]? =
          some ⟨values[i], if i + 1 = values.length then none else some (i + 1)⟩ := by
        rw [linked, List.getElem?_mapIdx, List.getElem?_eq_getElem hlt]
        rfl
      exact .node hnode (ih hlt (by omega))

/-- **One more node**: the node that was the last one is linked to it. -/
theorem linked_concat (values : List α) (value : α) :
    linked (values ++ [value]) =
      (linked values).modify (values.length - 1) (fun cell =>
        { cell with next := some values.length }) ++ [⟨value, none⟩] := by
  apply List.ext_getElem?
  intro i
  rw [List.getElem?_append, List.length_modify, length_linked, List.getElem?_modify, linked, linked,
    List.getElem?_mapIdx, List.getElem?_mapIdx, List.getElem?_append, List.length_append,
    List.length_singleton]
  by_cases hlt : i < values.length
  · rw [if_pos hlt, if_pos hlt, List.getElem?_eq_getElem hlt]
    by_cases hlast : i + 1 = values.length
    · simp [hlast, show values.length - 1 = i by omega]
    · simp [show values.length - 1 ≠ i by omega, hlast, hlt.ne]
  · rw [if_neg hlt, if_neg hlt]
    by_cases hlast : i = values.length
    · simp [hlast]
    · obtain ⟨k, hk⟩ : ∃ k, i - values.length = k + 1 := ⟨i - values.length - 1, by omega⟩
      simp [hk]

/-- What the chain is when it has been given these values. -/
structure Built (uninitialised : Option Nat) (chain : Chain α) (values : List α) : Prop where
  dummyNext : chain.dummyNext = if values = [] then uninitialised else some 0
  cells : chain.cells = linked values
  node : chain.node = if values = [] then none else some (values.length - 1)

section Building

variable {uninitialised : Option Nat} {chain : Chain α} {values : List α}

theorem built_start : Built uninitialised (start uninitialised : Chain α) [] := ⟨rfl, rfl, rfl⟩

/-- **Step lemma**: one more value. -/
theorem Built.append (h : Built uninitialised chain values) (value : α) :
    Built uninitialised (chain.append value) (values ++ [value]) := by
  have hcells := h.cells
  have hlength : chain.cells.length = values.length := by rw [hcells, length_linked]
  have hne : values ++ [value] ≠ [] := List.append_ne_nil_of_right_ne_nil _ (by simp)
  have hlast : (values ++ [value]).length - 1 = values.length := by simp
  cases values with
  | nil =>
      have hnode : chain.node = none := h.node
      refine ⟨?_, ?_, ?_⟩ <;> simp [Chain.append, hnode, hcells, linked]
  | cons first values =>
      have hnode : chain.node = some ((first :: values).length - 1) := h.node
      have hdummy : chain.dummyNext = some 0 := h.dummyNext
      refine ⟨?_, ?_, ?_⟩
      · rw [Chain.append, hnode, if_neg hne]
        exact hdummy
      · rw [linked_concat, Chain.append, hnode]
        dsimp only
        rw [hlength, hcells]
      · rw [Chain.append, hnode, if_neg hne, hlast]
        simp only [hlength]

/-- **Run lemma**: all values of a list. -/
theorem Built.foldl (h : Built uninitialised chain values) (more : List α) :
    Built uninitialised (more.foldl Chain.append chain) (values ++ more) := by
  induction more generalizing chain values with
  | nil => simpa using h
  | cons value more ih => simpa using ih (h.append value)

/-- The list is complete as soon as it has a node. -/
theorem Built.holds (h : Built uninitialised chain values) (hne : values ≠ []) :
    chain.Holds values := by
  have hall := isList_linked_drop values (Nat.zero_le _)
  rw [List.drop_zero, if_neg (fun h0 => hne (List.length_eq_zero_iff.mp h0.symm))] at hall
  refine ⟨?_, by rw [h.cells, length_linked]⟩
  rw [h.cells, h.dummyNext, if_neg hne]
  exact hall

/-- **An empty list** is what the uninitialised link happens to be. -/
theorem Built.holds_nil (h : Built uninitialised chain []) :
    chain.Holds [] ↔ uninitialised = none := by
  have hdummy : chain.dummyNext = uninitialised := h.dummyNext
  rw [Holds, hdummy, h.cells]
  constructor
  · rintro ⟨⟨⟩, -⟩
    rfl
  · rintro rfl
    exact ⟨.null, rfl⟩

/-- Whatever the link was, the list holds the values exactly if there are any. -/
theorem holds_foldl_iff (values : List α) :
    (∀ uninitialised, (values.foldl append (start uninitialised)).Holds values) ↔ values ≠ [] := by
  constructor
  · rintro h rfl
    cases (built_start.holds_nil).mp (h (some 0))
  · intro hne uninitialised
    have hstart : Built uninitialised (start uninitialised : Chain α) [] := built_start
    exact (hstart.foldl values).holds hne

end Building

end Chain
