import Mathlib
import Cs342.Library.Heap

/-!
# Lists of objects

A linked list whose nodes point to objects that have been allocated for it: each node to its own, and
there are no other objects (`Holds`). An object can be put at the end (`Holds.append`), a loop over
the list sees the objects in order (`Holds.walk`), and a loop that frees each object with its node
leaves nothing of either kind (`Holds.free`).
-/

/-- The nodes and the objects of a list, and its head. -/
structure ObjectList (β : Type) where
  nodes : Heap (Cell Nat)
  objects : Heap β
  head : Option Nat

namespace ObjectList

variable {β : Type}

/-- The nodes of the list, with the places of their objects, are all there are. -/
structure HoldsAt (list : ObjectList β) (l : List (Nat × Nat)) (values : List β) : Prop where
  nodes : list.nodes.Owns list.head l
  nodup : (l.map Prod.snd).Nodup
  values : l.map (fun e => list.objects.cells e.2) = values.map some
  exact : ∀ i, list.objects.cells i ≠ none → i ∈ l.map Prod.snd

/-- The list consists of these values. -/
def Holds (list : ObjectList β) (values : List β) : Prop := ∃ l, list.HoldsAt l values

/-- Neither nodes nor objects are left. -/
def Nothing (list : ObjectList β) : Prop :=
  (∀ i, list.nodes.cells i = none) ∧ ∀ i, list.objects.cells i = none

def empty : ObjectList β where
  nodes := Heap.empty
  objects := Heap.empty
  head := none

/-- `while (node)`, which frees each object and then its node. -/
def freeRound (list : ObjectList β) : Outcome (ForInStep (ObjectList β)) :=
  match list.head with
  | none => .ok (.done list)
  | some i => do
    let cell ← list.nodes.read i
    let objects ← list.objects.free cell.value
    let nodes ← list.nodes.free i
    return .yield { nodes, objects, head := cell.next }

section Rules

variable {list : ObjectList β} {l : List (Nat × Nat)} {values : List β} {value : β} {i j : Nat}

theorem holds_empty : (empty : ObjectList β).Holds [] :=
  ⟨[], Heap.owns_empty, List.nodup_nil, rfl, fun _ h => absurd rfl h⟩

theorem HoldsAt.live (h : list.HoldsAt l values) (hi : i ∈ l.map Prod.snd) :
    ∃ value, list.objects.cells i = some value := by
  obtain ⟨e, he, rfl⟩ := List.mem_map.mp hi
  have hmem := List.mem_map_of_mem (f := fun e => list.objects.cells e.2) he
  rw [h.values] at hmem
  obtain ⟨value, -, hvalue⟩ := List.mem_map.mp hmem
  exact ⟨value, hvalue.symm⟩

/-- A new object has a place of its own, and all others keep theirs. -/
theorem HoldsAt.malloc (h : list.HoldsAt l values) (value : β) :
    list.objects.next ∉ l.map Prod.snd ∧
      (l ++ [(i, list.objects.next)]).map (fun e => (list.objects.malloc value).2.cells e.2)
        = (values ++ [value]).map some := by
  have hnew : list.objects.next ∉ l.map Prod.snd := by
    intro hmem
    obtain ⟨value, hvalue⟩ := h.live hmem
    exact absurd (Heap.lt_next hvalue) (lt_irrefl _)
  refine ⟨hnew, ?_⟩
  rw [List.map_append, List.map_append, ← h.values]
  congr 1
  · apply List.map_congr_left
    intro e he
    rw [Heap.malloc_cells, Function.update_of_ne]
    intro heq
    exact hnew (heq ▸ List.mem_map_of_mem he)
  · rw [List.map_singleton, Heap.malloc_cells, Function.update_self]
    rfl

/-- What holds the nodes of the longer list, with the new object, holds the longer list. -/
theorem HoldsAt.extend (h : list.HoldsAt l values) {nodes : Heap (Cell Nat)} {head : Option Nat}
    (hnodes : nodes.Owns head (l ++ [(i, list.objects.next)])) (value : β) :
    Holds ⟨nodes, (list.objects.malloc value).2, head⟩ (values ++ [value]) := by
  obtain ⟨hnew, hvalues⟩ := h.malloc (i := i) value
  refine ⟨_, hnodes, ?_, hvalues, fun k hk => ?_⟩
  · rw [List.map_append, List.map_singleton, ← List.concat_eq_append]
    exact h.nodup.concat hnew
  · rw [List.map_append, List.map_singleton, List.mem_append, List.mem_singleton]
    by_cases heq : k = list.objects.next
    · exact Or.inr heq
    · refine Or.inl (h.exact k ?_)
      rwa [Heap.malloc_cells, Function.update_of_ne heq] at hk

/-- The first object of an empty list. -/
theorem Holds.append_nil (h : list.Holds values) (hnull : list.head = none) (value : β) :
    Holds ⟨(list.nodes.malloc ⟨list.objects.next, none⟩).2, (list.objects.malloc value).2,
      some list.nodes.next⟩ (values ++ [value]) := by
  obtain ⟨l, h⟩ := h
  have hnodes := h.nodes
  have hnil : l = [] := by
    rw [hnull] at hnodes
    exact hnodes.linked.unique .nil
  subst hnil
  rw [hnull] at hnodes
  exact h.extend (hnodes.push list.objects.next) value

/-- **An object at the end**: the loop comes to the last node, which is linked to the new one. -/
theorem Holds.append (h : list.Holds values) (hhead : list.head = some i) (value : β) :
    ∃ j cell nodes, Loop.Exits
        (Heap.endRound (list.nodes.malloc ⟨list.objects.next, none⟩).2) i j ∧
      (list.nodes.malloc ⟨list.objects.next, none⟩).2.read j = .ok cell ∧
      (list.nodes.malloc ⟨list.objects.next, none⟩).2.write j
        { cell with next := some list.nodes.next } = .ok nodes ∧
      Holds ⟨nodes, (list.objects.malloc value).2, list.head⟩ (values ++ [value]) := by
  obtain ⟨l, h⟩ := h
  rcases List.eq_nil_or_concat l with rfl | ⟨before, ⟨j, place⟩, rfl⟩
  · rw [Heap.linked_nil.mp h.nodes.linked] at hhead
    cases hhead
  · rw [List.concat_eq_append] at h
    obtain ⟨nodes, hcell, hwrite, howns⟩ := h.nodes.append list.objects.next
    have hkept : (list.nodes.malloc ⟨list.objects.next, none⟩).2.Linked list.head
        (before ++ [(j, place)]) := by
      refine h.nodes.linked.frame fun k hk => ?_
      obtain ⟨⟨k, w⟩, hmem, rfl⟩ := List.mem_map.mp hk
      obtain ⟨next, hlive⟩ := h.nodes.linked.cells_of_mem hmem
      rw [Heap.malloc_cells, Function.update_of_ne (Heap.lt_next hlive).ne]
    rw [hhead] at hkept
    refine ⟨j, _, nodes, Heap.endRound_exits hkept, Heap.read_of_cells hcell, hwrite, ?_⟩
    exact h.extend howns value

/-- The objects of the nodes, read one by one. -/
theorem foldlM_objects {σ : Type} {objects : Heap β} {body : σ → β → Outcome σ}
    (hvalues : l.map (fun e => objects.cells e.2) = values.map some) (s : σ) :
    l.foldlM (fun s e => do
        let value ← objects.read e.2
        body s value) s = values.foldlM body s := by
  induction l generalizing values s with
  | nil =>
      rw [List.map_eq_nil_iff.mp hvalues.symm]
      rfl
  | cons e l ih =>
      obtain ⟨value, values, rfl⟩ : ∃ value rest, values = value :: rest := by
        cases values with
        | nil => cases hvalues
        | cons value rest => exact ⟨value, rest, rfl⟩
      obtain ⟨hfirst, hrest⟩ := List.cons.inj hvalues
      rw [List.foldlM_cons, List.foldlM_cons, Heap.read_of_cells hfirst, Outcome.ok_bind]
      exact bind_congr fun s => ih hrest s

/-- **The loop over the list** is the loop over its values. -/
theorem Holds.walk {σ : Type} {body : σ → β → Outcome σ} (h : list.Holds values) {s t : σ} :
    Loop.Exits (Heap.walkRound list.nodes fun s _ place => do
        let value ← list.objects.read place
        body s value) (list.head, s) (none, t) ↔ values.foldlM body s = .ok t := by
  obtain ⟨l, h⟩ := h
  rw [Heap.walk_exits h.nodes.linked, foldlM_objects h.values]

/-- **Everything freed**: the loop frees every object and every node once. -/
theorem Holds.free (h : list.Holds values) :
    ∃ list', Loop.Exits freeRound list list' ∧ list'.Nothing := by
  obtain ⟨l, h⟩ := h
  induction l generalizing list values with
  | nil =>
      have hnull : list.head = none := Heap.linked_nil.mp h.nodes.linked
      refine ⟨list, Loop.exits_iff.mpr (.inl (by rw [freeRound, hnull])), fun i => ?_, fun i => ?_⟩
      · by_contra hlive
        exact List.not_mem_nil (h.nodes.exact i hlive)
      · by_contra hlive
        exact List.not_mem_nil (h.exact i hlive)
  | cons e l ih =>
      obtain ⟨i, place⟩ := e
      obtain ⟨hhead, -⟩ := Heap.linked_cons.mp h.nodes.linked
      obtain ⟨next, nodes, hcell, hfreeNode, hnodes⟩ := h.nodes.unlink_head
      obtain ⟨value, values, rfl⟩ : ∃ value rest, values = value :: rest := by
        have hvalues := h.values
        cases values with
        | nil => cases hvalues
        | cons value rest => exact ⟨value, rest, rfl⟩
      obtain ⟨hfirst, hrest⟩ := List.cons.inj h.values
      obtain ⟨objects, hfree, -, hcells⟩ := Heap.free_of_cells hfirst
      obtain ⟨hplace, hnodup⟩ := List.nodup_cons.mp h.nodup
      have hlist : HoldsAt ⟨nodes, objects, next⟩ l values := by
        refine ⟨hnodes, hnodup, ?_, fun k hk => ?_⟩
        · rw [← hrest]
          apply List.map_congr_left
          intro e he
          dsimp only
          rw [hcells, Function.update_of_ne]
          intro heq
          exact hplace (heq ▸ List.mem_map_of_mem he)
        · have hne : k ≠ place := by
            rintro rfl
            exact hk (by dsimp only; rw [hcells, Function.update_self])
          dsimp only at hk
          rw [hcells, Function.update_of_ne hne] at hk
          exact (List.mem_cons.mp (h.exact k hk)).resolve_left hne
      obtain ⟨list', hexits, hnothing⟩ := ih hlist
      refine ⟨list', Loop.exits_iff.mpr (.inr ⟨⟨nodes, objects, next⟩, ?_, hexits⟩), hnothing⟩
      rw [freeRound, hhead]
      dsimp only
      rw [Heap.read_of_cells hcell, Outcome.ok_bind]
      dsimp only
      rw [hfree, Outcome.ok_bind, hfreeNode, Outcome.ok_bind]
      rfl

end Rules

end ObjectList
