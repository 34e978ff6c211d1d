import Mathlib
import Cs342.Library.Chain

/-!
# Memory that is allocated and freed

Cells are numbered in the order of their allocation. A cell that has been freed holds nothing, and
reading it, writing it or freeing it again is undefined, as it is for a cell that has never been
allocated. On top of it are singly linked lists: `Segment` is the part of a list between two
pointers, and `Owns` says that a memory is a list and has no other cells, so that nothing has
leaked. The operations on a list are rules about `Owns`: a node in front (`Owns.push`), a node
at the end (`Owns.append`), a node taken out (`Owns.unlink_head`, `Owns.unlink`), all nodes freed
(`Owns.freeList`), and a loop over the list (`walk_exits`).
-/

/-- The cells that are allocated, and the number of the next one. -/
structure Heap (α : Type) where
  cells : Nat → Option α
  next : Nat
  fresh : ∀ i, next ≤ i → cells i = none

namespace Heap

section Cells

variable {α : Type} {heap : Heap α} {i : Nat} {a b : α}

def empty : Heap α where
  cells := fun _ => none
  next := 0
  fresh := fun _ _ => rfl

/-- The cells that have been allocated one by one. -/
def ofList (cells : List α) : Heap α where
  cells := fun i => cells[i]?
  next := cells.length
  fresh := fun _ hi => List.getElem?_eq_none hi

/-- The new cell, and the memory with it. -/
def malloc (heap : Heap α) (a : α) : Nat × Heap α :=
  (heap.next, {
    cells := Function.update heap.cells heap.next (some a)
    next := heap.next + 1
    fresh := fun i hi => by
      rw [Function.update_of_ne (by omega)]
      exact heap.fresh i (by omega) })

@[simp] theorem malloc_cells (heap : Heap α) (a : α) :
    (heap.malloc a).2.cells = Function.update heap.cells heap.next (some a) := rfl

def read (heap : Heap α) (i : Nat) : Outcome α := Outcome.ofOption (heap.cells i)

theorem lt_next (h : heap.cells i = some a) : i < heap.next := by
  by_contra hlt
  rw [heap.fresh i (not_lt.mp hlt)] at h
  cases h

/-- The memory with another content of an allocated cell. -/
def set (heap : Heap α) (i : Nat) (content : Option α) (h : i < heap.next) : Heap α where
  cells := Function.update heap.cells i content
  next := heap.next
  fresh := fun j hj => by
    rw [Function.update_of_ne (by omega)]
    exact heap.fresh j hj

def write (heap : Heap α) (i : Nat) (a : α) : Outcome (Heap α) :=
  match h : heap.cells i with
  | some _ => .ok (heap.set i (some a) (lt_next h))
  | none => .undefined

def free (heap : Heap α) (i : Nat) : Outcome (Heap α) :=
  match h : heap.cells i with
  | some _ => .ok (heap.set i none (lt_next h))
  | none => .undefined

theorem read_of_cells (h : heap.cells i = some a) : heap.read i = .ok a := by
  rw [read, h, Outcome.ofOption_some]

theorem write_of_cells (h : heap.cells i = some b) (a : α) :
    ∃ heap' : Heap α, heap.write i a = .ok heap' ∧ heap'.next = heap.next ∧
      heap'.cells = Function.update heap.cells i (some a) := by
  refine ⟨heap.set i (some a) (lt_next h), ?_, rfl, rfl⟩
  unfold write
  split
  · rfl
  · next hnone =>
      rw [h] at hnone
      cases hnone

theorem free_of_cells (h : heap.cells i = some b) :
    ∃ heap' : Heap α, heap.free i = .ok heap' ∧ heap'.next = heap.next ∧
      heap'.cells = Function.update heap.cells i none := by
  refine ⟨heap.set i none (lt_next h), ?_, rfl, rfl⟩
  unfold free
  split
  · rfl
  · next hnone =>
      rw [h] at hnone
      cases hnone

end Cells

/-! ## Linked lists -/

section Lists

variable {α : Type} {heap heap' : Heap (Cell α)} {p q r : Option Nat} {l l' : List (Nat × α)}
  {i j : Nat} {v w : α}

/-- The nodes from one pointer up to another, with their places. -/
inductive Segment (heap : Heap (Cell α)) : Option Nat → List (Nat × α) → Option Nat → Prop
  | nil {p : Option Nat} : Segment heap p [] p
  | cons {i : Nat} {v : α} {next q : Option Nat} {l : List (Nat × α)}
      (hcell : heap.cells i = some ⟨v, next⟩) (hrest : Segment heap next l q) :
      Segment heap (some i) ((i, v) :: l) q

/-- The whole list from a pointer on. -/
def Linked (heap : Heap (Cell α)) (p : Option Nat) (l : List (Nat × α)) : Prop :=
  Segment heap p l none

/-- **Frame**: a segment stays what it is as long as its own nodes do. -/
theorem Segment.frame (h : Segment heap p l q)
    (hsame : ∀ i ∈ l.map Prod.fst, heap'.cells i = heap.cells i) : Segment heap' p l q := by
  induction h with
  | nil => exact .nil
  | cons hcell _ ih =>
      apply Segment.cons
      · rw [hsame _ List.mem_cons_self, hcell]
      · exact ih fun i hi => hsame i (List.mem_cons_of_mem _ hi)

theorem segment_append : Segment heap p (l ++ l') q ↔
    ∃ r, Segment heap p l r ∧ Segment heap r l' q := by
  constructor
  · intro h
    induction l generalizing p with
    | nil => exact ⟨p, .nil, h⟩
    | cons e l ih =>
        cases h with
        | cons hcell hrest =>
            obtain ⟨r, hfirst, hsecond⟩ := ih hrest
            exact ⟨r, .cons hcell hfirst, hsecond⟩
  · rintro ⟨r, hfirst, hsecond⟩
    induction hfirst with
    | nil => exact hsecond
    | cons hcell _ ih => exact .cons hcell (ih hsecond)

theorem linked_nil : Linked heap p [] ↔ p = none := by
  constructor
  · rintro ⟨⟩
    rfl
  · rintro rfl
    exact .nil

theorem linked_cons : Linked heap p ((i, v) :: l) ↔
    p = some i ∧ ∃ next, heap.cells i = some ⟨v, next⟩ ∧ Linked heap next l := by
  constructor
  · rintro ⟨⟩
    next next hcell hrest => exact ⟨rfl, next, hcell, hrest⟩
  · rintro ⟨rfl, next, hcell, hrest⟩
    exact .cons hcell hrest

theorem Linked.unique (h : Linked heap p l) (h' : Linked heap p l') : l = l' := by
  induction l generalizing p l' with
  | nil =>
      cases h
      cases h'
      rfl
  | cons e l ih =>
      obtain ⟨rfl, next, hcell, hrest⟩ := linked_cons.mp h
      cases h' with
      | cons hcell' hrest' =>
          rw [hcell, Option.some_inj] at hcell'
          cases hcell'
          rw [ih hrest hrest']

/-- A list does not come back to a node. -/
theorem Linked.nodup (h : Linked heap p l) : (l.map Prod.fst).Nodup := by
  induction l generalizing p with
  | nil => exact List.nodup_nil
  | cons e l ih =>
      obtain ⟨rfl, next, hcell, hrest⟩ := linked_cons.mp h
      rw [List.map_cons, List.nodup_cons]
      refine ⟨fun hmem => ?_, ih hrest⟩
      obtain ⟨⟨i, w⟩, hmem, rfl⟩ := List.mem_map.mp hmem
      obtain ⟨before, after, rfl⟩ := List.append_of_mem hmem
      obtain ⟨r, -, hagain⟩ := segment_append.mp hrest
      obtain ⟨rfl, -⟩ := linked_cons.mp hagain
      have hlength := congrArg List.length (Linked.unique hagain h)
      simp only [List.length_cons, List.length_append] at hlength
      omega

theorem Segment.cells_of_mem (h : Segment heap p l q) (hmem : (i, v) ∈ l) :
    ∃ next, heap.cells i = some ⟨v, next⟩ := by
  induction h with
  | nil => cases hmem
  | cons hcell _ ih =>
      rcases List.mem_cons.mp hmem with heq | hmem
      · cases heq
        exact ⟨_, hcell⟩
      · exact ih hmem

/-- The memory is the list, and nothing else. -/
structure Owns (heap : Heap (Cell α)) (p : Option Nat) (l : List (Nat × α)) : Prop where
  linked : Linked heap p l
  exact : ∀ i, heap.cells i ≠ none → i ∈ l.map Prod.fst

theorem owns_empty : Owns (empty : Heap (Cell α)) none [] :=
  ⟨.nil, fun _ h => absurd rfl h⟩

/-- **A node in front.** -/
theorem Owns.push (h : Owns heap p l) (v : α) :
    Owns (heap.malloc ⟨v, p⟩).2 (some heap.next) ((heap.next, v) :: l) := by
  have hnew : ∀ i ∈ l.map Prod.fst, i ≠ heap.next := by
    intro i hi
    obtain ⟨⟨i, w⟩, hmem, rfl⟩ := List.mem_map.mp hi
    obtain ⟨next, hcell⟩ := h.linked.cells_of_mem hmem
    exact (lt_next hcell).ne
  constructor
  · refine .cons (Function.update_self _ _ _) (h.linked.frame fun i hi => ?_)
    exact Function.update_of_ne (hnew i hi) _ _
  · intro i hi
    by_cases heq : i = heap.next
    · exact List.mem_cons.mpr (.inl heq)
    · refine List.mem_cons_of_mem _ (h.exact i ?_)
      rwa [malloc_cells, Function.update_of_ne heq] at hi

/-- **The first node taken out.** -/
theorem Owns.unlink_head (h : Owns heap p ((i, v) :: l)) :
    ∃ next heap', heap.cells i = some ⟨v, next⟩ ∧ heap.free i = .ok heap' ∧ Owns heap' next l := by
  have hnodup := h.linked.nodup
  obtain ⟨rfl, next, hcell, hrest⟩ := linked_cons.mp h.linked
  obtain ⟨heap', hfree, -, hcells⟩ := free_of_cells hcell
  rw [List.map_cons, List.nodup_cons] at hnodup
  refine ⟨next, heap', hcell, hfree, ?_, ?_⟩
  · refine hrest.frame fun j hj => ?_
    rw [hcells, Function.update_of_ne]
    rintro rfl
    exact hnodup.1 hj
  · intro j hj
    rw [hcells] at hj
    by_cases heq : j = i
    · rw [heq, Function.update_self] at hj
      exact absurd rfl hj
    · rw [Function.update_of_ne heq] at hj
      exact (List.mem_cons.mp (h.exact j hj)).resolve_left heq

/-- A segment whose last node gets another link. -/
theorem Segment.relink (h : Segment heap p (l ++ [(i, v)]) q)
    (hnodup : ((l ++ [(i, v)]).map Prod.fst).Nodup)
    (hcells : heap'.cells = Function.update heap.cells i (some ⟨v, r⟩)) :
    Segment heap' p (l ++ [(i, v)]) r := by
  obtain ⟨mid, hfirst, hlast⟩ := segment_append.mp h
  rw [List.map_append, List.map_singleton, List.nodup_append'] at hnodup
  cases hlast with
  | cons hcell hrest =>
      refine segment_append.mpr ⟨_, hfirst.frame fun j hj => ?_, .cons ?_ .nil⟩
      · rw [hcells, Function.update_of_ne]
        rintro rfl
        exact hnodup.2.2 hj List.mem_cons_self
      · rw [hcells, Function.update_self]

/-- **A node in the middle taken out**: the one before it is linked to the one behind it. -/
theorem Owns.unlink (h : Owns heap p (l ++ (j, w) :: (i, v) :: l')) :
    ∃ next heap₁ heap₂, heap.cells j = some ⟨w, some i⟩ ∧ heap.cells i = some ⟨v, next⟩ ∧
      heap.write j ⟨w, next⟩ = .ok heap₁ ∧ heap₁.free i = .ok heap₂ ∧
      Owns heap₂ p (l ++ (j, w) :: l') := by
  have hnodup := h.linked.nodup
  obtain ⟨mid, hfirst, hrest⟩ := segment_append.mp h.linked
  obtain ⟨rfl, mid, hj, hrest⟩ := linked_cons.mp hrest
  obtain ⟨rfl, next, hi, hafter⟩ := linked_cons.mp hrest
  have hnodup' : ((l ++ [(j, w)]).map Prod.fst).Nodup ∧ i ∉ (l ++ [(j, w)]).map Prod.fst ∧
      i ∉ l'.map Prod.fst ∧ j ∉ l'.map Prod.fst := by
    simp only [List.map_append, List.map_cons, List.nodup_append', List.nodup_cons,
      List.disjoint_cons_right] at hnodup
    simp only [List.map_append, List.map_singleton, List.mem_append, List.mem_singleton, not_or]
    grind
  obtain ⟨hbefore, hnotBefore, hnotAfter, hjAfter⟩ := hnodup'
  have hne : i ≠ j := by
    rintro rfl
    simp at hnotBefore
  obtain ⟨heap₁, hwrite, -, hcells₁⟩ := write_of_cells hj ⟨w, next⟩
  have hi₁ : heap₁.cells i = some ⟨v, next⟩ := by rw [hcells₁, Function.update_of_ne hne, hi]
  obtain ⟨heap₂, hfree, -, hcells₂⟩ := free_of_cells hi₁
  have hlink : Segment heap₁ p (l ++ [(j, w)]) next :=
    (segment_append.mpr ⟨_, hfirst, .cons hj .nil⟩).relink hbefore hcells₁
  refine ⟨next, heap₁, heap₂, hj, hi, hwrite, hfree, ?_, ?_⟩
  · rw [← List.singleton_append, ← List.append_assoc]
    refine segment_append.mpr ⟨next, hlink.frame fun k hk => ?_, hafter.frame fun k hk => ?_⟩
    · rw [hcells₂, Function.update_of_ne]
      rintro rfl
      exact hnotBefore hk
    · rw [hcells₂, Function.update_of_ne, hcells₁, Function.update_of_ne]
      · rintro rfl
        exact hjAfter hk
      · rintro rfl
        exact hnotAfter hk
  · intro k hk
    have hki : k ≠ i := by
      rintro rfl
      rw [hcells₂, Function.update_self] at hk
      exact hk rfl
    rw [hcells₂, Function.update_of_ne hki, hcells₁] at hk
    by_cases hkj : k = j
    · simp [hkj]
    · rw [Function.update_of_ne hkj] at hk
      have := h.exact k hk
      simp only [List.map_append, List.map_cons, List.mem_append, List.mem_cons] at this ⊢
      tauto

/-- **A node at the end**, linked to the one that was the last. -/
theorem Owns.append (h : Owns heap p (l ++ [(j, w)])) (v : α) :
    ∃ heap', (heap.malloc ⟨v, none⟩).2.cells j = some ⟨w, none⟩ ∧
      (heap.malloc ⟨v, none⟩).2.write j ⟨w, some heap.next⟩ = .ok heap' ∧
      Owns heap' p (l ++ [(j, w)] ++ [(heap.next, v)]) := by
  obtain ⟨mid, hfirst, hlast⟩ := segment_append.mp h.linked
  obtain ⟨rfl, next, hj, hend⟩ := linked_cons.mp hlast
  cases hend
  have hold : ∀ k ∈ (l ++ [(j, w)]).map Prod.fst, k ≠ heap.next := by
    intro k hk
    obtain ⟨⟨k, u⟩, hmem, rfl⟩ := List.mem_map.mp hk
    obtain ⟨next, hcell⟩ := h.linked.cells_of_mem hmem
    exact (lt_next hcell).ne
  have hj' : (heap.malloc ⟨v, none⟩).2.cells j = some ⟨w, none⟩ := by
    rw [malloc_cells, Function.update_of_ne (lt_next hj).ne, hj]
  obtain ⟨heap', hwrite, -, hcells⟩ := write_of_cells hj' ⟨w, some heap.next⟩
  have hsegment : Segment (heap.malloc ⟨v, none⟩).2 p (l ++ [(j, w)]) none := by
    refine h.linked.frame fun k hk => ?_
    rw [malloc_cells, Function.update_of_ne (hold k hk)]
  have hnew : heap'.cells heap.next = some ⟨v, none⟩ := by
    rw [hcells, Function.update_of_ne (lt_next hj).ne', malloc_cells, Function.update_self]
  refine ⟨heap', hj', hwrite, ?_, ?_⟩
  · exact segment_append.mpr
      ⟨_, hsegment.relink h.linked.nodup hcells, .cons hnew .nil⟩
  · intro k hk
    rw [List.map_append, List.mem_append]
    by_cases hknew : k = heap.next
    · exact Or.inr (List.mem_singleton.mpr hknew)
    · refine Or.inl ?_
      by_cases hkj : k = j
      · simp [hkj]
      · rw [hcells, Function.update_of_ne hkj, malloc_cells, Function.update_of_ne hknew] at hk
        exact h.exact k hk

/-! ## Loops over a list -/

/-- `while (node)`, with a body that sees the node and its value. -/
def walkRound {σ : Type} (heap : Heap (Cell α)) (body : σ → Nat → α → Outcome σ)
    (s : Option Nat × σ) : Outcome (ForInStep (Option Nat × σ)) :=
  match s.1 with
  | none => .ok (.done s)
  | some i => do
    let cell ← heap.read i
    let result ← body s.2 i cell.value
    return .yield (cell.next, result)

/-- The loop is left at a null pointer. -/
theorem fst_of_walk_exits {σ : Type} {body : σ → Nat → α → Outcome σ} {s t : Option Nat × σ}
    (h : Loop.Exits (walkRound heap body) s t) : t.1 = none := by
  refine h.induction (P := fun _ => t.1 = none) (fun s hdone => ?_) fun _ _ _ _ ih => ih
  unfold walkRound at hdone
  split at hdone
  · next hnone =>
      cases hdone
      exact hnone
  · obtain ⟨cell, -, hdone⟩ := Outcome.bind_eq_ok.mp hdone
    obtain ⟨result, -, hdone⟩ := Outcome.bind_eq_ok.mp hdone
    cases hdone

/-- **The loop over a list** is the loop over its nodes. -/
theorem walk_exits {σ : Type} {body : σ → Nat → α → Outcome σ} (h : Linked heap p l) {s t : σ} :
    Loop.Exits (walkRound heap body) (p, s) (none, t) ↔
      l.foldlM (fun s e => body s e.1 e.2) s = .ok t := by
  induction l generalizing p s with
  | nil =>
      cases h
      rw [List.foldlM_nil, Loop.exits_iff]
      simp [walkRound, eq_comm]
  | cons e l ih =>
      obtain ⟨rfl, next, hcell, hrest⟩ := linked_cons.mp h
      rw [List.foldlM_cons, Outcome.bind_eq_ok, Loop.exits_iff]
      simp only [walkRound, read_of_cells hcell, Outcome.ok_bind, Outcome.bind_eq_ok,
        Outcome.pure_eq, Outcome.ok.injEq]
      constructor
      · rintro (⟨result, -, ⟨⟩⟩ | ⟨s', ⟨result, hbody, ⟨⟩⟩, hexits⟩)
        exact ⟨result, hbody, (ih hrest).mp hexits⟩
      · rintro ⟨result, hbody, hfold⟩
        exact .inr ⟨_, ⟨result, hbody, rfl⟩, (ih hrest).mpr hfold⟩

/-- `while (end_node->next)`. -/
def endRound (heap : Heap (Cell α)) (endNode : Nat) : Outcome (ForInStep Nat) := do
  let cell ← heap.read endNode
  match cell.next with
  | some next => return .yield next
  | none => return .done endNode

/-- **The loop to the last node.** -/
theorem endRound_exits (h : Linked heap (some i) (l ++ [(j, w)])) :
    Loop.Exits (endRound heap) i j := by
  induction l generalizing i with
  | nil =>
      obtain ⟨hij, next, hcell, hend⟩ := linked_cons.mp h
      cases hij
      cases hend
      exact Loop.exits_iff.mpr (.inl (by rw [endRound, read_of_cells hcell]; rfl))
  | cons e l ih =>
      obtain ⟨hie, next, hcell, hrest⟩ := linked_cons.mp h
      cases hie
      obtain ⟨k, rfl⟩ : ∃ k, next = some k := by
        cases next with
        | none => cases l <;> cases hrest
        | some k => exact ⟨k, rfl⟩
      exact Loop.exits_iff.mpr (.inr ⟨k, by rw [endRound, read_of_cells hcell]; rfl, ih hrest⟩)

/-- `while (node)`, which frees each node after it has read its link. -/
def freeRound (s : Heap (Cell α) × Option Nat) :
    Outcome (ForInStep (Heap (Cell α) × Option Nat)) :=
  match s.2 with
  | none => .ok (.done s)
  | some i => do
    let cell ← s.1.read i
    let heap ← s.1.free i
    return .yield (heap, cell.next)

/-- **All nodes freed**: the loop frees every node once, and nothing is left. -/
theorem Owns.freeList (h : Owns heap p l) :
    ∃ heap', Loop.Exits freeRound (heap, p) (heap', none) ∧ Owns heap' none [] := by
  induction l generalizing heap p with
  | nil =>
      obtain ⟨hlinked, hexact⟩ := h
      cases hlinked
      exact ⟨heap, Loop.exits_iff.mpr (.inl rfl), .nil, hexact⟩
  | cons e l ih =>
      obtain ⟨rfl, -⟩ := linked_cons.mp h.linked
      obtain ⟨next, heap₁, hcell, hfree, hrest⟩ := h.unlink_head
      obtain ⟨heap₂, hexits, howns⟩ := ih hrest
      refine ⟨heap₂, Loop.exits_iff.mpr (.inr ⟨(heap₁, next), ?_, hexits⟩), howns⟩
      simp only [freeRound, read_of_cells hcell, hfree, Outcome.ok_bind, Outcome.pure_eq]

end Lists

end Heap
