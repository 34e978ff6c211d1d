import Mathlib
import Cs342.Library.Heap
import Cs342.Cfs.QueueLength
import Cs342.Cfs.Publishing
import Cs342.Cfs.Shutdown

/-!
# The nodes of the run queue (`cfs.c`)

The run queue as it lies in memory: a node is allocated for every pcb that is added, unlinked and
freed when the pcb is removed. Each function does to the list of the nodes what its model in
`Runqueue.lean` does to the list of pcbs, and the nodes in the queue are all nodes there are
(`Represents`).
-/

namespace Cs342.Cfs

/-- `struct runqueue`, and the memory of its nodes. -/
structure NodeQueue where
  heap : Heap (Cell Nat)
  head : Option Nat
  count : Int

/-! ## The functions -/

namespace NodeQueue

/-- `runqueue_init`. -/
def runqueueInit : NodeQueue where
  heap := Heap.empty
  head := none
  count := 0

/-- `runqueue_add_pcb`. -/
def runqueueAddPcb (rq : NodeQueue) (pcb : Nat) : NodeQueue :=
  let (node, heap) := rq.heap.malloc { value := pcb, next := rq.head }
  { rq with heap, head := some node }

/-- The local variables of `runqueue_remove_pcb`, and the queue. -/
structure Removal where
  rq : NodeQueue
  prevNode : Option Nat
  node : Option Nat

/-- `prev_node->next = node->next`, or `rq->head = node->next` without a node before it. -/
def link (rq : NodeQueue) (prevNode next : Option Nat) : Outcome NodeQueue :=
  match prevNode with
  | some i => do
    let prev ← rq.heap.read i
    let heap ← rq.heap.write i { prev with next }
    return { rq with heap }
  | none => .ok { rq with head := next }

/-- One round of `while (node)`. -/
def removeRound (pcb : Nat) (s : Removal) : Outcome (ForInStep Removal) :=
  match s.node with
  | none => .ok (.done s)
  | some i => do
    let node ← s.rq.heap.read i
    if node.value = pcb then
      let rq ← s.rq.link s.prevNode node.next
      let heap ← rq.heap.free i
      return .done { s with rq := { rq with heap } }
    else
      return .yield { s with prevNode := some i, node := node.next }

/-- `runqueue_remove_pcb`, given up after `fuel` rounds. -/
def runqueueRemovePcb (fuel : Nat) (rq : NodeQueue) (pcb : Nat) : Outcome (Option NodeQueue) := do
  let some s ← Loop.run (removeRound pcb) fuel ⟨rq, none, rq.head⟩ | return none
  return some s.rq

/-- The loop of `runqueue_timeslice`. -/
def totalWeight (pcbs : Nat → Pcb) (fuel : Nat) (rq : NodeQueue) : Outcome (Option Int) := do
  let some s ← Loop.run (Heap.walkRound rq.heap fun total _ pcb => do
      let weight ← getWeight (pcbs pcb).priority
      Scanf.toInt (total + weight)) fuel (rq.head, (0 : Int)) | return none
  return some s.2

/-- `runqueue_timeslice`. -/
def runqueueTimeslice (pcbs : Nat → Pcb) (fuel : Nat) (rq : NodeQueue) (priority : Int) :
    Outcome (Option Int) := do
  let weight ← getWeight priority
  let some totalWeight ← totalWeight pcbs fuel rq | return none
  let timeslice := roundHalfAway ((weight : ℚ) / (totalWeight : ℚ) * schedLatency)
  let timeslice := if totalWeight = 0 then schedLatency else timeslice
  return some (if timeslice < minGranularity then minGranularity else timeslice)

/-- The body of the loop of `runqueue_smallest_pcb`, on the number of the smallest node so far. -/
def smallestBody (pcbs : Nat → Pcb) (rq : NodeQueue) (minNode node pcb : Nat) : Outcome Nat := do
  let min ← rq.heap.read minNode
  return if (pcbs min.value).vruntime > (pcbs pcb).vruntime then node else minNode

/-- `runqueue_smallest_pcb`. -/
def runqueueSmallestPcb (pcbs : Nat → Pcb) (fuel : Nat) (rq : NodeQueue) :
    Outcome (Option (Option Nat)) := do
  match rq.head with
  | none => return some none
  | some head =>
    let some s ← Loop.run (Heap.walkRound rq.heap (smallestBody pcbs rq)) fuel (some head, head)
      | return none
    let minNode ← rq.heap.read s.2
    return some (some minNode.value)

end NodeQueue

/-! ## Refinement -/

/-- The nodes of the queue hold its pcbs, in order, and there are no other nodes. -/
def Represents (nodes : NodeQueue) (rq : Runqueue) : Prop :=
  ∃ l, nodes.heap.Owns nodes.head l ∧ rq.head = l.map Prod.snd ∧ rq.count = nodes.count

section Refinement

variable {nodes : NodeQueue} {rq : Runqueue} {pcb : Nat} {pcbs : Nat → Pcb}

theorem represents_init : Represents NodeQueue.runqueueInit runqueueInit :=
  ⟨[], Heap.owns_empty, rfl, rfl⟩

theorem Represents.add (h : Represents nodes rq) (pcb : Nat) :
    Represents (nodes.runqueueAddPcb pcb) (runqueueAddPcb rq pcb) := by
  obtain ⟨l, howns, hhead, hcount⟩ := h
  exact ⟨_, howns.push pcb, congrArg (pcb :: ·) hhead, hcount⟩

/-- **The loop of the removal**, from a node on: the nodes before it hold other pcbs, and the last
of them is `prev_node`. -/
theorem exits_removeRound {before rest : List (Nat × Nat)} {node : Option Nat}
    (hbefore : nodes.heap.Segment nodes.head before node) (hrest : nodes.heap.Linked node rest)
    (hexact : ∀ i, nodes.heap.cells i ≠ none → i ∈ (before ++ rest).map Prod.fst)
    (hother : pcb ∉ before.map Prod.snd) :
    ∃ t l, Loop.Exits (NodeQueue.removeRound pcb)
        ⟨nodes, before.getLast?.map Prod.fst, node⟩ t ∧
      t.rq.heap.Owns t.rq.head l ∧ t.rq.count = nodes.count ∧
      l.map Prod.snd = ((before ++ rest).map Prod.snd).erase pcb := by
  have howns : nodes.heap.Owns nodes.head (before ++ rest) :=
    ⟨Heap.segment_append.mpr ⟨node, hbefore, hrest⟩, hexact⟩
  induction rest generalizing before node with
  | nil =>
      -- the pcb is not in the queue
      cases hrest
      rw [List.append_nil] at howns ⊢
      exact ⟨_, before, Loop.exits_iff.mpr (.inl rfl), howns, rfl,
        (List.erase_of_not_mem hother).symm⟩
  | cons e rest ih =>
      obtain ⟨rfl, next, hcell, hafter⟩ := Heap.linked_cons.mp hrest
      by_cases hpcb : e.2 = pcb
      · have herase : ((before ++ e :: rest).map Prod.snd).erase pcb
            = (before ++ rest).map Prod.snd := by
          rw [List.map_append, List.erase_append_right _ hother, List.map_cons, hpcb,
            List.erase_cons_head, List.map_append]
        rw [herase]
        rcases List.eq_nil_or_concat before with rfl | ⟨before, ⟨j, w⟩, rfl⟩
        · -- the first node
          obtain ⟨next', heap, hcell', hfree, howns'⟩ := howns.unlink_head
          cases hcell.symm.trans hcell'
          refine ⟨⟨⟨heap, next, nodes.count⟩, none, some e.1⟩, rest,
            Loop.exits_iff.mpr (.inl ?_), howns', rfl, rfl⟩
          simp only [NodeQueue.removeRound, Heap.read_of_cells hcell, Outcome.ok_bind, if_pos hpcb,
            NodeQueue.link, List.getLast?_nil, Option.map_none, hfree, Outcome.pure_eq]
        · -- a node behind another one
          rw [List.concat_eq_append] at howns ⊢
          rw [List.append_assoc, List.singleton_append] at howns
          obtain ⟨next', heap, heap', hprev, hcell', hwrite, hfree, howns'⟩ := howns.unlink
          cases hcell.symm.trans hcell'
          refine ⟨⟨⟨heap', nodes.head, nodes.count⟩, some j, some e.1⟩, before ++ (j, w) :: rest,
            Loop.exits_iff.mpr (.inl ?_), howns', rfl, by simp⟩
          simp only [NodeQueue.removeRound, Heap.read_of_cells hcell, Outcome.ok_bind, if_pos hpcb,
            NodeQueue.link, List.getLast?_append, List.getLast?_singleton, Option.some_or,
            Option.map_some, Heap.read_of_cells hprev, hwrite, hfree, Outcome.pure_eq]
      · have hsplit : before ++ e :: rest = (before ++ [e]) ++ rest := by simp
        rw [hsplit] at hexact howns ⊢
        have hother' : pcb ∉ (before ++ [e]).map Prod.snd := by
          simpa [hother] using Ne.symm hpcb
        obtain ⟨t, l, hexits, h⟩ := ih (Heap.segment_append.mpr ⟨_, hbefore, .cons hcell .nil⟩)
          hafter hexact hother' howns
        refine ⟨t, l, Loop.exits_iff.mpr (.inr ⟨_, ?_, hexits⟩), h⟩
        simp only [NodeQueue.removeRound, Heap.read_of_cells hcell, Outcome.ok_bind, if_neg hpcb,
          Outcome.pure_eq, List.getLast?_append, List.getLast?_singleton, Option.some_or,
          Option.map_some]

/-- **Removing a pcb** ends, and frees its node. -/
theorem Represents.remove (h : Represents nodes rq) (pcb : Nat) :
    ∃ fuel nodes', nodes.runqueueRemovePcb fuel pcb = .ok (some nodes') ∧
      Represents nodes' (runqueueRemovePcb rq pcb) := by
  obtain ⟨l, howns, hhead, hcount⟩ := h
  obtain ⟨t, l', ⟨fuel, hrun⟩, howns', hcount', hl'⟩ :=
    exits_removeRound .nil howns.linked howns.exact (List.not_mem_nil : pcb ∉ [])
  refine ⟨fuel, t.rq, ?_, l', howns', ?_, hcount.trans hcount'.symm⟩
  · rw [NodeQueue.runqueueRemovePcb]
    rw [List.getLast?_nil, Option.map_none] at hrun
    rw [hrun]
    rfl
  · rw [hl', List.nil_append, ← hhead]
    rfl

/-- **The total weight** is that of the queued pcbs. -/
theorem Represents.totalWeight (h : Represents nodes rq) (total : Int) :
    (∃ fuel, nodes.totalWeight pcbs fuel = .ok (some total)) ↔
      rq.head.foldlM (fun totalWeight node => do
        let nodeWeight ← getWeight (pcbs node).priority
        Scanf.toInt (totalWeight + nodeWeight)) (0 : Int) = .ok total := by
  obtain ⟨l, howns, hhead, -⟩ := h
  let body : Int → Nat → Nat → Outcome Int := fun total _ pcb => do
    let weight ← getWeight (pcbs pcb).priority
    Scanf.toInt (total + weight)
  rw [hhead, List.foldlM_map]
  have hwalk : Loop.Exits (Heap.walkRound nodes.heap body) (nodes.head, 0) (none, total) ↔
      l.foldlM (fun sum e => body sum e.1 e.2) 0 = .ok total := Heap.walk_exits howns.linked
  refine Iff.trans ?_ hwalk
  constructor
  · rintro ⟨fuel, h⟩
    obtain ⟨_ | ⟨node, sum⟩, hrun, h⟩ := Outcome.bind_eq_ok.mp h
    · cases h
    · cases h
      obtain rfl : node = none := Heap.fst_of_walk_exits ⟨fuel, hrun⟩
      exact ⟨fuel, hrun⟩
  · rintro ⟨fuel, hrun⟩
    refine ⟨fuel, ?_⟩
    rw [NodeQueue.totalWeight, hrun]
    rfl

/-- **The timeslice** is that of the list. -/
theorem Represents.timeslice (h : Represents nodes rq) (priority timeslice : Int) :
    (∃ fuel, nodes.runqueueTimeslice pcbs fuel priority = .ok (some timeslice)) ↔
      runqueueTimeslice pcbs rq priority = .ok timeslice := by
  constructor
  · rintro ⟨fuel, h'⟩
    obtain ⟨weight, hweight, h'⟩ := Outcome.bind_eq_ok.mp h'
    obtain ⟨_ | total, htotal, h'⟩ := Outcome.bind_eq_ok.mp h'
    · cases h'
    · cases h'
      rw [runqueueTimeslice, hweight, Outcome.ok_bind, (h.totalWeight total).mp ⟨fuel, htotal⟩]
      rfl
  · intro h'
    obtain ⟨weight, hweight, h'⟩ := Outcome.bind_eq_ok.mp h'
    obtain ⟨total, htotal, h'⟩ := Outcome.bind_eq_ok.mp h'
    obtain ⟨fuel, hrun⟩ := (h.totalWeight total).mpr htotal
    cases h'
    refine ⟨fuel, ?_⟩
    rw [NodeQueue.runqueueTimeslice, hweight, Outcome.ok_bind, hrun]
    rfl

theorem foldlM_smallestBody {l : List (Nat × Nat)} {minNode minPcb : Nat} {next : Option Nat}
    (hcells : ∀ e ∈ l, ∃ next, nodes.heap.cells e.1 = some ⟨e.2, next⟩)
    (hmin : nodes.heap.cells minNode = some ⟨minPcb, next⟩) :
    ∃ node next, l.foldlM (fun s e => nodes.smallestBody pcbs s e.1 e.2) minNode = .ok node ∧
      nodes.heap.cells node
        = some ⟨(l.map Prod.snd).foldl (smallerNode pcbs) minPcb, next⟩ := by
  induction l generalizing minNode minPcb next with
  | nil => exact ⟨minNode, next, rfl, hmin⟩
  | cons e l ih =>
      obtain ⟨next', hcell⟩ := hcells e List.mem_cons_self
      have hrest := fun e' he' => hcells e' (List.mem_cons_of_mem _ he')
      rw [List.foldlM_cons, NodeQueue.smallestBody, Heap.read_of_cells hmin, Outcome.ok_bind,
        Outcome.pure_eq, Outcome.ok_bind, List.map_cons, List.foldl_cons, smallerNode]
      dsimp only
      split
      · exact ih hrest hcell
      · exact ih hrest hmin

/-- **The smallest pcb** is that of the list. -/
theorem Represents.smallest (h : Represents nodes rq) (pcbs : Nat → Pcb) :
    ∃ fuel, nodes.runqueueSmallestPcb pcbs fuel = .ok (some (runqueueSmallestPcb pcbs rq)) := by
  obtain ⟨l, howns, hhead, -⟩ := h
  cases l with
  | nil =>
      have hnone : nodes.head = none := Heap.linked_nil.mp howns.linked
      refine ⟨0, ?_⟩
      rw [NodeQueue.runqueueSmallestPcb, hnone, runqueueSmallestPcb, hhead]
      rfl
  | cons e l =>
      obtain ⟨hfirst, next, hcell, -⟩ := Heap.linked_cons.mp howns.linked
      obtain ⟨node, next', hfold, hnode⟩ :=
        foldlM_smallestBody (fun e' he' => howns.linked.cells_of_mem he') hcell
      obtain ⟨fuel, hrun⟩ := (Heap.walk_exits howns.linked).mpr hfold
      refine ⟨fuel, ?_⟩
      rw [hfirst] at hrun
      rw [NodeQueue.runqueueSmallestPcb, hfirst]
      dsimp only
      rw [hrun, Outcome.ok_bind]
      dsimp only
      rw [Heap.read_of_cells hnode, Outcome.ok_bind, runqueueSmallestPcb, hhead]
      rfl

end Refinement

/-! ## The program on the nodes -/

open Threads (Label)

/-- The call of `add_pcb_to_runqueue` or `remove_pcb_from_runqueue` that a turn makes. -/
def queueCall (s : State) : Label Thread → Option QueueOp
  | .run (.process k) =>
    match s.mode (.process k), s.pc (.process k) with
    | .running, .add => some (.add k)
    | .running, .run => some (.remove k)
    | _, _ => none
  | _ => none

/-- The call returns, and leaves these nodes. -/
def Performs (nodes : NodeQueue) : Option QueueOp → NodeQueue → Prop
  | none, nodes' => nodes' = nodes
  | some (.add pcb), nodes' => nodes' = nodes.runqueueAddPcb pcb
  | some (.remove pcb), nodes' => ∃ fuel, nodes.runqueueRemovePcb fuel pcb = .ok (some nodes')

/-- The program with the nodes of its run queue: every turn does to them what its call does. -/
inductive NodeRun (workload : Workload) : List (Label Thread) → State → NodeQueue → Prop
  | init : NodeRun workload [] (cfs workload).init NodeQueue.runqueueInit
  | step {ls : List (Label Thread)} {l : Label Thread} {s s' : State} {nodes nodes' : NodeQueue}
      (hrun : NodeRun workload ls s nodes) (hstep : (cfs workload).step l s = some s')
      (hcall : Performs nodes (queueCall s l) nodes') : NodeRun workload (ls ++ [l]) s' nodes'

section Runs

variable {workload : Workload} {s s' : State} {l : Label Thread} {ls : List (Label Thread)}
  {nodes nodes' : NodeQueue} {rq : Runqueue}

/-- An instruction of a process that is no call leaves the queue. -/
theorem rq_of_advance {k : Nat} {shared shared' : Shared} {p next : ProcessPC}
    (h : (processInstr k p).advance shared = some (shared', next)) (hadd : p ≠ .add)
    (hremove : p ≠ .run) : shared'.rq = shared.rq := by
  cases p with
  | add => exact absurd rfl hadd
  | run => exact absurd rfl hremove
  | setReady => cases h; rfl
  | sendStats departureTime =>
      obtain ⟨-, -, statsArray, rfl⟩ := advance_sendStats h
      rfl
  | _ =>
      simp only [processInstr, Threads.Instr.advance] at h
      grind

theorem rq_of_main {shared shared' : Shared} {p next : MainPC}
    (h : (mainInstr p).advance shared = some (shared', next)) : shared'.rq = shared.rq := by
  cases p <;>
    · simp only [mainInstr, Threads.Instr.advance] at h
      grind

theorem queueCall_eq_none {k : Nat} (hadd : s.pc (.process k) ≠ .add)
    (hremove : s.pc (.process k) ≠ .run) : queueCall s (.run (.process k)) = none := by
  simp only [queueCall]
  split
  · next hp => exact absurd hp hadd
  · next hp => exact absurd hp hremove
  · rfl

/-- **What a turn does to the queue**: its call, or nothing, unless the queue is freed. -/
theorem queueCall_cases (hstep : (cfs workload).step l s = some s') :
    (queueCall s l = none ∧ (s'.shared.rq = s.shared.rq ∨ s'.shared.rq = none)) ∨
      ∃ op rq, queueCall s l = some op ∧ s.shared.rq = some rq ∧
        s'.shared.rq = some (op.apply rq) := by
  cases Threads.turn_of_step hstep with
  | spurious hmode => exact .inl ⟨rfl, .inl (by rw [Threads.State.wakeUp_shared])⟩
  | @relock t m hmode =>
      refine .inl ⟨?_, .inl rfl⟩
      cases t <;> simp [queueCall, hmode]
  | @wait t c m next hmode hinstr =>
      refine .inl ⟨?_, .inl rfl⟩
      cases t with
      | process k =>
          apply queueCall_eq_none <;>
            · intro hp
              rw [hp] at hinstr
              cases hinstr
      | _ => rfl
  | wake hmode hinstr => exact .inl ⟨rfl, .inl (by rw [Threads.State.wakeUp_shared]; rfl)⟩
  | @go t shared next owner hmode hawake hadvance =>
      cases t with
      | scheduler =>
          refine .inl ⟨rfl, ?_⟩
          rcases (scheduler_effect hadvance).rq with h | ⟨-, h⟩
          · exact .inl h
          · exact .inr h
      | generator => exact .inl ⟨rfl, .inl (generator_effect hadvance).rq⟩
      | main => exact .inl ⟨rfl, .inl (rq_of_main hadvance)⟩
      | clock =>
          cases hadvance
          exact .inl ⟨rfl, .inl rfl⟩
      | process k =>
          have hadvance : (processInstr k (s.pc (.process k))).advance s.shared
              = some (shared, next) := hadvance
          by_cases hadd : s.pc (.process k) = .add
          · simp only [hadd, processInstr, Threads.Instr.advance] at hadvance
            split at hadvance
            · next rq hrq =>
                cases hadvance
                exact .inr ⟨.add k, rq, by simp [queueCall, hmode, hadd], hrq, rfl⟩
            · cases hadvance
          · by_cases hremove : s.pc (.process k) = .run
            · rw [hremove] at hadvance
              obtain ⟨-, hslice⟩ := advance_run hadvance
              obtain ⟨rq, timeslice, cpuTime, vruntime, hrq, -, -, -, rfl⟩ := runSlice_spec hslice
              exact .inr ⟨.remove k, rq, by simp [queueCall, hmode, hremove], hrq, rfl⟩
            · exact .inl ⟨queueCall_eq_none hadd hremove,
                .inl (rq_of_advance hadvance hadd hremove)⟩

/-- **Step lemma**: the call is defined and keeps the nodes of the queue. -/
theorem Represents.performs (h : Represents nodes rq) (call : Option QueueOp) :
    ∃ nodes', Performs nodes call nodes' ∧
      Represents nodes' ((call.map (QueueOp.apply rq)).getD rq) := by
  match call with
  | none => exact ⟨nodes, rfl, h⟩
  | some (.add pcb) => exact ⟨_, rfl, h.add pcb⟩
  | some (.remove pcb) =>
      obtain ⟨fuel, nodes', hok, h'⟩ := h.remove pcb
      exact ⟨nodes', ⟨fuel, hok⟩, h'⟩

theorem Performs.unique {call : Option QueueOp} {nodes'' : NodeQueue}
    (h : Performs nodes call nodes') (h' : Performs nodes call nodes'') : nodes' = nodes'' := by
  match call with
  | none => exact Eq.trans h (Eq.symm h')
  | some (.add pcb) => exact Eq.trans h (Eq.symm h')
  | some (.remove pcb) =>
      obtain ⟨fuel, h⟩ := h
      obtain ⟨fuel', h'⟩ := h'
      obtain ⟨_ | t, hrun, h⟩ := Outcome.bind_eq_ok.mp h
      · cases h
      obtain ⟨_ | t', hrun', h'⟩ := Outcome.bind_eq_ok.mp h'
      · cases h'
      cases h
      cases h'
      rw [Loop.Exits.unique ⟨fuel, hrun⟩ ⟨fuel', hrun'⟩]

/-- The nodes are those of the queue, in every state of a run up to the one that frees it. -/
theorem NodeRun.represents (h : NodeRun workload ls s nodes) (hrq : s.shared.rq = some rq) :
    Represents nodes rq := by
  induction h generalizing rq with
  | init =>
      cases hrq
      exact represents_init
  | @step ls l s s' nodes nodes' _ hstep hcall ih =>
      rcases queueCall_cases hstep with ⟨hnone, hsame | hfreed⟩ | ⟨op, old, hop, hold, hnew⟩
      · rw [hnone] at hcall
        rw [hcall]
        exact ih (hsame ▸ hrq)
      · cases hfreed.symm.trans hrq
      · cases hnew.symm.trans hrq
        rw [hop] at hcall
        obtain ⟨nodes'', hcall', h'⟩ := (ih hold).performs op
        rwa [hcall.unique hcall']

/-- **Run lemma**: no run of the program is stopped by its nodes. -/
theorem exists_nodeRun (hrun : (cfs workload).run ls (cfs workload).init = some s) :
    ∃ nodes, NodeRun workload ls s nodes := by
  induction ls using List.reverseRecOn generalizing s with
  | nil =>
      cases hrun
      exact ⟨_, .init⟩
  | append_singleton ls l ih =>
      rw [System.run_append] at hrun
      obtain ⟨mid, hmid, hstep⟩ := Option.bind_eq_some_iff.mp hrun
      rw [System.run_singleton] at hstep
      obtain ⟨nodes, hnodes⟩ := ih hmid
      rcases queueCall_cases hstep with ⟨hnone, -⟩ | ⟨op, rq, hop, hrq, -⟩
      · exact ⟨nodes, hnodes.step hstep (by rw [hnone]; rfl)⟩
      · obtain ⟨nodes', hcall, -⟩ := (hnodes.represents hrq).performs op
        exact ⟨nodes', hnodes.step hstep (by rw [hop]; exact hcall)⟩

/-- When the queue is freed it is empty. -/
theorem queue_empty (htotal : workload.totalProcessCount = workload.processes.length)
    (hs : (cfs workload).Reachable s) (hfree : s.pc .scheduler = .freeRq)
    (hrq : s.shared.rq = some rq) : rq.head = [] := by
  have hcounted : Counted workload s := ⟨hs, by rw [hfree]; trivial⟩
  apply List.eq_nil_iff_forall_not_mem.mpr
  intro k hk
  have hqueued := (((Inv.reachable hs).queue hrq).2 k).mp hk
  rcases hcounted.process htotal k with hnotified | ⟨hfresh, -⟩
  · unfold Notified at hnotified
    cases hp : s.pc (.process k) <;> rw [hp] at hqueued hnotified <;>
      first | exact hqueued | exact hnotified
  · rw [hfresh] at hqueued
    exact hqueued

end Runs

/-- **The memory of the run queue.** Whatever the threads do, every call on the queue is defined on
its nodes. Up to the end of the queue its nodes are exactly the queued pcbs, in order, so that the
scheduler selects the pcb and a process gets the timeslice of the model; and when the queue is freed,
all nodes have been. -/
theorem runqueue_nodes (workload : Workload)
    (htotal : workload.totalProcessCount = workload.processes.length) (ls : List (Label Thread))
    (s : State) (hrun : (cfs workload).run ls (cfs workload).init = some s) :
    (∃ nodes, NodeRun workload ls s nodes) ∧
    ∀ nodes, NodeRun workload ls s nodes → ∀ rq, s.shared.rq = some rq →
      Represents nodes rq ∧
      (∃ fuel, nodes.runqueueSmallestPcb s.shared.pcbs fuel
        = .ok (some (runqueueSmallestPcb s.shared.pcbs rq))) ∧
      (∀ priority timeslice,
        (∃ fuel, nodes.runqueueTimeslice s.shared.pcbs fuel priority = .ok (some timeslice)) ↔
          runqueueTimeslice s.shared.pcbs rq priority = .ok timeslice) ∧
      (s.pc .scheduler = .freeRq → ∀ i, nodes.heap.cells i = none) := by
  refine ⟨exists_nodeRun hrun, fun nodes hnodes rq hrq => ?_⟩
  have hrepresents := hnodes.represents hrq
  refine ⟨hrepresents, hrepresents.smallest _, hrepresents.timeslice, ?_⟩
  intro hfree i
  obtain ⟨l, howns, hhead, -⟩ := hrepresents
  have hnil : l = [] := by
    rw [queue_empty htotal ⟨ls, hrun⟩ hfree hrq, eq_comm, List.map_eq_nil_iff] at hhead
    exact hhead
  subst hnil
  by_contra hlive
  exact List.not_mem_nil (howns.exact i hlive)

/-- The only process is queued. -/
def queuedRun : List (Label Thread) :=
  turns .scheduler 5 ++ turns .generator 2 ++ turns (.process 0) 8

theorem queuedRun_queues : ((cfs oneProcess).run queuedRun (cfs oneProcess).init).map
    (fun s => s.shared.rq) = some (some { head := [0], count := 0 }) := by decide +kernel

theorem runqueue_nodes_queuedRun : ∃ s nodes, (cfs oneProcess).run queuedRun (cfs oneProcess).init
      = some s ∧ NodeRun oneProcess queuedRun s nodes ∧
    ∃ fuel, nodes.runqueueSmallestPcb s.shared.pcbs fuel = .ok (some (some 0)) := by
  obtain ⟨s, hrun, hrq⟩ := Option.map_eq_some_iff.mp queuedRun_queues
  obtain ⟨⟨nodes, hnodes⟩, h⟩ := runqueue_nodes oneProcess rfl queuedRun s hrun
  obtain ⟨-, hsmallest, -⟩ := h nodes hnodes _ hrq
  have hpcb : runqueueSmallestPcb s.shared.pcbs { head := [0], count := 0 } = some 0 := by
    simp [runqueueSmallestPcb, smallerNode]
  rw [hpcb] at hsmallest
  exact ⟨s, nodes, hrun, hnodes, hsmallest⟩

end Cs342.Cfs
