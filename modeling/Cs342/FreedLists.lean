import Mathlib
import Cs342.Library.Heap
import Cs342.ParsedLists

/-!
# The lists are freed (`free_arguments`)

Both programs free the nodes of their lists at the end, each after its link has been read. A list
that holds the records of its file is freed without a rest, and no node is freed twice. A file
without records leaves the head uninitialised, so that it is freed as well exactly if it happens to
be null (`parsed_lists_freed_iff`).
-/

/-! ## Freeing a chain -/

namespace Chain

variable {α : Type} {reader : Scanf.Reader α} {contents : ByteBuffer.Bytes} {chain : Chain α}
  {uninitialised : Option Nat} {values : List α}

/-- The loop over the list comes to its end, with every node freed. -/
def Freed (chain : Chain α) : Prop :=
  ∃ heap, Loop.Exits Heap.freeRound (Heap.ofList chain.cells, chain.dummyNext) (heap, none) ∧
    ∀ i, heap.cells i = none

/-- A list, with the places of its nodes. -/
theorem exists_linked {cells : List (Cell α)} {pointer : Option Nat}
    (h : IsList cells pointer values) :
    ∃ l, (Heap.ofList cells).Linked pointer l ∧ l.map Prod.snd = values := by
  induction h with
  | null => exact ⟨[], .nil, rfl⟩
  | @node i value next values hcell _ ih =>
      obtain ⟨l, hlinked, hvalues⟩ := ih
      exact ⟨(i, value) :: l, .cons hcell hlinked, by rw [List.map_cons, hvalues]⟩

/-- A complete list has all the memory, since it has as many nodes. -/
theorem Holds.owns (h : chain.Holds values) :
    ∃ l, (Heap.ofList chain.cells).Owns chain.dummyNext l := by
  obtain ⟨hlist, hlength⟩ := h
  obtain ⟨l, hlinked, hvalues⟩ := exists_linked hlist
  refine ⟨l, hlinked, fun i hi => ?_⟩
  have hsub : l.map Prod.fst ⊆ List.range chain.cells.length := by
    intro j hj
    obtain ⟨⟨j, value⟩, hmem, rfl⟩ := List.mem_map.mp hj
    obtain ⟨next, hcell⟩ := hlinked.cells_of_mem hmem
    exact List.mem_range.mpr (Heap.lt_next hcell)
  have hall : (l.map Prod.fst).Perm (List.range chain.cells.length) := by
    refine (hlinked.nodup.subperm hsub).perm_of_length_le ?_
    rw [List.length_range, List.length_map, hlength, ← hvalues, List.length_map]
  have hlive : i < chain.cells.length := by
    by_contra hge
    exact hi ((Heap.ofList chain.cells).fresh i (not_lt.mp hge))
  exact hall.mem_iff.mpr (List.mem_range.mpr hlive)

/-- **Freeing a complete list** leaves nothing. -/
theorem Holds.freed (h : chain.Holds values) : chain.Freed := by
  obtain ⟨l, howns⟩ := h.owns
  obtain ⟨heap, hexits, hnothing⟩ := howns.freeList
  refine ⟨heap, hexits, fun i => ?_⟩
  by_contra hlive
  exact List.not_mem_nil (hnothing.exact i hlive)

/-- A head that points nowhere is not freed. -/
theorem not_freed_of_dangling {i : Nat} (hcells : chain.cells = [])
    (hhead : chain.dummyNext = some i) : ¬ chain.Freed := by
  rintro ⟨heap, hexits, -⟩
  have hround : Heap.freeRound (Heap.ofList chain.cells, chain.dummyNext) = .undefined := by
    rw [hcells, hhead]
    rfl
  rcases Loop.exits_iff.mp hexits with h | ⟨s, h, -⟩
  · cases hround.symm.trans h
  · cases hround.symm.trans h

/-- **What the parser has chained is freed** if it is a list. -/
theorem freed_foldl_iff (values : List α) :
    (values.foldl append (start uninitialised)).Freed ↔ values ≠ [] ∨ uninitialised = none := by
  have hstart : Built uninitialised (start uninitialised : Chain α) [] := built_start
  by_cases hne : values = []
  · subst hne
    rw [List.foldl_nil, or_iff_right (not_not_intro rfl)]
    constructor
    · intro hfreed
      cases uninitialised with
      | none => rfl
      | some i => exact absurd hfreed (not_freed_of_dangling rfl rfl)
    · exact fun hnull => (hstart.holds_nil.mpr hnull).freed
  · exact iff_of_true ((hstart.foldl values).holds hne).freed (Or.inl hne)

theorem chainRecords_freed_iff :
    (∃ chain, chainRecords reader contents uninitialised = .ok chain ∧ chain.Freed) ↔
      ∃ records, reader.Records contents records ∧ (records ≠ [] ∨ uninitialised = none) := by
  constructor
  · rintro ⟨chain, hchain, hfreed⟩
    obtain ⟨records, hrecords, rfl⟩ := chainRecords_eq_ok.mp hchain
    exact ⟨records, hrecords, (freed_foldl_iff records).mp hfreed⟩
  · rintro ⟨records, hrecords, h⟩
    exact ⟨_, chainRecords_eq_ok.mpr ⟨records, hrecords, rfl⟩, (freed_foldl_iff records).mpr h⟩

end Chain

namespace Cs342

open ByteBuffer (Bytes)
open Paging Cfs

/-- **Freed lists.** The lists of regions, of addresses and of processes that are read from a file
are freed, each node once and without a rest, if and only if all scans of the file are defined, the
number of addresses is an int, and there is a record or the head happens to be null. -/
theorem parsed_lists_freed_iff (contents : Bytes) (uninitialised : Option Nat) :
    ((∃ chain, chainInputVirtualRegions contents uninitialised = .ok chain ∧ chain.Freed) ↔
      ∃ regions, regionReader.Records contents regions ∧
        (regions ≠ [] ∨ uninitialised = none)) ∧
    ((∃ chain totalAddresses,
        chainInputVirtualAddresses contents uninitialised = .ok (chain, totalAddresses) ∧
          chain.Freed) ↔
      ∃ addresses, addressReader.Records contents addresses ∧
        (addresses.length : Int) < 2 ^ 31 ∧ (addresses ≠ [] ∨ uninitialised = none)) ∧
    ((∃ chain, chainFileProcesses contents uninitialised = .ok chain ∧ chain.Freed) ↔
      ∃ processes, processReader.Records contents processes ∧
        (processes ≠ [] ∨ uninitialised = none)) := by
  refine ⟨Chain.chainRecords_freed_iff, ?_, Chain.chainRecords_freed_iff⟩
  constructor
  · rintro ⟨chain, total, hchain, hfreed⟩
    obtain ⟨addresses, hrecords, hlt, rfl, -⟩ := chainInputVirtualAddresses_eq_ok.mp hchain
    exact ⟨addresses, hrecords, hlt, (Chain.freed_foldl_iff addresses).mp hfreed⟩
  · rintro ⟨addresses, hrecords, hlt, h⟩
    exact ⟨_, _, chainInputVirtualAddresses_eq_ok.mpr ⟨addresses, hrecords, hlt, rfl, rfl⟩,
      (Chain.freed_foldl_iff addresses).mpr h⟩

end Cs342
