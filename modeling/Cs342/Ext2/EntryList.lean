import Mathlib
import Cs342.Library.Bounded
import Cs342.Library.ObjectList
import Cs342.Ext2.Listing
import Cs342.Ext2.Report

/-!
# The list of directory entries in memory (`dir_entry_list.c`)

Each entry is a copy of a record in memory of its own, with a node in the list. The loop of
`populate_dir_entry_list` does to the nodes what its model in `Directory.lean` does to the list of
entries, and there are no other nodes or copies (`returns_populate`). So the loops that print the
list see the entries in order, and the one that frees it leaves nothing (`dir_entry_list_nodes`).
-/

namespace Cs342.Ext2

open ByteBuffer

/-! ## The list -/

/-- `dir_entry_list`, with its nodes and the copies that they point to. -/
abbrev EntryNodes := ObjectList DirEntry

namespace EntryNodes

/-- `init_dir_entry_list`. -/
def initDirEntryList : EntryNodes := ObjectList.empty

/-- `append_dir_entry_list`. -/
def appendDirEntryList (dirEntryList : EntryNodes) (dirEntry : Nat) : Bounded EntryNodes := do
  let (node, nodes) := dirEntryList.nodes.malloc { value := dirEntry, next := none }
  match dirEntryList.head with
  | none => return { dirEntryList with nodes, head := some node }
  | some head =>
    let endNode ← Bounded.loop (Heap.endRound nodes) head
    let cell ← nodes.read endNode
    let nodes ← nodes.write endNode { cell with next := some node }
    return { dirEntryList with nodes }

/-- A loop over the list, with a body that sees the copies. -/
def forEach (dirEntryList : EntryNodes) (body : Device → DirEntry → Outcome Device)
    (device : Device) : Bounded Device := do
  let (_, device) ← Bounded.loop (Heap.walkRound dirEntryList.nodes fun device _ value => do
    let dirEntry ← dirEntryList.objects.read value
    body device dirEntry) (dirEntryList.head, device)
  return device

/-- `print_root_directory_entries`. -/
def printRootDirectoryEntries (dirEntryList : EntryNodes) (device : Device) : Bounded Device :=
  dirEntryList.forEach (fun device dirEntry => .ok (device.print (printDirEntry dirEntry))) device

/-- `free_dir_entry_list`. -/
def freeDirEntryList (dirEntryList : EntryNodes) : Bounded EntryNodes :=
  Bounded.loop ObjectList.freeRound dirEntryList

end EntryNodes

/-! ## The loop -/

/-- The variables of `populate_dir_entry_list`, with the list in memory. -/
structure NodeWalk where
  device : Device
  blockOffset : Nat
  dirEntryOffset : Nat
  dirEntryList : EntryNodes

namespace NodeWalk

/-- `dir_entry`, as an index of `buffer`. -/
def dirEntry (s : NodeWalk) : Nat := s.dirEntryOffset % blockSize

/-- The end of the loop body, as in `Walk.advance`. -/
def advance (file : File) (recLen : Nat) (s : NodeWalk) : Outcome NodeWalk :=
  let dirEntryOffset := s.dirEntryOffset + recLen
  if 2 ^ 31 ≤ dirEntryOffset then .undefined
  else if dirEntryOffset % blockSize = 0 then do
    let device ← bufferReadBlock file s.blockOffset s.device
    return { s with device, blockOffset := s.blockOffset + 1, dirEntryOffset }
  else return { s with dirEntryOffset }

/-- `while (dir_entry->inode)`. -/
def round (file : File) (s : NodeWalk) : Bounded (ForInStep NodeWalk) := do
  let inode ← loadInt s.device.buffer s.dirEntry
  if inode = 0 then return .done s
  let copyDirEntry ← DirEntry.load s.device.buffer s.dirEntry
  let (copy, objects) := s.dirEntryList.objects.malloc copyDirEntry
  let dirEntryList ← EntryNodes.appendDirEntryList { s.dirEntryList with objects } copy
  let s ← advance file copyDirEntry.recLen.toNat { s with dirEntryList }
  return .yield s

/-- `populate_dir_entry_list`. -/
def populate (file : File) (rootDirectoryInode : Inode) (device : Device)
    (dirEntryList : EntryNodes) : Bounded NodeWalk := do
  let iBlock ← rootDirectoryInode.iBlock 0
  let device ← bufferReadBlock file iBlock.toInt device
  Bounded.nested (round file) { device, blockOffset := 0, dirEntryOffset := 0, dirEntryList }

end NodeWalk

/-! ## Refinement -/

/-- The same variables, and the entries of the list in memory. -/
structure Matches (s : Walk) (t : NodeWalk) : Prop where
  device : t.device = s.device
  blockOffset : t.blockOffset = s.blockOffset
  dirEntryOffset : t.dirEntryOffset = s.dirEntryOffset
  holds : t.dirEntryList.Holds s.dirEntryList

section Refinement

variable {file : File} {list : EntryNodes} {dirEntries : List DirEntry} {s t : Walk}
  {s' : NodeWalk}

/-- **Appending a copy** returns, and puts it behind the others. -/
theorem returns_append (h : list.Holds dirEntries) (dirEntry : DirEntry) :
    ∃ list', (EntryNodes.appendDirEntryList
        { list with objects := (list.objects.malloc dirEntry).2 } list.objects.next).Returns list' ∧
      list'.Holds (appendDirEntryList dirEntry dirEntries) := by
  rw [appendDirEntryList_eq]
  cases hhead : list.head with
  | none =>
      refine ⟨_, ?_, h.append_nil hhead dirEntry⟩
      simp only [EntryNodes.appendDirEntryList]
      exact Bounded.returns_pure _
  | some head =>
      obtain ⟨endNode, cell, nodes, hexits, hread, hwrite, hholds⟩ := h.append hhead dirEntry
      refine ⟨_, ?_, hholds⟩
      simp only [EntryNodes.appendDirEntryList, hhead]
      exact (Bounded.returns_of_exits hexits).bind <| (Bounded.returns_lift hread).bind <|
        (Bounded.returns_lift hwrite).bind <| Bounded.returns_pure _

theorem Matches.advance {recLen : Nat} (h : Matches s s')
    (hadvance : s.advance file recLen = .ok t) :
    ∃ t', s'.advance file recLen = .ok t' ∧ Matches t t' := by
  obtain ⟨device, blockOffset, dirEntryOffset, list⟩ := s'
  obtain ⟨rfl, rfl, rfl, hholds⟩ := h
  simp only [Walk.advance] at hadvance
  simp only [NodeWalk.advance]
  split at hadvance
  · cases hadvance
  · next hlt =>
      rw [if_neg hlt]
      split at hadvance
      · next hend =>
          obtain ⟨device, hread, hadvance⟩ := Outcome.bind_eq_ok.mp hadvance
          cases hadvance
          rw [if_pos hend, hread]
          exact ⟨_, rfl, rfl, rfl, rfl, hholds⟩
      · next hend =>
          cases hadvance
          rw [if_neg hend]
          exact ⟨_, rfl, rfl, rfl, rfl, hholds⟩

theorem Matches.dirEntry (h : Matches s s') : s'.dirEntry = s.dirEntry := by
  rw [NodeWalk.dirEntry, h.dirEntryOffset, Walk.dirEntry]

/-- The loop is left where the other one is. -/
theorem Matches.done (h : Matches s s') (hround : s.round file = .ok (.done t)) :
    ∃ t', (s'.round file).Returns (.done t') ∧ Matches t t' := by
  obtain ⟨hinode, rfl⟩ := Walk.round_eq_done.mp hround
  rw [← h.device, ← h.dirEntry] at hinode
  exact ⟨s', (Bounded.returns_lift hinode).bind (Bounded.returns_pure _), h⟩

/-- **A round** returns, and appends the same entry. -/
theorem Matches.yield (h : Matches s s') (hround : s.round file = .ok (.yield t)) :
    ∃ t', (s'.round file).Returns (.yield t') ∧ Matches t t' := by
  obtain ⟨inode, dirEntry, hinode, hne, hload, hadvance⟩ := Walk.round_eq_yield.mp hround
  rw [← h.device, ← h.dirEntry] at hinode hload
  obtain ⟨list, hlist, hholds⟩ := returns_append h.holds dirEntry
  have happended : Matches { s with dirEntryList := appendDirEntryList dirEntry s.dirEntryList }
      { s' with dirEntryList := list } := ⟨h.device, h.blockOffset, h.dirEntryOffset, hholds⟩
  obtain ⟨t', hadvance', ht⟩ := happended.advance hadvance
  refine ⟨t', (Bounded.returns_lift hinode).bind ?_, ht⟩
  rw [if_neg hne]
  exact (Bounded.returns_lift hload).bind <| hlist.bind <| (Bounded.returns_lift hadvance').bind <|
    Bounded.returns_pure _

/-- **Populating the list**: if the entries are gathered, their copies are, and nothing else. -/
theorem returns_populate {rootDirectoryInode : Inode} {device device' : Device}
    {iBlock : BitVec 32} (hblock : rootDirectoryInode.iBlock 0 = .ok iBlock)
    (hread : bufferReadBlock file iBlock.toInt device = .ok device')
    (hexits : Loop.Exits (Walk.round file) ⟨device', 0, 0, initDirEntryList⟩ t) :
    ∃ t', (NodeWalk.populate file rootDirectoryInode device
      EntryNodes.initDirEntryList).Returns t' ∧ Matches t t' := by
  have hstart : Matches ⟨device', 0, 0, initDirEntryList⟩
      ⟨device', 0, 0, EntryNodes.initDirEntryList⟩ := ⟨rfl, rfl, rfl, ObjectList.holds_empty⟩
  obtain ⟨t', hreturns, ht⟩ := Bounded.returns_nested (fun _ _ _ hround h => Matches.done h hround)
    (fun _ _ _ hround h => Matches.yield h hround) hexits hstart
  exact ⟨t', (Bounded.returns_lift hblock).bind ((Bounded.returns_lift hread).bind hreturns), ht⟩

/-- **A loop over the list** is one over its entries. -/
theorem returns_forEach (h : list.Holds dirEntries) {body : Device → DirEntry → Outcome Device}
    {device device' : Device} (hfold : dirEntries.foldlM body device = .ok device') :
    (list.forEach body device).Returns device' :=
  (Bounded.returns_of_exits (h.walk.mpr hfold)).bind (Bounded.returns_pure _)

theorem foldlM_print (f : DirEntry → List String) (device : Device) :
    dirEntries.foldlM (fun device dirEntry => Outcome.ok (device.print (f dirEntry))) device
      = .ok (device.print (dirEntries.flatMap f)) := by
  induction dirEntries generalizing device with
  | nil => simp [Device.print]
  | cons dirEntry dirEntries ih =>
      rw [List.foldlM_cons, Outcome.ok_bind, ih, Device.print_print, List.flatMap_cons]

/-- **Freeing the list** leaves nothing. -/
theorem returns_freeDirEntryList (h : list.Holds dirEntries) :
    ∃ list', (list.freeDirEntryList).Returns list' ∧ list'.Nothing := by
  obtain ⟨list', hexits, hnothing⟩ := h.free
  exact ⟨list', Bounded.returns_of_exits hexits, hnothing⟩

end Refinement

/-- **The memory of the list.** Whatever is read, if the entries of a directory are gathered, then
the list in memory is built of their copies, each with a node of its own. Their names are printed in
order, each of them up to its length or its first zero and on a line of its own, and afterwards
every copy and every node is freed once and nothing is left. -/
theorem dir_entry_list_nodes (file : File) (rootDirectoryInode : Inode) (device : Device)
    (fuel : Nat) (s : Walk) (hpopulate : populateDirEntryList file rootDirectoryInode device
      initDirEntryList fuel = .ok (some s)) :
    ∃ t : NodeWalk, (NodeWalk.populate file rootDirectoryInode device
        EntryNodes.initDirEntryList).Returns t ∧
      t.device = s.device ∧ t.dirEntryList.Holds s.dirEntryList ∧
      (∀ shown : Device, (EntryNodes.printRootDirectoryEntries t.dirEntryList shown).Returns
        { shown with
          printed := shown.printed ++ s.dirEntryList.map (fun dirEntry =>
            nameText (dirEntry.fileName.take dirEntry.nameLen.toNat) ++ "\n") }) ∧
      ∃ list, (EntryNodes.freeDirEntryList t.dirEntryList).Returns list ∧ list.Nothing := by
  obtain ⟨iBlock, hblock, hpopulate⟩ := Outcome.bind_eq_ok.mp hpopulate
  obtain ⟨device', hread, hrun⟩ := Outcome.bind_eq_ok.mp hpopulate
  obtain ⟨t, hreturns, hmatches⟩ := returns_populate hblock hread ⟨fuel, hrun⟩
  refine ⟨t, hreturns, hmatches.device, hmatches.holds, fun shown => ?_, ?_⟩
  · rw [← flatMap_printDirEntry]
    exact returns_forEach hmatches.holds (foldlM_print printDirEntry shown)
  · exact returns_freeDirEntryList hmatches.holds

/-- The list of an empty root directory. -/
theorem dir_entry_list_nodes_dots : ∃ t : NodeWalk,
    (NodeWalk.populate (.regular (smallImage (rootInode 4096) [dots])) (rootInode 4096) startDevice
      EntryNodes.initDirEntryList).Returns t ∧
    ∃ list, (EntryNodes.freeDirEntryList t.dirEntryList).Returns list ∧ list.Nothing := by
  have hfirst : [dots][0]? = some dots := rfl
  obtain ⟨fuel, s, hpopulate, -⟩ := (lists_first_iff startDevice (iBlock_rootInode 4096).1
    (block_smallImage (rootInode 4096) hfirst) (by decide) used_dots copiesFit_dots
    (loadInt_smallImage (rootInode 4096) [dots]) (by decide)).mpr rfl
  obtain ⟨t, hreturns, -, -, -, hfree⟩ := dir_entry_list_nodes _ _ _ fuel s hpopulate
  exact ⟨t, hreturns, hfree⟩

end Cs342.Ext2
