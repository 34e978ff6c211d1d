import Mathlib
import Cs342.Ext2.Termination
import Cs342.Ext2.Groups
import Cs342.Ext2.EntryList

/-!
# The program (`proj04/src/main.c`)

On an image with inodes of 128 bytes whose root directory has a first block of records, the program
prints what the image says: the fields of the superblock, the names of the directory, and for each
of them the inode that is stored under its number in the table of the first group (`Report`).
Afterwards nothing is left of the list of entries (`main_prints_report`).

The loop that prints the inodes looks up what the loop over the entries in `InodeTable.lean` does,
and prints that (`foldlM_printEntryInode`).
-/

namespace Cs342.Ext2

open ByteBuffer

/-! ## The functions -/

/-- `buffer_init`, with the file that `open` has found. -/
def bufferInit : Option File → Outcome File
  | some file => .ok file
  | none => .exit 1 "error: cannot open disk file\n"

/-- `EXT2_ROOT_INO`. -/
def ext2RootIno : Int := 2

/-- What is printed in front of an inode. -/
def inodeHeading (entry : Entry) : String := "---- inode for file '" ++ entry.shownName ++ "'\n"

/-- The loop body of `print_root_directory_inodes`. -/
def printEntryInode (file : File) (superblock : Superblock) (bgDescriptor : BgDescriptor)
    (device : Device) (dirEntry : DirEntry) : Outcome Device := do
  let device := device.print [inodeHeading dirEntry.entry]
  let (inode, device) ← bufferGetInode file superblock bgDescriptor dirEntry.inode.toInt device
  let texts ← printInode inode
  return device.print (texts ++ ["\n"])

/-- `print_root_directory_inodes`, on the list in memory. -/
def EntryNodes.printRootDirectoryInodes (file : File) (superblock : Superblock)
    (bgDescriptor : BgDescriptor) (dirEntryList : EntryNodes) (device : Device) : Bounded Device :=
  dirEntryList.forEach (printEntryInode file superblock bgDescriptor) device

/-- `main`: the device with all that has been printed, and what is left of the list. -/
def main (image : Option File) : Bounded (Device × EntryNodes) := do
  let file ← bufferInit image
  let (superblock, device) ← initSuperblock file startDevice
  let superblockInfo ← SuperblockInfo.load device.buffer 1024
  let (bgDescriptor, device) ← initBgDescriptor file device
  let (rootDirectoryInode, device) ←
    bufferGetInode file superblock bgDescriptor ext2RootIno device
  let texts ← printSuperblock superblockInfo
  let device := device.print ("-- superblock info\n" :: (texts ++ ["\n"]))
  let s ← NodeWalk.populate file rootDirectoryInode device EntryNodes.initDirEntryList
  let device := s.device.print ["-- root directory entries\n"]
  let device ← s.dirEntryList.printRootDirectoryEntries device
  let device := device.print ["\n", "-- root directory inodes\n"]
  let device ← s.dirEntryList.printRootDirectoryInodes file superblock bgDescriptor device
  let dirEntryList ← s.dirEntryList.freeDirEntryList
  return (device, dirEntryList)

/-! ## The images -/

/-- The inode with this number, in the table that the descriptor points to. -/
def storedInode (image : Bytes) (bgDescriptor : BgDescriptor) (k : BitVec 32) : Outcome Inode :=
  Inode.load (image.drop (blockSize * bgDescriptor.bgInodeTable.toNat)) (k.toNat - 1)

/-- The records that are listed of the first block. -/
def listedRecords (first : Tiling) : List Record := first.records.takeWhile fun r => decide r.Used

/-- The first block of the directory can be listed: it is on the image, the copies of its records
stay inside of it, and behind a full block the image begins with an unused record. -/
structure FirstBlock (image : Bytes) (rootDirectoryInode : Inode) (first : Tiling) : Prop where
  place : ∃ blockNumber, rootDirectoryInode.iBlock 0 = .ok blockNumber ∧
    block image blockNumber.toNat = first.bytes
  fits : CopiesFit 0 (listedRecords first)
  boot : (∀ r ∈ first.records, r.Used) → loadInt (block image 0) 0 = .ok 0

/-- An image that can be printed: it has at most `2 ^ 31` bytes, inodes of 128 bytes and a block
size that is an int, its root directory starts with the block `first`, and all inodes that are
looked up are on the image. The copies of the records stay inside of the block, and behind a full
block the image begins with an unused record. -/
structure Printable (image : Bytes) (first : Tiling) : Prop where
  length_le : image.length ≤ 2 ^ 31
  descriptor : 4128 ≤ image.length
  logBlockSize : numberAt image 1048 4 < 21
  inodeSize : numberAt image 1112 2 = 128
  root : storedPlace image 2 + 128 ≤ image.length
  stored : ∀ r ∈ listedRecords first, storedPlace image r.inode.toNat + 128 ≤ image.length
  place : (image.drop (4096 * numberAt image (storedPlace image 2 + 40) 4)).take 4096 = first.bytes
  fits : CopiesFit 0 (listedRecords first)
  boot : (∀ r ∈ first.records, r.Used) → numberAt image 0 4 = 0

/-! ## Reads inside of the image -/

section Reads

variable {image : Bytes} {superblock : Superblock} {bgDescriptor : BgDescriptor}
  {device device' : Device}

/-- Where the image has a byte, no end of file is reported. -/
theorem printed_of_read {n : Nat} (hlt : n < 2 ^ 19) (himage : blockSize * n < image.length)
    (h : bufferReadBlock (.regular image) n device = .ok device') :
    device'.printed = device.printed := by
  rw [bufferReadBlock_regular (by omega) (by omega), Outcome.ok.injEq] at h
  have hcast : (blockSize : Int) * n = (blockSize * n : Nat) := (Nat.cast_mul blockSize n).symm
  have hseek : device.lseek (blockSize * n) = { device with position := blockSize * n } := by
    rw [hcast, Device.lseek, if_pos (Int.natCast_nonneg _), Int.toNat_natCast]
  have hsome : Device.available image { device with position := blockSize * n } ≠ [] := by
    rw [← List.length_pos_iff, Device.available, List.length_take, List.length_drop]
    simp only [blockSize] at himage ⊢
    omega
  rw [← h, hseek, Device.read]
  exact if_neg hsome

/-- A mounted image has the superblock and the first descriptor. -/
theorem Mounted.length_lt (h : Mounted image superblock bgDescriptor) :
    blockSize < image.length := by
  have hload := h.descriptor_eq
  obtain ⟨bytes, hload, -⟩ := Outcome.bind_eq_ok.mp hload
  rw [ByteBuffer.load] at hload
  split at hload
  · next hfits =>
      simp only [sizeofBgDescriptor] at hfits
      omega
  · cases hload

/-- **The start of the program**: superblock and descriptor are read, and nothing is printed. -/
theorem Mounted.start (h : Mounted image superblock bgDescriptor) {info : SuperblockInfo}
    (hinfo : SuperblockInfo.load image 1024 = .ok info) (device : Device) :
    ∃ device₁ device₂, initSuperblock (.regular image) device = .ok (superblock, device₁) ∧
      SuperblockInfo.load device₁.buffer 1024 = .ok info ∧
      initBgDescriptor (.regular image) device₁ = .ok (bgDescriptor, device₂) ∧
      device₂.printed = device.printed := by
  obtain ⟨device₁, device₂, hsuperblock, hdescriptor⟩ := h.init device
  have hlength := h.length_lt
  obtain ⟨device, hread, hbuffer⟩ := bufferReadBlock_of_lt image (n := 0) (by decide) device
  obtain ⟨first, hread₁, hload₁⟩ := Outcome.bind_eq_ok.mp hsuperblock
  obtain ⟨second, hread₂, hload₂⟩ := Outcome.bind_eq_ok.mp hdescriptor
  obtain ⟨_, -, hload₁⟩ := Outcome.bind_eq_ok.mp hload₁
  obtain ⟨_, -, hload₂⟩ := Outcome.bind_eq_ok.mp hload₂
  cases hload₁
  cases hload₂
  rw [Nat.cast_zero] at hread
  cases hread.symm.trans hread₁
  refine ⟨device₁, device₂, hsuperblock, ?_, hdescriptor, ?_⟩
  · obtain ⟨bytes, hload, hfields⟩ := Outcome.bind_eq_ok.mp hinfo
    rw [SuperblockInfo.load, load_of_read (n := 0) hbuffer hload (by decide)]
    exact hfields
  · have hprinted₁ := printed_of_read (n := 0) (by decide) (by omega) hread
    have hprinted₂ := printed_of_read (n := 1) (by decide) (by omega) hread₂
    exact hprinted₂.trans hprinted₁

/-- A stored inode lies in a block that can be read, in one of the slots of the block. -/
theorem place_of_stored (himage : image.length ≤ 2 ^ 31) {k : BitVec 32} {inode : Inode}
    (h : storedInode image bgDescriptor k = .ok inode) :
    ∃ n slot : Nat, (1 ≤ k.toNat ∧ k.toNat < 2 ^ 31) ∧
      bgDescriptor.bgInodeTable.toNat + (k.toNat - 1) / inodesPerBlock = n ∧ n < 2 ^ 19 ∧
      (k.toNat - 1) % inodesPerBlock = slot ∧ sizeofInode * slot + sizeofInode ≤ blockSize ∧
      blockSize * n + sizeofInode * slot + sizeofInode ≤ image.length ∧
      inode.bytes = (image.drop (blockSize * n + sizeofInode * slot)).take sizeofInode := by
  obtain ⟨hindex, hbytes⟩ := Inode.load_eq_ok.mp h
  have hslot : ((k.toNat : Int) - 1).toNat = k.toNat - 1 := by omega
  have hlength := congrArg List.length hbytes
  rw [hslot, List.drop_drop] at hbytes
  rw [inode.length_bytes, hslot, List.length_take, List.length_drop, List.length_drop] at hlength
  have hsplit := Nat.div_add_mod (k.toNat - 1) inodesPerBlock
  have hmod : (k.toNat - 1) % inodesPerBlock < inodesPerBlock := Nat.mod_lt _ (by decide)
  refine ⟨_, _, ?_, rfl, ?_, rfl, ?_, ?_, ?_⟩
  · simp only [sizeofInode, blockSize] at hlength
    omega
  · simp only [sizeofInode, blockSize, inodesPerBlock] at hlength hsplit ⊢
    omega
  · simp only [sizeofInode, blockSize, inodesPerBlock] at hmod ⊢
    omega
  · simp only [sizeofInode, blockSize, inodesPerBlock] at hlength hsplit ⊢
    omega
  · rw [hbytes]
    congr 2
    simp only [sizeofInode, blockSize, inodesPerBlock] at hsplit ⊢
    omega

/-- **The lookup of a stored inode** finds it, and prints nothing. -/
theorem lookup_stored (hsize : superblock.sInodeSize.toNat = sizeofInode)
    (himage : image.length ≤ 2 ^ 31) {k : BitVec 32} {inode : Inode}
    (h : storedInode image bgDescriptor k = .ok inode) (device : Device) :
    ∃ device', bufferGetInode (.regular image) superblock bgDescriptor k.toInt device
        = .ok (inode, device') ∧ device'.printed = device.printed := by
  obtain ⟨n, slot, ⟨hmin, hint⟩, hn, hlt, hslot, hfits, hreach, hbytes⟩ := place_of_stored himage h
  obtain ⟨device', hread, hbuffer⟩ := bufferReadBlock_of_lt image hlt device
  have hinside : blockSize * n < image.length := by
    rw [sizeofInode] at hreach
    omega
  have htoInt : k.toInt = (k.toNat : Int) := BitVec.toInt_eq_toNat_of_lt (by omega)
  refine ⟨device', ?_, printed_of_read hlt hinside hread⟩
  rw [htoInt, bufferGetInode_eq_ok_of_pos hsize.ge (inodesPerBlock_mul hsize) hmin hint,
    toInt_add_ofNat (by omega), hn, hslot]
  refine ⟨hread, ?_⟩
  rw [hbytes, hbuffer, take_overwrite_block device.buffer hreach hfits]

end Reads

/-! ## The loop over the first block -/

section Walks

variable {image : Bytes} {s s' : Walk}

theorem Walk.printed_of_round (hblock : blockSize * s.blockOffset < image.length)
    (h : s.round (.regular image) = .ok (.yield s')) : s'.device.printed = s.device.printed := by
  obtain ⟨inode, dirEntry, -, -, -, hadvance⟩ := Walk.round_eq_yield.mp h
  have hbounds := (Walk.advance_bounds hadvance).2
  simp only [Walk.advance] at hadvance
  split at hadvance
  · cases hadvance
  · split at hadvance
    · next hend =>
        obtain ⟨device, hread, hadvance⟩ := Outcome.bind_eq_ok.mp hadvance
        cases hadvance
        exact printed_of_read (hbounds hend) hblock hread
    · cases hadvance
      rfl

theorem Walk.entries_of_record {r : Record} {rest : Bytes}
    (hdrop : s.device.buffer.drop s.dirEntry = r.bytes ++ rest) (hlen : r.recLen < 2 ^ 16)
    (h : s.round (.regular image) = .ok (.yield s')) : s'.entries = s.entries ++ [r.entry] := by
  obtain ⟨inode, dirEntry, -, -, hload, hadvance⟩ := Walk.round_eq_yield.mp h
  have hfits := DirEntry.exists_load.mp ⟨dirEntry, hload⟩
  obtain ⟨dirEntry', hload', hentry, -⟩ := Record.load_record hdrop hlen hfits
  cases hload.symm.trans hload'
  rw [Walk.advance_entries hadvance, Walk.entries_append, hentry]

/-- **The rounds in the first block** gather its records up to the first unused one. Behind a full
block, the start of the image ends the loop. Nothing is printed. -/
theorem Walk.exits_first {records : List Record} (hfull : (block image 0).length = blockSize)
    (hdrop : s.device.buffer.drop s.dirEntry = records.flatMap Record.bytes)
    (hend : s.dirEntry + recLens records = blockSize)
    (hfits : CopiesFit s.dirEntry (records.takeWhile fun r => decide r.Used))
    (hboot : (∀ r ∈ records, r.Used) → loadInt (block image 0) 0 = .ok 0)
    (hblock : s.blockOffset = 0) (hoffset : s.dirEntryOffset + recLens records < 2 ^ 31) :
    ∃ t, Loop.Exits (Walk.round (.regular image)) s t ∧
      t.entries = s.entries ++ (records.takeWhile fun r => decide r.Used).map Record.entry ∧
      t.device.printed = s.device.printed := by
  induction records generalizing s with
  | nil =>
      have hlt : s.dirEntry < blockSize := Nat.mod_lt _ (by decide)
      rw [recLens_nil] at hend
      omega
  | cons r records ih =>
      rw [List.flatMap_cons] at hdrop
      rw [recLens_cons] at hend hoffset
      have hlen : r.recLen < 2 ^ 16 := by
        simp only [blockSize] at hend
        omega
      have himage : blockSize * s.blockOffset < image.length := by
        rw [block, List.length_take, List.length_drop] at hfull
        simp only [blockSize, hblock] at hfull ⊢
        omega
      by_cases hused : r.Used
      · rw [List.takeWhile_cons_of_pos (by simpa using hused)] at hfits ⊢
        obtain ⟨hfirst, hrest⟩ := copiesFit_cons.mp hfits
        cases records with
        | nil =>
            rw [recLens_nil, Nat.add_zero] at hend
            obtain ⟨s', hyield, hbuffer, hplace, -⟩ := Walk.round_last hdrop hused hfirst hend
              (by omega) (by omega) (by rw [hblock]; exact hfull)
            have hzero : loadInt s'.device.buffer s'.dirEntry = .ok 0 := by
              rw [hbuffer, hplace, hblock]
              exact hboot (by simpa using hused)
            have hdone : Loop.Exits (Walk.round (.regular image)) s' s' :=
              Loop.exits_iff.mpr (.inl (Walk.round_eq_done.mpr ⟨hzero, rfl⟩))
            refine ⟨s', Loop.exits_iff.mpr (.inr ⟨s', hyield, hdone⟩), ?_,
              Walk.printed_of_round himage hyield⟩
            rw [Walk.entries_of_record hdrop hlen hyield]
            rfl
        | cons next records =>
            have hnext := next.recLen_pos
            have hsum := recLens_cons next records
            obtain ⟨s', hyield, hdrop', -, hblock', hplace, hoffset'⟩ :=
              Walk.round_inside image hdrop hused hfirst (by omega) (by omega)
            obtain ⟨t, hexits, hentries, hprinted⟩ := ih hdrop' (by omega) (hplace ▸ hrest)
              (fun h => hboot (List.forall_mem_cons.mpr ⟨hused, h⟩)) (hblock'.trans hblock)
              (by omega)
            refine ⟨t, Loop.exits_iff.mpr (.inr ⟨s', hyield, hexits⟩), ?_,
              hprinted.trans (Walk.printed_of_round himage hyield)⟩
            rw [hentries, Walk.entries_of_record hdrop hlen hyield, List.append_assoc]
            rfl
      · have hinode := Record.loadInt_record hdrop
        rw [not_not.mp hused] at hinode
        rw [List.takeWhile_cons_of_neg (by simpa using hused), List.map_nil, List.append_nil]
        exact ⟨s, Loop.exits_iff.mpr (.inl (Walk.round_eq_done.mpr ⟨hinode, rfl⟩)), rfl, rfl⟩

/-- **Populating the list** from the first block, in any state of the device. -/
theorem FirstBlock.populate {rootDirectoryInode : Inode} {first : Tiling}
    (h : FirstBlock image rootDirectoryInode first) (himage : image.length ≤ 2 ^ 31)
    (device : Device) :
    ∃ (t : NodeWalk) (dirEntries : List DirEntry),
      (NodeWalk.populate (.regular image) rootDirectoryInode device
        EntryNodes.initDirEntryList).Returns t ∧
      t.dirEntryList.Holds dirEntries ∧
      dirEntries.map DirEntry.entry = (listedRecords first).map Record.entry ∧
      t.device.printed = device.printed := by
  obtain ⟨blockNumber, hblock, hbytes⟩ := h.place
  have hfull : (block image blockNumber.toNat).length = blockSize := by
    rw [hbytes, first.length_bytes]
  have hinside : blockSize * blockNumber.toNat + blockSize ≤ image.length := by
    rw [block, List.length_take, List.length_drop] at hfull
    simp only [blockSize] at hfull ⊢
    omega
  simp only [blockSize] at hinside
  have hlt : blockNumber.toNat < 2 ^ 19 := by omega
  have htoInt : blockNumber.toInt = blockNumber.toNat := BitVec.toInt_eq_toNat_of_lt (by omega)
  obtain ⟨device', hread, hbuffer⟩ := bufferReadBlock_of_lt image hlt device
  have hprinted := printed_of_read hlt (by simp only [blockSize]; omega) hread
  rw [hbytes, overwrite_of_length (first.length_bytes.trans device.length_buffer.symm)] at hbuffer
  rw [← htoInt] at hread
  have hdrop : device'.buffer.drop 0 = first.records.flatMap Record.bytes := hbuffer
  have hroom : 0 + recLens first.records < 2 ^ 31 := by
    rw [first.total]
    decide
  obtain ⟨t, hexits, hentries, hprinted'⟩ :=
    Walk.exits_first (s := ⟨device', 0, 0, initDirEntryList⟩) (length_block_zero hfull) hdrop
      ((Nat.zero_add _).trans first.total) h.fits h.boot rfl hroom
  obtain ⟨t', hreturns, hmatches⟩ := returns_populate hblock hread hexits
  refine ⟨t', t.dirEntryList, hreturns, hmatches.holds, hentries, ?_⟩
  rw [hmatches.device, hprinted']
  exact hprinted

end Walks

/-! ## The loop that prints the inodes -/

/-- What the loop prints of the entries and the inodes that it has looked up for them. The warnings
of a lookup come behind the heading. -/
inductive Prints : List (DirEntry × Inode) → List String → List String → Prop
  | nil : Prints [] [] []
  | cons {node : DirEntry} {inode : Inode} {shown : List (DirEntry × Inode)}
      {warnings texts rest : List String} (warning : List String)
      (htexts : printInode inode = .ok texts) (hrest : Prints shown warnings rest) :
      Prints ((node, inode) :: shown) (warning ++ warnings)
        (inodeHeading node.entry :: (warning ++ texts ++ ["\n"]) ++ rest)

section Prints

variable {file : File} {superblock : Superblock} {bgDescriptor : BgDescriptor}
  {device device' : Device}

/-- What has been printed before does not matter to a read. -/
theorem read_printed (image : Bytes) (device : Device) : ∃ warning,
    (device.read image).printed = device.printed ++ warning ∧ ∀ before,
      Device.read image { device with printed := before }
        = { device.read image with printed := before ++ warning } := by
  have havailable : ∀ before, Device.available image { device with printed := before }
      = device.available image := fun _ => rfl
  by_cases hend : device.available image = []
  · exact ⟨["warning: EOF\n"], if_pos hend, fun before => by
      simp only [Device.read, havailable, hend, if_true]⟩
  · exact ⟨[], by rw [List.append_nil]; exact if_neg hend, fun before => by
      simp only [Device.read, havailable, hend, if_false, List.append_nil]⟩

theorem bufferReadBlock_printed {blockNumber : Int}
    (h : bufferReadBlock file blockNumber device = .ok device') : ∃ warning,
    device'.printed = device.printed ++ warning ∧ ∀ before,
      bufferReadBlock file blockNumber { device with printed := before }
        = .ok { device' with printed := before ++ warning } := by
  simp only [bufferReadBlock] at h ⊢
  split at h
  · next hrange =>
      cases file with
      | unreadable => cases h
      | regular image =>
          cases h
          obtain ⟨warning, hprinted, hread⟩ :=
            read_printed image (device.lseek (blockSize * blockNumber))
          refine ⟨warning, ?_, fun before => ?_⟩
          · rw [hprinted, Device.lseek]
            split <;> rfl
          · rw [if_pos hrange, ← hread]
            simp only [Device.lseek]
            split <;> rfl
  · cases h

/-- Nor to a lookup. -/
theorem bufferGetInode_printed {inodeIndex : Int} {inode : Inode}
    (h : bufferGetInode file superblock bgDescriptor inodeIndex device = .ok (inode, device')) :
    ∃ warning, device'.printed = device.printed ++ warning ∧ ∀ before,
      bufferGetInode file superblock bgDescriptor inodeIndex { device with printed := before }
        = .ok (inode, { device' with printed := before ++ warning }) := by
  obtain ⟨inodesPerBlock, hdiv, h⟩ := Outcome.bind_eq_ok.mp h
  obtain ⟨index, hindex, h⟩ := Outcome.bind_eq_ok.mp h
  obtain ⟨blockNumber, hblock, h⟩ := Outcome.bind_eq_ok.mp h
  obtain ⟨device₁, hread, h⟩ := Outcome.bind_eq_ok.mp h
  obtain ⟨warning, hprinted, hread'⟩ := bufferReadBlock_printed hread
  split at h
  · cases h
  · next hsize =>
      obtain ⟨inode', hload, h⟩ := Outcome.bind_eq_ok.mp h
      cases h
      refine ⟨warning, hprinted, fun before => ?_⟩
      rw [bufferGetInode, hdiv, Outcome.ok_bind, hindex, Outcome.ok_bind, hblock, Outcome.ok_bind,
        hread', Outcome.ok_bind, if_neg hsize]
      simp only [hload, Outcome.ok_bind]
      rfl

/-- **The loop that prints** looks up the same inodes as the one over the entries, and prints
them. -/
theorem foldlM_printEntryInode {dirEntries : List DirEntry} {shown : List (DirEntry × Inode)}
    (h : Ext2.printRootDirectoryInodes file superblock bgDescriptor dirEntries device
      = .ok (shown, device')) :
    ∃ warnings texts, device'.printed = device.printed ++ warnings ∧ Prints shown warnings texts ∧
      ∀ before, dirEntries.foldlM (printEntryInode file superblock bgDescriptor)
        { device with printed := before } = .ok { device' with printed := before ++ texts } := by
  induction dirEntries generalizing device shown with
  | nil =>
      cases h
      exact ⟨[], [], (List.append_nil _).symm, .nil, fun before => by rw [List.append_nil]; rfl⟩
  | cons node next ih =>
      obtain ⟨⟨inode, device₁⟩, hget, h⟩ := Outcome.bind_eq_ok.mp h
      obtain ⟨⟨rest, device₂⟩, hrest, h⟩ := Outcome.bind_eq_ok.mp h
      cases h
      obtain ⟨texts, htexts⟩ := exists_printInode inode
      obtain ⟨warning, hprinted, hget'⟩ := bufferGetInode_printed hget
      obtain ⟨warnings, others, hprinted', hprints, hfold⟩ := ih hrest
      refine ⟨_, _, ?_, .cons warning htexts hprints, fun before => ?_⟩
      · rw [hprinted', hprinted, List.append_assoc]
      · have hbody : printEntryInode file superblock bgDescriptor { device with printed := before }
            node = .ok { device₁ with
              printed := before ++ [inodeHeading node.entry] ++ warning ++ (texts ++ ["\n"]) } := by
          simp only [printEntryInode, Device.print, hget', htexts, Outcome.ok_bind, Outcome.pure_eq]
        rw [List.foldlM_cons, hbody, Outcome.ok_bind, hfold]
        simp only [List.append_assoc, List.cons_append, List.nil_append]

theorem returns_printRootDirectoryInodes {list : EntryNodes} {dirEntries : List DirEntry}
    {shown : List (DirEntry × Inode)} (hholds : list.Holds dirEntries)
    (h : Ext2.printRootDirectoryInodes file superblock bgDescriptor dirEntries device
      = .ok (shown, device')) :
    ∃ warnings texts device'', device'.printed = device.printed ++ warnings ∧
      Prints shown warnings texts ∧ device''.printed = device.printed ++ texts ∧
      (list.printRootDirectoryInodes file superblock bgDescriptor device).Returns device'' := by
  obtain ⟨warnings, texts, hprinted, hprints, hfold⟩ := foldlM_printEntryInode h
  exact ⟨warnings, texts, _, hprinted, hprints, rfl, returns_forEach hholds (hfold device.printed)⟩

end Prints

/-! ## The whole program -/

section Program

variable {image : Bytes} {superblock : Superblock} {bgDescriptor : BgDescriptor}
  {dirEntries : List DirEntry} {listed : List Record}

/-- An entry, and the inode that is stored under its number. -/
def Stored (image : Bytes) (bgDescriptor : BgDescriptor) (dirEntry : DirEntry)
    (shown : DirEntry × Inode) : Prop :=
  shown.1 = dirEntry ∧ storedInode image bgDescriptor dirEntry.inode = .ok shown.2

/-- **The lookups** of stored inodes find them one after the other, and print nothing. -/
theorem lookups_stored (hsize : superblock.sInodeSize.toNat = sizeofInode)
    (himage : image.length ≤ 2 ^ 31)
    (hstored : ∀ dirEntry ∈ dirEntries, ∃ inode,
      storedInode image bgDescriptor dirEntry.inode = .ok inode) (device : Device) :
    ∃ shown device', Ext2.printRootDirectoryInodes (.regular image) superblock bgDescriptor
        dirEntries device = .ok (shown, device') ∧ device'.printed = device.printed ∧
      List.Forall₂ (Stored image bgDescriptor) dirEntries shown := by
  induction dirEntries generalizing device with
  | nil => exact ⟨[], device, rfl, rfl, .nil⟩
  | cons node next ih =>
      obtain ⟨⟨inode, hinode⟩, hrest⟩ := List.forall_mem_cons.mp hstored
      obtain ⟨device₁, hget, hprinted⟩ := lookup_stored hsize himage hinode device
      obtain ⟨shown, device', hshown, hprinted', hforall⟩ := ih hrest device₁
      refine ⟨(node, inode) :: shown, device', ?_, hprinted'.trans hprinted,
        .cons ⟨rfl, hinode⟩ hforall⟩
      rw [Ext2.printRootDirectoryInodes, hget, Outcome.ok_bind]
      simp only [hshown, Outcome.ok_bind]
      rfl

/-- An inode of the table is stored where it is on the image. -/
theorem storedInode_eq {k : BitVec 32} (hmin : 1 ≤ k.toNat)
    (himage : storedPlace image k.toNat + 128 ≤ image.length) :
    ∃ inode, storedInode image ⟨BitVec.ofNat 32 (numberAt image 4104 intSize)⟩ k = .ok inode ∧
      inode.bytes = (image.drop (storedPlace image k.toNat)).take 128 := by
  have hlength : ((image.drop (storedPlace image k.toNat)).take 128).length = 128 := by
    rw [List.length_take, List.length_drop]
    omega
  refine ⟨⟨_, hlength⟩, Inode.load_eq_ok.mpr ⟨by omega, ?_⟩, rfl⟩
  have hslot : ((k.toNat : Int) - 1).toNat = k.toNat - 1 := by omega
  rw [hslot, List.drop_drop, toNat_numberAt]
  rfl

/-- What is printed of an entry and its stored inode. -/
theorem entryReport_of_stored {dirEntry : DirEntry} {r : Record} {inode : Inode}
    {texts : List String} (hentry : dirEntry.entry = r.entry) (hused : r.Used)
    (hplace : storedPlace image r.inode.toNat + 128 ≤ image.length)
    (hstored : storedInode image ⟨BitVec.ofNat 32 (numberAt image 4104 intSize)⟩ dirEntry.inode
      = .ok inode) (htexts : printInode inode = .ok texts) :
    EntryReport image r (inodeHeading dirEntry.entry :: (texts ++ ["\n"])) := by
  have hnode : dirEntry.inode = r.inode := congrArg Entry.inode hentry
  rw [hnode] at hstored
  obtain ⟨inode', hstored', hbytes⟩ := storedInode_eq (Record.inode_pos hused) hplace
  obtain rfl : inode' = inode := Outcome.ok.inj (hstored'.symm.trans hstored)
  obtain ⟨texts', htexts', hreport⟩ := printInode_eq hplace hbytes
  obtain rfl : texts' = texts := Outcome.ok.inj (htexts'.symm.trans htexts)
  have hheading : inodeHeading dirEntry.entry
      = "---- inode for file '" ++ nameText r.name ++ "'\n" :=
    congrArg (fun name => "---- inode for file '" ++ name ++ "'\n") (shownName_eq hentry)
  exact ⟨texts', hreport, congrArg (· :: (texts' ++ ["\n"])) hheading⟩

/-- What is printed of stored inodes, without a warning. -/
theorem Prints.report {shown : List (DirEntry × Inode)} {warnings texts : List String}
    (hprints : Prints shown warnings texts) (hquiet : warnings = [])
    (hentries : List.Forall₂ (fun dirEntry r => DirEntry.entry dirEntry = Record.entry r)
      dirEntries listed)
    (hstored : List.Forall₂
      (Stored image ⟨BitVec.ofNat 32 (numberAt image 4104 intSize)⟩) dirEntries shown)
    (himage : ∀ r ∈ listed, r.Used ∧ storedPlace image r.inode.toNat + 128 ≤ image.length) :
    ∃ inodes, List.Forall₂ (EntryReport image) listed inodes ∧ texts = inodes.flatten := by
  induction hprints generalizing dirEntries listed with
  | nil =>
      cases hstored
      cases hentries
      exact ⟨[], .nil, rfl⟩
  | @cons node inode shown warnings texts rest warning htexts _ ih =>
      obtain ⟨rfl, rfl⟩ := List.append_eq_nil_iff.mp hquiet
      rcases hstored with _ | ⟨⟨rfl, hinode⟩, hstored⟩
      rcases hentries with _ | ⟨hentry, hentries⟩
      obtain ⟨⟨hused, hplace⟩, himage⟩ := List.forall_mem_cons.mp himage
      obtain ⟨inodes, hforall, rfl⟩ := ih rfl hentries hstored himage
      exact ⟨_, .cons (entryReport_of_stored hentry hused hplace hinode htexts) hforall, rfl⟩

/-- What the program reads at its start. -/
theorem Printable.mounted {first : Tiling} (h : Printable image first) :
    ∃ superblock, Mounted image superblock
      ⟨BitVec.ofNat 32 (numberAt image 4104 intSize)⟩ := by
  have hlength := h.descriptor
  have himage : 1024 + sizeofSuperblock ≤ image.length := by
    simp only [sizeofSuperblock]
    omega
  have hsuperblock : ByteBuffer.load image 1024 sizeofSuperblock
      = .ok ((image.drop 1024).take sizeofSuperblock) := if_pos himage
  have hint : ∀ off, off + intSize ≤ sizeofSuperblock → loadInt
      ((image.drop 1024).take sizeofSuperblock) off
        = .ok (BitVec.ofNat 32 (numberAt image (1024 + off) intSize)) :=
    fun off hoff => loadInt_part himage hoff
  have hsize : loadShort ((image.drop 1024).take sizeofSuperblock) 88
      = .ok (BitVec.ofNat 16 (numberAt image 1112 2)) := loadShort_part himage (by decide)
  refine ⟨⟨BitVec.ofNat 32 (numberAt image 1024 intSize),
    BitVec.ofNat 32 (numberAt image 1064 intSize), BitVec.ofNat 16 (numberAt image 1112 2)⟩,
    ?_, ?_, ?_⟩
  · rw [Superblock.load, hsuperblock, Outcome.ok_bind, hint 0 (by decide), Outcome.ok_bind,
      hint 40 (by decide), Outcome.ok_bind, hsize, Outcome.ok_bind]
    rfl
  · have hdescriptor : ByteBuffer.load image blockSize sizeofBgDescriptor
        = .ok ((image.drop blockSize).take sizeofBgDescriptor) := if_pos hlength
    have htable : loadInt ((image.drop blockSize).take sizeofBgDescriptor) 8
        = .ok (BitVec.ofNat 32 (numberAt image 4104 intSize)) := loadInt_part hlength (by decide)
    rw [groupDescriptor, Nat.mul_zero, Nat.add_zero, BgDescriptor.load, hdescriptor,
      Outcome.ok_bind, htable]
    rfl
  · rw [toNat_numberAt_short]
    exact h.inodeSize

/-- The root directory, and its first block. -/
theorem Printable.firstBlock {first : Tiling} (h : Printable image first) :
    ∃ rootDirectoryInode,
      storedInode image ⟨BitVec.ofNat 32 (numberAt image 4104 intSize)⟩ 2
        = .ok rootDirectoryInode ∧ FirstBlock image rootDirectoryInode first := by
  obtain ⟨inode, hstored, hbytes⟩ := storedInode_eq (k := 2) (by decide) h.root
  have hblock : inode.iBlock 0
      = .ok (BitVec.ofNat 32 (numberAt image (storedPlace image 2 + 40) intSize)) := by
    rw [Inode.iBlock, if_pos (by decide), hbytes]
    exact loadInt_part h.root (by decide)
  refine ⟨inode, hstored, ⟨_, hblock, ?_⟩, h.fits, fun hused => ?_⟩
  · rw [toNat_numberAt]
    exact h.place
  · have hfirst : 0 + blockSize ≤ image.length := by
      have hlength := h.descriptor
      simp only [blockSize]
      omega
    have hload : loadInt (block image 0) 0
        = .ok (BitVec.ofNat 32 (numberAt image 0 4)) := loadInt_part hfirst (by decide)
    rw [hload, h.boot hused]
    rfl

end Program

/-- **The program prints what the image says**, from the superblock to the last inode, and frees all
of its list. -/
theorem main_prints_report (image : Bytes) (first : Tiling) (h : Printable image first) :
    ∃ device list, (main (some (.regular image))).Returns (device, list) ∧
      Report image (listedRecords first) device.printed ∧ list.Nothing := by
  obtain ⟨superblock, hmounted⟩ := h.mounted
  obtain ⟨rootDirectoryInode, hroot, hfirst⟩ := h.firstBlock
  obtain ⟨info, hinfo, hsuper⟩ :=
    printSuperblock_eq (le_trans (by decide) h.descriptor) h.logBlockSize
  -- the start, and the inode of the root directory
  obtain ⟨device₁, device₂, hsuperblock, hload, hdescriptor, hprinted₂⟩ :=
    hmounted.start hinfo startDevice
  obtain ⟨device₃, hget, hprinted₃⟩ := lookup_stored hmounted.inodeSize h.length_le hroot device₂
  obtain ⟨t, dirEntries, hpopulate, hholds, hlisted, hprinted₄⟩ := hfirst.populate h.length_le
    (device₃.print ("-- superblock info\n" :: (superblockReport image ++ ["\n"])))
  -- the list is printed twice, and freed
  have hnames := returns_forEach hholds
    (foldlM_print printDirEntry (t.device.print ["-- root directory entries\n"]))
  have hentries : List.Forall₂ (· = ·) (dirEntries.map DirEntry.entry)
      ((listedRecords first).map Record.entry) := by
    rw [List.forall₂_eq_eq_eq]
    exact hlisted
  rw [List.forall₂_map_left_iff, List.forall₂_map_right_iff] at hentries
  have himage : ∀ r ∈ listedRecords first,
      r.Used ∧ storedPlace image r.inode.toNat + 128 ≤ image.length := fun r hr =>
    ⟨by simpa using List.mem_takeWhile_imp hr, h.stored r hr⟩
  have hstored : ∀ dirEntry ∈ dirEntries, ∃ inode, storedInode image
      ⟨BitVec.ofNat 32 (numberAt image 4104 intSize)⟩ dirEntry.inode = .ok inode := by
    intro dirEntry hmem
    obtain ⟨r, hr, hentry⟩ := List.mem_map.mp (hlisted ▸ List.mem_map_of_mem hmem)
    obtain ⟨inode, hinode, -⟩ := storedInode_eq (Record.inode_pos (himage r hr).1) (himage r hr).2
    have hnode : r.inode = dirEntry.inode := congrArg Entry.inode hentry
    rw [← hnode]
    exact ⟨inode, hinode⟩
  obtain ⟨shown, device₄, hshown, hquiet, hforall⟩ := lookups_stored hmounted.inodeSize h.length_le
    hstored (((t.device.print ["-- root directory entries\n"]).print
      (dirEntries.flatMap printDirEntry)).print ["\n", "-- root directory inodes\n"])
  obtain ⟨warnings, texts, device, hwarnings, hprints, hprinted, hinodes⟩ :=
    returns_printRootDirectoryInodes hholds hshown
  obtain ⟨inodes, hreport, rfl⟩ := hprints.report
    (List.self_eq_append_right.mp (hquiet.symm.trans hwarnings)) hentries hforall himage
  obtain ⟨list, hfree, hnothing⟩ := returns_freeDirEntryList hholds
  refine ⟨device, list, ?_, ⟨inodes, hreport, ?_⟩, hnothing⟩
  · have hinit : bufferInit (some (.regular image)) = .ok (.regular image) := rfl
    exact (Bounded.returns_lift hinit).bind <| (Bounded.returns_lift hsuperblock).bind <|
      (Bounded.returns_lift hload).bind <| (Bounded.returns_lift hdescriptor).bind <|
      (Bounded.returns_lift hget).bind <| (Bounded.returns_lift hsuper).bind <|
      hpopulate.bind <| hnames.bind <| hinodes.bind <|
      hfree.bind <| Bounded.returns_pure _
  · have hstart : device₃.printed = [] := hprinted₃.trans hprinted₂
    rw [Device.printed_print, hstart, List.nil_append] at hprinted₄
    rw [hprinted]
    simp only [Device.printed_print, hprinted₄, flatMap_printDirEntry_of_entries hentries]
    simp only [List.append_assoc, List.cons_append, List.nil_append]

/-! ## A small image -/

section Small

/-- Block by block. -/
theorem smallImage_eq (root : Inode) (directory : List Tiling) : smallImage root directory =
    padded (List.replicate 1024 0 ++ smallSuperblock) ++
      (padded (([2, 3, 4] : List (BitVec 32)).flatMap intBytes) ++ (padded [0x7f] ++
        (padded [0xff, 0x07] ++ (padded (List.replicate 128 0 ++ root.bytes) ++
          (directory.map Tiling.bytes).flatten)))) := rfl

theorem length_padded_superblock :
    (padded (List.replicate 1024 0 ++ smallSuperblock)).length = blockSize := by
  apply length_padded
  rw [List.length_append, List.length_replicate]
  decide

theorem length_smallImage (root : Inode) (tiling : Tiling) :
    (smallImage root [tiling]).length = 6 * blockSize := by
  have hroot : (List.replicate 128 0 ++ root.bytes).length ≤ blockSize := by
    rw [List.length_append, List.length_replicate, root.length_bytes]
    decide
  have hdirectory : (([tiling].map Tiling.bytes).flatten).length = blockSize := by simp
  rw [smallImage_eq]
  simp only [List.length_append, length_padded hroot, length_padded_superblock, hdirectory]
  rw [length_padded (by decide), length_padded (by decide), length_padded (by decide)]
  rfl

theorem superblock_smallImage (root : Inode) (directory : List Tiling) : ∃ rest,
    (smallImage root directory).drop 1024 = smallSuperblock ++ rest := by
  rw [smallImage_eq, padded, List.append_assoc, List.append_assoc,
    List.drop_left' List.length_replicate]
  exact ⟨_, rfl⟩

theorem descriptor_smallImage (root : Inode) (directory : List Tiling) : ∃ rest,
    (smallImage root directory).drop blockSize
      = ([2, 3, 4] : List (BitVec 32)).flatMap intBytes ++ (List.replicate 4084 0 ++ rest) := by
  rw [smallImage_eq, List.drop_left' length_padded_superblock, padded, List.append_assoc]
  exact ⟨_, rfl⟩

/-- The root directory has the second inode of the table. -/
theorem table_smallImage (root : Inode) (directory : List Tiling) : ∃ rest,
    (smallImage root directory).drop (blockSize * 4)
      = List.replicate 128 0 ++ (root.bytes ++ rest) := by
  have hfour : blockSize * 4 = blockSize + (blockSize + (blockSize + blockSize)) := rfl
  have hdescriptor : (padded (([2, 3, 4] : List (BitVec 32)).flatMap intBytes)).length
      = blockSize := length_padded (by decide)
  have hblocks : (padded [0x7f]).length = blockSize := length_padded (by decide)
  have hinodes : (padded [0xff, 0x07]).length = blockSize := length_padded (by decide)
  rw [smallImage_eq, hfour, ← List.drop_drop, List.drop_left' length_padded_superblock,
    ← List.drop_drop, List.drop_left' hdescriptor, ← List.drop_drop, List.drop_left' hblocks,
    List.drop_left' hinodes, padded, List.append_assoc, List.append_assoc]
  exact ⟨_, rfl⟩

theorem storedPlace_smallImage (root : Inode) (directory : List Tiling) (k : Nat) :
    storedPlace (smallImage root directory) k = 4096 * 4 + 128 * (k - 1) := by
  obtain ⟨rest, hdrop⟩ := descriptor_smallImage root directory
  have htable : numberAt (smallImage root directory) (blockSize + 8) 4 = 4 := by
    rw [numberAt_add, hdrop]
    rfl
  rw [storedPlace]
  exact congrArg (4096 * · + 128 * (k - 1)) htable

theorem listedRecords_dots : listedRecords dots = dots.records :=
  List.takeWhile_eq_self_iff.mpr (by decide)

theorem printable_smallImage : Printable (smallImage (rootInode 4096) [dots]) dots := by
  have hlength := length_smallImage (rootInode 4096) dots
  obtain ⟨superblock, hsuperblock⟩ := superblock_smallImage (rootInode 4096) [dots]
  obtain ⟨table, htable⟩ := table_smallImage (rootInode 4096) [dots]
  have hfirst : [dots][0]? = some dots := rfl
  have hroot : numberAt (smallImage (rootInode 4096) [dots]) (blockSize * 4 + 168) 4 = 5 := by
    rw [numberAt_add, htable]
    rfl
  have hinodes : ∀ r ∈ dots.records, r.inode.toNat = 2 := by decide
  simp only [blockSize] at hlength
  refine ⟨by omega, by omega, ?_, ?_, ?_, fun r hr => ?_, ?_, ?_, fun _ => rfl⟩
  · have hsize : numberAt (smallImage (rootInode 4096) [dots]) (1024 + 24) 4 = 2 := by
      rw [numberAt_add, hsuperblock]
      rfl
    exact hsize.trans_lt (by decide)
  · have hsize : numberAt (smallImage (rootInode 4096) [dots]) (1024 + 88) 2 = 128 := by
      rw [numberAt_add, hsuperblock]
      rfl
    exact hsize
  · rw [storedPlace_smallImage]
    omega
  · rw [listedRecords_dots] at hr
    rw [storedPlace_smallImage, hinodes r hr]
    omega
  · have hplace : 4096 * 4 + 128 * (2 - 1) + 40 = blockSize * 4 + 168 := rfl
    have hblock := block_smallImage (rootInode 4096) hfirst
    rw [block] at hblock
    rw [storedPlace_smallImage, hplace, hroot]
    exact hblock
  · rw [listedRecords_dots]
    exact copiesFit_dots

end Small

/-- An image with an empty root directory. -/
theorem main_prints_report_dots : ∃ device list,
    (main (some (.regular (smallImage (rootInode 4096) [dots])))).Returns (device, list) ∧
      Report (smallImage (rootInode 4096) [dots]) (listedRecords dots) device.printed ∧
      list.Nothing :=
  main_prints_report _ dots printable_smallImage

end Cs342.Ext2
