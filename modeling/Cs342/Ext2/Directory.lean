import Mathlib
import Cs342.Library.Loop
import Cs342.Ext2.DirEntry

/-!
# Listing the root directory (`populate_dir_entry_list`)

The loop follows the record lengths, starting in the first block of the directory. Where they lead
to the end of a block it reads another one, and which one is decided by `block_offset` alone: blocks
0, 1, 2 and so on of the image. `ReadsAs` says what lies along this way in terms of bytes only, and
the loop gathers exactly that (`appends_iff`).
-/

namespace Cs342.Ext2

open ByteBuffer Loop

/-! ## The inode -/

/-- `struct ext2_inode_t` in memory. -/
structure Inode where
  bytes : Bytes
  length_bytes : bytes.length = 128

/-- `inode->i_size`. -/
def Inode.iSize (inode : Inode) : Outcome (BitVec 32) := loadInt inode.bytes 4

/-- `inode->i_block[i]`, for the fifteen of them. -/
def Inode.iBlock (inode : Inode) (i : Nat) : Outcome (BitVec 32) :=
  if i < 15 then loadInt inode.bytes (40 + 4 * i) else .undefined

/-! ## The loop -/

/-- The variables of `populate_dir_entry_list`, and the globals it works on. -/
structure Walk where
  device : Device
  blockOffset : Nat
  dirEntryOffset : Nat
  dirEntryList : List DirEntry

namespace Walk

/-- `dir_entry`, as an index of `buffer`. -/
def dirEntry (s : Walk) : Nat := s.dirEntryOffset % blockSize

/-- What the list holds so far. -/
def entries (s : Walk) : List Entry := s.dirEntryList.map DirEntry.entry

/-- The end of the loop body: on to the next record, and at a block boundary to the next block. -/
def advance (file : File) (recLen : Nat) (s : Walk) : Outcome Walk :=
  let dirEntryOffset := s.dirEntryOffset + recLen
  if 2 ^ 31 ≤ dirEntryOffset then .undefined
  else if dirEntryOffset % blockSize = 0 then do
    let device ← bufferReadBlock file s.blockOffset s.device
    return { s with device, blockOffset := s.blockOffset + 1, dirEntryOffset }
  else return { s with dirEntryOffset }

/-- `while (dir_entry->inode)`. -/
def round (file : File) (s : Walk) : Outcome (ForInStep Walk) := do
  let inode ← loadInt s.device.buffer s.dirEntry
  if inode = 0 then return .done s
  let copyDirEntry ← DirEntry.load s.device.buffer s.dirEntry
  let s := { s with dirEntryList := appendDirEntryList copyDirEntry s.dirEntryList }
  let s ← s.advance file copyDirEntry.recLen.toNat
  return .yield s

end Walk

/-- The parameter of `buffer_read_block` is an int, `i_block[0]` is not. -/
def populateDirEntryList (file : File) (rootDirectoryInode : Inode) (device : Device)
    (dirEntryList : List DirEntry) (fuel : Nat) : Outcome (Option Walk) := do
  let iBlock ← rootDirectoryInode.iBlock 0
  let device ← bufferReadBlock file iBlock.toInt device
  run (Walk.round file) fuel { device, blockOffset := 0, dirEntryOffset := 0, dirEntryList }

/-- `populate_dir_entry_list` returns, and the list it has built holds these entries. -/
def Lists (file : File) (rootDirectoryInode : Inode) (device : Device) (entries : List Entry) :
    Prop :=
  ∃ fuel s, populateDirEntryList file rootDirectoryInode device initDirEntryList fuel
    = .ok (some s) ∧ s.entries = entries

/-! ## What one round does -/

namespace Walk

variable {file : File} {s s' : Walk}

theorem entries_append (dirEntry : DirEntry) (s : Walk) :
    entries { s with dirEntryList := appendDirEntryList dirEntry s.dirEntryList }
      = s.entries ++ [dirEntry.entry] := by
  simp only [entries, appendDirEntryList_eq, List.map_append, List.map_cons, List.map_nil]

theorem advance_entries {recLen : Nat} (h : s.advance file recLen = .ok s') :
    s'.entries = s.entries := by
  simp only [advance] at h
  split at h
  · cases h
  · split at h
    · obtain ⟨device, -, h⟩ := Outcome.bind_eq_ok.mp h
      cases h
      rfl
    · cases h
      rfl

/-- The loop is left at a record with inode number 0, and unchanged. -/
theorem round_eq_done :
    s.round file = .ok (.done s') ↔ loadInt s.device.buffer s.dirEntry = .ok 0 ∧ s' = s := by
  constructor
  · intro h
    obtain ⟨inode, hload, h⟩ := Outcome.bind_eq_ok.mp h
    split at h
    · next hzero =>
        cases h
        exact ⟨hzero ▸ hload, rfl⟩
    · obtain ⟨dirEntry, -, h⟩ := Outcome.bind_eq_ok.mp h
      obtain ⟨s'', -, h⟩ := Outcome.bind_eq_ok.mp h
      cases h
  · rintro ⟨hload, rfl⟩
    rw [round, hload, Outcome.ok_bind, if_pos rfl]
    rfl

/-- Any other round appends a copy of the record. -/
theorem round_eq_yield :
    s.round file = .ok (.yield s') ↔
      ∃ inode dirEntry, loadInt s.device.buffer s.dirEntry = .ok inode ∧ inode ≠ 0 ∧
        DirEntry.load s.device.buffer s.dirEntry = .ok dirEntry ∧
        { s with dirEntryList := appendDirEntryList dirEntry s.dirEntryList }.advance file
          dirEntry.recLen.toNat = .ok s' := by
  constructor
  · intro h
    obtain ⟨inode, hinode, h⟩ := Outcome.bind_eq_ok.mp h
    split at h
    · cases h
    · next hne =>
        obtain ⟨dirEntry, hload, h⟩ := Outcome.bind_eq_ok.mp h
        obtain ⟨s'', hadvance, h⟩ := Outcome.bind_eq_ok.mp h
        cases h
        exact ⟨inode, dirEntry, hinode, hne, hload, hadvance⟩
  · rintro ⟨inode, dirEntry, hinode, hne, hload, hadvance⟩
    rw [round, hinode, Outcome.ok_bind, if_neg hne, hload, Outcome.ok_bind]
    show (advance file _ _ >>= _) = _
    rw [hadvance]
    rfl

theorem entries_of_done (s s' : Walk) (h : s.round file = .ok (.done s')) :
    s'.entries = s.entries := by
  rw [(round_eq_done.mp h).2]

theorem entries_of_yield (s s' : Walk) (h : s.round file = .ok (.yield s')) :
    ∃ entry, s'.entries = s.entries ++ [entry] := by
  obtain ⟨inode, dirEntry, -, -, -, hadvance⟩ := round_eq_yield.mp h
  exact ⟨dirEntry.entry, (advance_entries hadvance).trans (entries_append dirEntry s)⟩

end Walk

/-! ## The way through the image -/

/-- The block that lies in the buffer after a record of the given length, and where in it the next
record starts: past the end of a block, block `next` of the image comes. -/
def follow (image buffer : Bytes) (next place recLen : Nat) : Bytes × Nat × Nat :=
  if (place + recLen) % blockSize = 0 then (overwrite (block image next) buffer, next + 1, 0)
  else (buffer, next, (place + recLen) % blockSize)

/-- From `place` of the buffer on, and then in the blocks of the image from `next` on, lie copies of
these entries in use, followed by a record with inode number 0. -/
inductive ReadsAs (image : Bytes) : Bytes → Nat → Nat → List Entry → Prop
  | unused {buffer : Bytes} {next place : Nat} (hinode : loadInt buffer place = .ok 0) :
      ReadsAs image buffer next place []
  | used {buffer : Bytes} {next place : Nat} {inode : BitVec 32} {dirEntry : DirEntry}
      {entries : List Entry} (hinode : loadInt buffer place = .ok inode) (hne : inode ≠ 0)
      (hload : DirEntry.load buffer place = .ok dirEntry)
      (hrest : ReadsAs image (follow image buffer next place dirEntry.recLen.toNat).1
        (follow image buffer next place dirEntry.recLen.toNat).2.1
        (follow image buffer next place dirEntry.recLen.toNat).2.2 entries) :
      ReadsAs image buffer next place (dirEntry.entry :: entries)

theorem readsAs_nil {image buffer : Bytes} {next place : Nat} :
    ReadsAs image buffer next place [] ↔ loadInt buffer place = .ok 0 := by
  constructor
  · intro h
    cases h with
    | unused hinode => exact hinode
  · exact ReadsAs.unused

/-- Following a record is what the end of the loop body does, as long as no int overflows. -/
theorem Walk.advance_regular (image : Bytes) {s : Walk} {recLen : Nat}
    (hoffset : s.dirEntryOffset + recLen < 2 ^ 31)
    (hblock : (s.dirEntryOffset + recLen) % blockSize = 0 → s.blockOffset < 2 ^ 19) :
    ∃ s', s.advance (.regular image) recLen = .ok s' ∧
      (s'.device.buffer, s'.blockOffset, s'.dirEntry)
        = follow image s.device.buffer s.blockOffset s.dirEntry recLen ∧
      s'.dirEntryOffset = s.dirEntryOffset + recLen := by
  have hplace : (s.dirEntryOffset + recLen) % blockSize = (s.dirEntry + recLen) % blockSize := by
    rw [dirEntry, Nat.mod_add_mod]
  simp only [advance]
  rw [if_neg (by omega)]
  by_cases hend : (s.dirEntryOffset + recLen) % blockSize = 0
  · obtain ⟨device, hread, hbuffer⟩ := bufferReadBlock_of_lt image (hblock hend) s.device
    rw [if_pos hend, hread]
    refine ⟨_, rfl, ?_, rfl⟩
    rw [follow, if_pos (hplace ▸ hend)]
    simp only [hbuffer, dirEntry, hend]
  · rw [if_neg hend]
    refine ⟨_, rfl, ?_, rfl⟩
    rw [follow, if_neg (hplace ▸ hend), ← hplace]
    rfl

/-- One round at a record in use. -/
theorem Walk.round_regular (image : Bytes) {s : Walk} {inode : BitVec 32} {dirEntry : DirEntry}
    (hinode : loadInt s.device.buffer s.dirEntry = .ok inode) (hne : inode ≠ 0)
    (hload : DirEntry.load s.device.buffer s.dirEntry = .ok dirEntry)
    (hoffset : s.dirEntryOffset + dirEntry.recLen.toNat < 2 ^ 31)
    (hblock : (s.dirEntryOffset + dirEntry.recLen.toNat) % blockSize = 0 →
      s.blockOffset < 2 ^ 19) :
    ∃ s', s.round (.regular image) = .ok (.yield s') ∧
      (s'.device.buffer, s'.blockOffset, s'.dirEntry)
        = follow image s.device.buffer s.blockOffset s.dirEntry dirEntry.recLen.toNat ∧
      s'.dirEntryOffset = s.dirEntryOffset + dirEntry.recLen.toNat ∧
      s'.entries = s.entries ++ [dirEntry.entry] := by
  obtain ⟨s', hadvance, hfollow, hoffset'⟩ := Walk.advance_regular image
    (s := { s with dirEntryList := appendDirEntryList dirEntry s.dirEntryList }) hoffset hblock
  exact ⟨s', Walk.round_eq_yield.mpr ⟨inode, dirEntry, hinode, hne, hload, hadvance⟩, hfollow,
    hoffset', (Walk.advance_entries hadvance).trans (Walk.entries_append dirEntry s)⟩

/-- One round at a well-formed record in use. -/
theorem Walk.round_record (image : Bytes) {s : Walk} {r : Record} {rest : Bytes}
    (hdrop : s.device.buffer.drop s.dirEntry = r.bytes ++ rest) (hused : r.Used)
    (hlen : r.recLen < 2 ^ 16) (hfits : s.dirEntry + sizeofDirEntry ≤ blockSize)
    (hoffset : s.dirEntryOffset + r.recLen < 2 ^ 31)
    (hblock : (s.dirEntryOffset + r.recLen) % blockSize = 0 → s.blockOffset < 2 ^ 19) :
    ∃ s', s.round (.regular image) = .ok (.yield s') ∧
      (s'.device.buffer, s'.blockOffset, s'.dirEntry)
        = follow image s.device.buffer s.blockOffset s.dirEntry r.recLen ∧
      s'.dirEntryOffset = s.dirEntryOffset + r.recLen := by
  obtain ⟨dirEntry, hload, -, hrecLen⟩ :=
    Record.load_record hdrop hlen (hfits.trans_eq s.device.length_buffer.symm)
  obtain ⟨s', hyield, hfollow, hoffset', -⟩ := Walk.round_regular image
    (Record.loadInt_record hdrop) hused hload (hrecLen ▸ hoffset) (hrecLen ▸ hblock)
  exact ⟨s', hyield, hrecLen ▸ hfollow, hrecLen ▸ hoffset'⟩

/-- Each round goes on by one block at most. -/
theorem follow_next (image buffer : Bytes) (next place recLen : Nat) :
    (follow image buffer next place recLen).2.1
      = if (place + recLen) % blockSize = 0 then next + 1 else next := by
  rw [follow]
  split <;> rfl

/-- **The loop gathers what the image reads as**, unless it goes on for so long that an int
overflows. -/
theorem appends_iff {image : Bytes} {entries : List Entry} {s : Walk}
    (hoffset : s.dirEntryOffset + 2 ^ 16 * entries.length < 2 ^ 31)
    (hblock : s.blockOffset + entries.length ≤ 2 ^ 19) :
    Appends (Walk.round (.regular image)) Walk.entries s entries ↔
      ReadsAs image s.device.buffer s.blockOffset s.dirEntry entries := by
  induction entries generalizing s with
  | nil =>
      rw [appends_nil Walk.entries_of_done Walk.entries_of_yield, readsAs_nil]
      simp only [Walk.round_eq_done, exists_and_left, exists_eq, and_true]
  | cons entry entries ih =>
      rw [appends_cons Walk.entries_of_done Walk.entries_of_yield]
      rw [List.length_cons] at hoffset hblock
      -- one round, with the loop behind it described by the induction hypothesis
      have hround : ∀ {inode : BitVec 32} {dirEntry : DirEntry},
          loadInt s.device.buffer s.dirEntry = .ok inode → inode ≠ 0 →
          DirEntry.load s.device.buffer s.dirEntry = .ok dirEntry →
          ∃ s', s.round (.regular image) = .ok (.yield s') ∧
            s'.entries = s.entries ++ [dirEntry.entry] ∧
            (Appends (Walk.round (.regular image)) Walk.entries s' entries ↔
              ReadsAs image
                (follow image s.device.buffer s.blockOffset s.dirEntry dirEntry.recLen.toNat).1
                (follow image s.device.buffer s.blockOffset s.dirEntry dirEntry.recLen.toNat).2.1
                (follow image s.device.buffer s.blockOffset s.dirEntry dirEntry.recLen.toNat).2.2
                entries) := by
        intro inode dirEntry hinode hne hload
        have hrec : dirEntry.recLen.toNat < 2 ^ 16 := dirEntry.recLen.isLt
        obtain ⟨s', hyield, hfollow, hoffset', hentries⟩ :=
          Walk.round_regular image hinode hne hload (by omega) (fun _ => by omega)
        have hnext := follow_next image s.device.buffer s.blockOffset s.dirEntry
          dirEntry.recLen.toNat
        rw [← hfollow] at hnext
        have hblock' : s'.blockOffset ≤ s.blockOffset + 1 := by
          simp only at hnext
          split at hnext <;> omega
        refine ⟨s', hyield, hentries, ?_⟩
        rw [ih (by omega) (by omega), ← hfollow]
      constructor
      · rintro ⟨s', hyield, hentries, hrest⟩
        obtain ⟨inode, dirEntry, hinode, hne, hload, -⟩ := Walk.round_eq_yield.mp hyield
        obtain ⟨s'', hyield', hentries', hiff⟩ := hround hinode hne hload
        rw [hyield] at hyield'
        cases hyield'
        rw [hentries, List.append_cancel_left_eq] at hentries'
        cases hentries'
        exact ReadsAs.used hinode hne hload (hiff.mp hrest)
      · intro h
        cases h with
        | used hinode hne hload hrest =>
            obtain ⟨s', hyield, hentries, hiff⟩ := hround hinode hne hload
            exact ⟨s', hyield, hentries, hiff.mpr hrest⟩

/-- The list is built if the first block can be read and everything behind it reads as its
entries. -/
theorem lists_iff {image : Bytes} {rootDirectoryInode : Inode} {device : Device}
    {entries : List Entry} {blockNumber : BitVec 32}
    (hblock : rootDirectoryInode.iBlock 0 = .ok blockNumber) (hlength : entries.length < 2 ^ 15) :
    Lists (.regular image) rootDirectoryInode device entries ↔
      ∃ device', bufferReadBlock (.regular image) blockNumber.toInt device = .ok device' ∧
        ReadsAs image device'.buffer 0 0 entries := by
  have hloop : ∀ device' : Device,
      Appends (Walk.round (.regular image)) Walk.entries
        { device := device', blockOffset := 0, dirEntryOffset := 0
          dirEntryList := initDirEntryList } entries ↔
      ReadsAs image device'.buffer 0 0 entries :=
    fun device' => appends_iff (by simp only; omega) (by simp only; omega)
  constructor
  · rintro ⟨fuel, s, hrun, hentries⟩
    rw [populateDirEntryList, hblock, Outcome.ok_bind] at hrun
    obtain ⟨device', hread, hrun⟩ := Outcome.bind_eq_ok.mp hrun
    exact ⟨device', hread, (hloop device').mp ⟨s, ⟨fuel, hrun⟩, hentries⟩⟩
  · rintro ⟨device', hread, hreads⟩
    obtain ⟨s, ⟨fuel, hrun⟩, hentries⟩ := (hloop device').mpr hreads
    refine ⟨fuel, s, ?_, hentries⟩
    rw [populateDirEntryList, hblock, Outcome.ok_bind, hread]
    exact hrun

end Cs342.Ext2
