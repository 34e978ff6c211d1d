import Mathlib
import Cs342.Library.Scanf
import Cs342.Ext2.Directory

/-!
# Looking up inodes (`buffer_get_inode`)

The block of an inode is found with the size that the superblock gives for inodes, its place in the
block with the size of the struct (`bufferGetInode_eq_ok`). The table is always the one of the first
block group.
-/

namespace Cs342.Ext2

open ByteBuffer

/-! ## The superblock and the first group -/

/-- `struct ext2_superblock_t`, with the fields that inodes are looked up by. -/
structure Superblock where
  sInodesCount : BitVec 32
  sInodesPerGroup : BitVec 32
  sInodeSize : BitVec 16
  deriving DecidableEq, Repr

/-- `sizeof(struct ext2_superblock_t)`. -/
def sizeofSuperblock : Nat := 1024

/-- `memcpy` of the struct at `&buf[off]`. -/
def Superblock.load (buf : Bytes) (off : Nat) : Outcome Superblock := do
  let bytes ← ByteBuffer.load buf off sizeofSuperblock
  let sInodesCount ← loadInt bytes 0
  let sInodesPerGroup ← loadInt bytes 40
  let sInodeSize ← loadShort bytes 88
  return { sInodesCount, sInodesPerGroup, sInodeSize }

/-- `init_superblock`. -/
def initSuperblock (file : File) (device : Device) : Outcome (Superblock × Device) := do
  let device ← bufferReadBlock file 0 device
  let superblock ← Superblock.load device.buffer 1024
  return (superblock, device)

/-- `struct ext2_blockgroup_descriptor_t`. -/
structure BgDescriptor where
  bgInodeTable : BitVec 32
  deriving DecidableEq, Repr

/-- `sizeof(struct ext2_blockgroup_descriptor_t)`. -/
def sizeofBgDescriptor : Nat := 32

/-- `memcpy` of the struct at `&buf[off]`. -/
def BgDescriptor.load (buf : Bytes) (off : Nat) : Outcome BgDescriptor := do
  let bytes ← ByteBuffer.load buf off sizeofBgDescriptor
  let bgInodeTable ← loadInt bytes 8
  return { bgInodeTable }

/-- `init_bg_descriptor`: the descriptor of the first group. -/
def initBgDescriptor (file : File) (device : Device) : Outcome (BgDescriptor × Device) := do
  let device ← bufferReadBlock file 1 device
  let bgDescriptor ← BgDescriptor.load device.buffer 0
  return (bgDescriptor, device)

/-! ## The lookup -/

/-- `sizeof(struct ext2_inode_t)`. -/
def sizeofInode : Nat := 128

/-- `memcpy` of `partial_inode_table[index]`, an array of structs that starts with the buffer. -/
def Inode.load (buf : Bytes) (index : Int) : Outcome Inode :=
  if h : 0 ≤ index ∧ sizeofInode * index.toNat + sizeofInode ≤ buf.length then
    .ok
      { bytes := (buf.drop (sizeofInode * index.toNat)).take sizeofInode
        length_bytes := by
          rw [List.length_take, List.length_drop]
          simp only [sizeofInode] at h ⊢
          omega }
  else
    .undefined

/-- Division of ints, which rounds towards zero. -/
def divInt (x y : Int) : Outcome Int := if y = 0 then .undefined else .ok (x.tdiv y)

/-- The memory for the inode has the size that the superblock says, and the struct is copied to it.
The sum that is the block number is one of unsigned ints, the parameter of `buffer_read_block` is an
int. -/
def bufferGetInode (file : File) (superblock : Superblock) (bgDescriptor : BgDescriptor)
    (inodeIndex : Int) (device : Device) : Outcome (Inode × Device) := do
  let inodesPerBlock ← divInt blockSize superblock.sInodeSize.toNat
  let inodeIndex ← Scanf.toInt (inodeIndex - 1)
  let blockNumber ← divInt inodeIndex inodesPerBlock
  let device ← bufferReadBlock file
    (bgDescriptor.bgInodeTable + BitVec.ofInt 32 blockNumber).toInt device
  if superblock.sInodeSize.toNat < sizeofInode then .undefined
  else do
    let inode ← Inode.load device.buffer (inodeIndex.tmod inodesPerBlock)
    return (inode, device)

/-- `print_root_directory_inodes`: what is printed for each node is its entry, and the inode that
has been looked up for it. -/
def printRootDirectoryInodes (file : File) (superblock : Superblock) (bgDescriptor : BgDescriptor) :
    List DirEntry → Device → Outcome (List (DirEntry × Inode) × Device)
  | [], device => return ([], device)
  | node :: next, device => do
    let (inode, device) ← bufferGetInode file superblock bgDescriptor node.inode.toInt device
    let (shown, device) ← printRootDirectoryInodes file superblock bgDescriptor next device
    return ((node, inode) :: shown, device)

/-! ## What it returns -/

theorem Inode.load_eq_ok {buf : Bytes} {index : Int} {inode : Inode} :
    Inode.load buf index = .ok inode ↔
      0 ≤ index ∧ inode.bytes = (buf.drop (sizeofInode * index.toNat)).take sizeofInode := by
  rw [Inode.load]
  constructor
  · intro h
    split at h
    · next hindex =>
        cases h
        exact ⟨hindex.1, rfl⟩
    · cases h
  · rintro ⟨hindex, hbytes⟩
    have hlength := congrArg List.length hbytes
    rw [inode.length_bytes, List.length_take, List.length_drop] at hlength
    rw [dif_pos ⟨hindex, by simp only [sizeofInode] at hlength ⊢; omega⟩]
    cases inode
    cases hbytes
    rfl

section Lookup

variable {file : File} {superblock : Superblock} {bgDescriptor : BgDescriptor} {device : Device}

/-- **The lookup of an inode**: where it reads, and what it returns, for sizes that a block is a
multiple of. -/
theorem bufferGetInode_eq_ok {inodesPerBlock : Nat} {inodeIndex : Int} {inode : Inode}
    {device' : Device} (hsize : sizeofInode ≤ superblock.sInodeSize.toNat)
    (hblock : inodesPerBlock * superblock.sInodeSize.toNat = blockSize) :
    bufferGetInode file superblock bgDescriptor inodeIndex device = .ok (inode, device') ↔
      (-2 ^ 31 ≤ inodeIndex - 1 ∧ inodeIndex - 1 < 2 ^ 31) ∧
        bufferReadBlock file
          (bgDescriptor.bgInodeTable + BitVec.ofInt 32 ((inodeIndex - 1).tdiv inodesPerBlock)).toInt
          device = .ok device' ∧
        Inode.load device'.buffer ((inodeIndex - 1).tmod inodesPerBlock) = .ok inode := by
  have hsize' : 0 < superblock.sInodeSize.toNat := by
    simp only [sizeofInode] at hsize
    omega
  have hne : inodesPerBlock ≠ 0 := by
    rintro rfl
    simp [blockSize] at hblock
  have hdiv : divInt blockSize superblock.sInodeSize.toNat = .ok inodesPerBlock := by
    rw [divInt, if_neg (by omega), ← hblock, Nat.cast_mul, Int.mul_tdiv_cancel _ (by omega)]
  rw [bufferGetInode, hdiv, Outcome.ok_bind, Scanf.toInt]
  split
  · next hrange =>
      rw [Outcome.ok_bind, divInt, if_neg (by exact_mod_cast hne), Outcome.ok_bind,
        and_iff_right hrange]
      constructor
      · intro h
        obtain ⟨device'', hread, h⟩ := Outcome.bind_eq_ok.mp h
        rw [if_neg (not_lt.mpr hsize)] at h
        obtain ⟨inode', hload, h⟩ := Outcome.bind_eq_ok.mp h
        cases h
        exact ⟨hread, hload⟩
      · rintro ⟨hread, hload⟩
        rw [hread, Outcome.ok_bind, if_neg (not_lt.mpr hsize), hload]
        rfl
  · next hrange =>
      rw [Outcome.undefined_bind]
      constructor
      · intro h
        cases h
      · rintro ⟨h, -⟩
        exact absurd h hrange

/-- The lookup of an index that is positive. -/
theorem bufferGetInode_eq_ok_of_pos {inodesPerBlock inodeIndex : Nat} {inode : Inode}
    {device' : Device} (hsize : sizeofInode ≤ superblock.sInodeSize.toNat)
    (hblock : inodesPerBlock * superblock.sInodeSize.toNat = blockSize) (hmin : 1 ≤ inodeIndex)
    (hint : inodeIndex < 2 ^ 31) :
    bufferGetInode file superblock bgDescriptor inodeIndex device = .ok (inode, device') ↔
      bufferReadBlock file
          (bgDescriptor.bgInodeTable + BitVec.ofNat 32 ((inodeIndex - 1) / inodesPerBlock)).toInt
          device = .ok device' ∧
        inode.bytes = (device'.buffer.drop
          (sizeofInode * ((inodeIndex - 1) % inodesPerBlock))).take sizeofInode := by
  have hcast : (inodeIndex : Int) - 1 = (inodeIndex - 1 : Nat) := by omega
  rw [bufferGetInode_eq_ok hsize hblock, hcast, ← Int.ofNat_tdiv, ← Int.ofNat_tmod,
    BitVec.ofInt_natCast, Inode.load_eq_ok, Int.toNat_natCast]
  constructor
  · rintro ⟨-, hread, -, hbytes⟩
    exact ⟨hread, hbytes⟩
  · rintro ⟨hread, hbytes⟩
    exact ⟨by omega, hread, Int.natCast_nonneg _, hbytes⟩

/-- The loop over the list comes to a node behind others, and prints it last. -/
theorem printRootDirectoryInodes_concat {before : List DirEntry} {node : DirEntry}
    {shown : List (DirEntry × Inode)} {device' : Device}
    (hbefore : printRootDirectoryInodes file superblock bgDescriptor before device
      = .ok (shown, device')) :
    printRootDirectoryInodes file superblock bgDescriptor (before ++ [node]) device = (do
      let (inode, device) ← bufferGetInode file superblock bgDescriptor node.inode.toInt device'
      return (shown ++ [(node, inode)], device)) := by
  induction before generalizing device shown with
  | nil =>
      cases hbefore
      rfl
  | cons first before ih =>
      obtain ⟨⟨inode, device₁⟩, hget, hbefore⟩ := Outcome.bind_eq_ok.mp hbefore
      obtain ⟨⟨rest, device₂⟩, hrest, hbefore⟩ := Outcome.bind_eq_ok.mp hbefore
      cases hbefore
      rw [List.cons_append, printRootDirectoryInodes, hget, Outcome.ok_bind]
      simp only [ih hrest]
      cases bufferGetInode file superblock bgDescriptor node.inode.toInt device' <;> rfl

/-- The block number, as an int. -/
theorem toInt_add_ofNat {table : BitVec 32} {n : Nat} (h : table.toNat + n < 2 ^ 31) :
    (table + BitVec.ofNat 32 n).toInt = (table.toNat + n : Nat) := by
  have hsum : (table + BitVec.ofNat 32 n).toNat = table.toNat + n := by
    rw [BitVec.toNat_add, BitVec.toNat_ofNat]
    omega
  rw [BitVec.toInt_eq_toNat_of_lt (by omega), hsum]

/-- A block number that can be read is not larger than the sum. -/
theorem toInt_add_ofNat_le (table : BitVec 32) (n : Nat) :
    (table + BitVec.ofNat 32 n).toInt ≤ (table.toNat + n : Nat) := by
  have hsum : (table + BitVec.ofNat 32 n).toNat ≤ table.toNat + n := by
    rw [BitVec.toNat_add, BitVec.toNat_ofNat]
    omega
  have hle : (table + BitVec.ofNat 32 n).toInt ≤ (table + BitVec.ofNat 32 n).toNat := by
    rw [BitVec.toInt_eq_toNat_cond]
    split <;> omega
  omega

end Lookup

end Cs342.Ext2
