import Mathlib
import Cs342.Ext2.Reads
import Cs342.Ext2.InodeTable

/-!
# Inodes of all block groups (`print_root_directory_inodes`)

The inodes of an image are divided among its block groups, each with a table of its own. The lookup
counts on in the table of the first group. So the inode of a file is shown, whatever it holds,
exactly if its place is where that table would have it (`own_inode_shown_iff`).
-/

namespace Cs342.Ext2

open ByteBuffer

/-! ## Where inodes are stored -/

/-- The descriptor of a block group, in the table that starts with block 1. -/
def groupDescriptor (image : Bytes) (group : Nat) : Outcome BgDescriptor :=
  BgDescriptor.load image (blockSize + sizeofBgDescriptor * group)

/-- What `init_superblock` and `init_bg_descriptor` read from the image, with inodes of the size of
the struct. -/
structure Mounted (image : Bytes) (superblock : Superblock) (bgDescriptor : BgDescriptor) :
    Prop where
  superblock_eq : Superblock.load image 1024 = .ok superblock
  descriptor_eq : groupDescriptor image 0 = .ok bgDescriptor
  inodeSize : superblock.sInodeSize.toNat = sizeofInode

/-- What is stored in a block of the image is in the buffer, once the block has been read. -/
theorem load_of_read {image bytes : Bytes} {device device' : Device} {n off len : Nat}
    (hbuffer : device'.buffer = overwrite (block image n) device.buffer)
    (hload : ByteBuffer.load image (blockSize * n + off) len = .ok bytes)
    (hfits : off + len ≤ blockSize) : ByteBuffer.load device'.buffer off len = .ok bytes := by
  rw [ByteBuffer.load] at hload ⊢
  split at hload
  · next himage =>
      rw [if_pos (hfits.trans_eq device'.length_buffer.symm), hbuffer,
        take_overwrite_block device.buffer himage hfits]
      exact hload
  · cases hload

/-- The program reads both at its start. -/
theorem Mounted.init {image : Bytes} {superblock : Superblock} {bgDescriptor : BgDescriptor}
    (h : Mounted image superblock bgDescriptor) (device : Device) :
    ∃ device₁ device₂, initSuperblock (.regular image) device = .ok (superblock, device₁) ∧
      initBgDescriptor (.regular image) device₁ = .ok (bgDescriptor, device₂) := by
  obtain ⟨device₁, hread₁, hbuffer₁⟩ := bufferReadBlock_of_lt image (n := 0) (by decide) device
  obtain ⟨device₂, hread₂, hbuffer₂⟩ := bufferReadBlock_of_lt image (n := 1) (by decide) device₁
  obtain ⟨bytes, hload, hfields⟩ := Outcome.bind_eq_ok.mp h.superblock_eq
  obtain ⟨bytes', hload', hfields'⟩ := Outcome.bind_eq_ok.mp h.descriptor_eq
  have hbytes : ByteBuffer.load device₁.buffer 1024 sizeofSuperblock = .ok bytes :=
    load_of_read hbuffer₁ hload (by decide)
  have hbytes' : ByteBuffer.load device₂.buffer 0 sizeofBgDescriptor = .ok bytes' :=
    load_of_read hbuffer₂ hload' (by decide)
  rw [Nat.cast_zero] at hread₁
  rw [Nat.cast_one] at hread₂
  refine ⟨device₁, device₂, ?_, ?_⟩
  · rw [initSuperblock, hread₁, Outcome.ok_bind, Superblock.load, hbytes, Outcome.ok_bind,
      hfields]
    rfl
  · rw [initBgDescriptor, hread₂, Outcome.ok_bind, BgDescriptor.load, hbytes', Outcome.ok_bind,
      hfields']
    rfl

/-- The place of inode `k`: its slot in the table of its group. -/
def InodeAt (image : Bytes) (superblock : Superblock) (k place : Nat) : Prop :=
  1 ≤ k ∧ k ≤ superblock.sInodesCount.toNat ∧
    ∃ descriptor,
      groupDescriptor image ((k - 1) / superblock.sInodesPerGroup.toNat) = .ok descriptor ∧
      place = blockSize * descriptor.bgInodeTable.toNat
        + sizeofInode * ((k - 1) % superblock.sInodesPerGroup.toNat) ∧
      place + sizeofInode ≤ image.length

/-- The image with another inode in some place. -/
def storeInode (image : Bytes) (place : Nat) (inode : Inode) : Bytes :=
  image.take place ++ (inode.bytes ++ image.drop (place + sizeofInode))

/-- Whichever inode is stored in this place: it is what `print_root_directory_inodes` shows for an
entry with inode number `k`, whenever it comes to such an entry. -/
def ShowsOwnInode (image : Bytes) (superblock : Superblock) (bgDescriptor : BgDescriptor)
    (k : BitVec 32) (place : Nat) : Prop :=
  ∀ (inode : Inode) (before : List DirEntry) (node : DirEntry) (device device' : Device)
    (shown : List (DirEntry × Inode)), node.inode = k →
    printRootDirectoryInodes (.regular (storeInode image place inode)) superblock bgDescriptor
        before
      device = .ok (shown, device') →
    ∃ device'', printRootDirectoryInodes (.regular (storeInode image place inode)) superblock
      bgDescriptor (before ++ [node]) device = .ok (shown ++ [(node, inode)], device'')

/-- The inodes in a block. -/
def inodesPerBlock : Nat := blockSize / sizeofInode

/-- Where the lookup of inode `k` reads: in a block with an offset that is an int, counted from the
table of the first group on. -/
def LookedUpAt (bgDescriptor : BgDescriptor) (k : BitVec 32) (place : Nat) : Prop :=
  ∃ n slot : Nat, n < 2 ^ 19 ∧
    (bgDescriptor.bgInodeTable + BitVec.ofInt 32 ((k.toInt - 1).tdiv inodesPerBlock)).toInt = n ∧
    (k.toInt - 1).tmod inodesPerBlock = slot ∧ place = blockSize * n + sizeofInode * slot

/-- For all but huge numbers, that is in the table of the first group. -/
theorem lookedUpAt_iff {bgDescriptor : BgDescriptor} {k : BitVec 32} {place : Nat}
    (hmin : 1 ≤ k.toNat) (hint : k.toNat < 2 ^ 31)
    (hsum : bgDescriptor.bgInodeTable.toNat + (k.toNat - 1) / inodesPerBlock < 2 ^ 32) :
    LookedUpAt bgDescriptor k place ↔
      bgDescriptor.bgInodeTable.toNat + (k.toNat - 1) / inodesPerBlock < 2 ^ 19 ∧
        place = blockSize * bgDescriptor.bgInodeTable.toNat + sizeofInode * (k.toNat - 1) := by
  have hcast : k.toInt - 1 = (k.toNat - 1 : Nat) := by
    rw [BitVec.toInt_eq_toNat_of_lt (by omega)]
    omega
  have hindex := Nat.div_add_mod (k.toNat - 1) inodesPerBlock
  have hstride : blockSize = inodesPerBlock * sizeofInode := rfl
  rw [LookedUpAt, hcast, ← Int.ofNat_tdiv, ← Int.ofNat_tmod, BitVec.ofInt_natCast]
  generalize (k.toNat - 1) / inodesPerBlock = quotient at hsum hindex ⊢
  generalize (k.toNat - 1) % inodesPerBlock = remainder at hindex ⊢
  have hnumber : ∀ n : Nat, n < 2 ^ 19 →
      ((bgDescriptor.bgInodeTable + BitVec.ofNat 32 quotient).toInt = n ↔
        bgDescriptor.bgInodeTable.toNat + quotient = n) := by
    intro n hn
    rw [BitVec.toInt_eq_toNat_cond, BitVec.toNat_add, BitVec.toNat_ofNat, Nat.add_mod_mod,
      Nat.mod_eq_of_lt hsum]
    split <;> omega
  have hplace : blockSize * (bgDescriptor.bgInodeTable.toNat + quotient) + sizeofInode * remainder
      = blockSize * bgDescriptor.bgInodeTable.toNat + sizeofInode * (k.toNat - 1) := by
    rw [← hindex, hstride]
    ring
  constructor
  · rintro ⟨n, slot, hn, hblock, hslot, rfl⟩
    obtain rfl := (hnumber n hn).mp hblock
    obtain rfl := Int.natCast_inj.mp hslot
    exact ⟨hn, hplace⟩
  · rintro ⟨hlt, rfl⟩
    exact ⟨_, _, hlt, (hnumber _ hlt).mpr rfl, rfl, hplace.symm⟩

/-! ## The image with another inode -/

section Store

variable {image : Bytes} {place : Nat} (inode : Inode)
  (hreach : place + sizeofInode ≤ image.length)
include hreach

theorem length_storeInode : (storeInode image place inode).length = image.length := by
  have hlength := inode.length_bytes
  rw [storeInode, List.length_append, List.length_append, List.length_take, List.length_drop]
  simp only [sizeofInode] at hreach ⊢
  omega

theorem storeInode_drop :
    ((storeInode image place inode).drop place).take sizeofInode = inode.bytes := by
  have hlength : (image.take place).length = place := by
    rw [List.length_take]
    omega
  have hlength' : inode.bytes.length = sizeofInode := inode.length_bytes
  rw [storeInode, List.drop_left' hlength, List.take_left' hlength']

/-- Other bytes are not touched. -/
theorem getElem?_storeInode {i : Nat} (hi : i < place ∨ place + sizeofInode ≤ i) :
    (storeInode image place inode)[i]? = image[i]? := by
  have hlength : (image.take place).length = place := by
    rw [List.length_take]
    omega
  have hlength' : inode.bytes.length = sizeofInode := inode.length_bytes
  rw [storeInode]
  rcases hi with hi | hi
  · rw [List.getElem?_append_left (by omega), List.getElem?_take_of_lt hi]
  · rw [List.getElem?_append_right (by omega), List.getElem?_append_right (by omega),
      List.getElem?_drop]
    congr 1
    omega

end Store

/-! ## The lookup and the place -/

section Lookup

variable {image : Bytes} {superblock : Superblock} {bgDescriptor : BgDescriptor} {k : BitVec 32}
  {place : Nat}

/-- A block holds a whole number of inodes. -/
theorem inodesPerBlock_mul (hsize : superblock.sInodeSize.toNat = sizeofInode) :
    inodesPerBlock * superblock.sInodeSize.toNat = blockSize := by
  rw [hsize]
  rfl

theorem slot_lt {slot : Nat} {i : Int} (h : i.tmod inodesPerBlock = slot) :
    sizeofInode * slot + sizeofInode ≤ blockSize := by
  have hlt : i.tmod inodesPerBlock < inodesPerBlock := Int.tmod_lt_of_pos i (by decide)
  have hblock : (inodesPerBlock : Int) = 32 := rfl
  simp only [sizeofInode, blockSize]
  omega

/-- A place that is looked up holds what has been stored there. -/
theorem LookedUpAt.lookup (h : LookedUpAt bgDescriptor k place)
    (hsize : superblock.sInodeSize.toNat = sizeofInode)
    (hreach : place + sizeofInode ≤ image.length) (inode : Inode) (device : Device) :
    ∃ device', bufferGetInode (.regular (storeInode image place inode)) superblock bgDescriptor
      k.toInt device = .ok (inode, device') := by
  obtain ⟨n, slot, hn, hblock, hslot, hplace⟩ := h
  have hfits := slot_lt hslot
  obtain ⟨device', hread, hbuffer⟩ := bufferReadBlock_of_lt (storeInode image place inode) hn device
  have hstored : blockSize * n + sizeofInode * slot + sizeofInode
      ≤ (storeInode image place inode).length := by
    rw [length_storeInode inode hreach, ← hplace]
    exact hreach
  have hbytes := take_overwrite_block device.buffer hstored hfits
  rw [← hbuffer, ← hplace, storeInode_drop inode hreach] at hbytes
  refine ⟨device', (bufferGetInode_eq_ok hsize.ge (inodesPerBlock_mul hsize)).mpr ⟨?_, ?_, ?_⟩⟩
  · -- the smallest int has a negative slot
    have hmin := BitVec.le_toInt k
    have hmax := BitVec.toInt_lt (x := k)
    refine ⟨?_, by omega⟩
    by_contra hlt
    have hk : k.toInt = -2 ^ 31 := by omega
    rw [hk] at hslot
    have hneg : ((-2 ^ 31 - 1 : Int)).tmod inodesPerBlock = -1 := by decide
    omega
  · rw [hblock]
    exact hread
  · rw [hslot, Inode.load_eq_ok]
    exact ⟨Int.natCast_nonneg _, hbytes.symm⟩

/-- Inodes of equal bytes. -/
def Inode.replicate (byte : UInt8) : Inode where
  bytes := List.replicate 128 byte
  length_bytes := List.length_replicate

theorem Inode.load_replicate {buf : Bytes} {index : Int} {byte : UInt8}
    (h : Inode.load buf index = .ok (.replicate byte)) :
    0 ≤ index ∧ buf[sizeofInode * index.toNat]? = some byte := by
  obtain ⟨hindex, hbytes⟩ := Inode.load_eq_ok.mp h
  refine ⟨hindex, ?_⟩
  have hfirst := congrArg (·[0]?) hbytes
  simp only [List.getElem?_take_of_lt (show 0 < sizeofInode by decide), List.getElem?_drop,
    Nat.add_zero] at hfirst
  exact hfirst.symm

/-- A program at the end of its file. -/
def endDevice (image : Bytes) : Device := { startDevice with position := image.length }

/-- Nothing is read at the end of the file by a program that cannot seek. -/
theorem buffer_endDevice {image image' : Bytes} {blockNumber : Int} {device : Device}
    (hneg : blockNumber < 0) (hlength : image'.length = image.length)
    (h : bufferReadBlock (.regular image') blockNumber (endDevice image) = .ok device) :
    device.buffer = startDevice.buffer := by
  have hoffset : ¬ (0 : Int) ≤ blockSize * blockNumber := by
    simp only [blockSize]
    omega
  have hnone : (endDevice image).available image' = [] := by
    rw [Device.available, endDevice, List.drop_of_length_le hlength.le, List.take_nil]
  simp only [bufferReadBlock] at h
  split at h
  · rw [Device.lseek, if_neg hoffset] at h
    cases h
    show overwrite ((endDevice image).available image') startDevice.buffer = _
    rw [hnone]
    rfl
  · cases h

/-- No other place does, for all that can be stored. -/
theorem lookedUpAt_of_lookup (hsize : superblock.sInodeSize.toNat = sizeofInode)
    (hreach : place + sizeofInode ≤ image.length) (haligned : sizeofInode ∣ place)
    (h : ∀ inode device, ∃ device', bufferGetInode (.regular (storeInode image place inode))
      superblock bgDescriptor k.toInt device = .ok (inode, device')) :
    LookedUpAt bgDescriptor k place := by
  have hread := fun inode device => (h inode device).imp fun device' h =>
    ((bufferGetInode_eq_ok hsize.ge (inodesPerBlock_mul hsize)).mp h).2
  have hlt : (k.toInt - 1).tmod inodesPerBlock < inodesPerBlock :=
    Int.tmod_lt_of_pos _ (by decide)
  rw [LookedUpAt]
  generalize (bgDescriptor.bgInodeTable
    + BitVec.ofInt 32 ((k.toInt - 1).tdiv inodesPerBlock)).toInt = blockNumber at hread ⊢
  generalize (k.toInt - 1).tmod inodesPerBlock = index at hread hlt ⊢
  have hoff : sizeofInode * index.toNat < blockSize := by
    have hblock : (inodesPerBlock : Int) = 32 := rfl
    simp only [sizeofInode, blockSize]
    omega
  have hrange : -2 ^ 19 ≤ blockNumber ∧ blockNumber < 2 ^ 19 := by
    by_contra hout
    obtain ⟨device', hfirst, -⟩ := hread (.replicate 0) startDevice
    rw [bufferReadBlock_overflow (by omega)] at hfirst
    cases hfirst
  -- at the end of the file, a negative number leaves the zeros in the buffer
  have hnonneg : 0 ≤ blockNumber := by
    by_contra hneg
    obtain ⟨device', hfirst, hload⟩ := hread (.replicate 1) (endDevice image)
    have hbuffer := buffer_endDevice (not_le.mp hneg) (length_storeInode _ hreach) hfirst
    have hone := (Inode.load_replicate hload).2
    have hzero : startDevice.buffer[sizeofInode * index.toNat]? = some 0 :=
      List.getElem?_replicate_of_lt hoff
    rw [hbuffer, hzero] at hone
    exact absurd hone (by decide)
  -- elsewhere, what is read does not depend on the inode
  have hfirst : ∀ byte, 0 ≤ index ∧ (storeInode image place (.replicate byte))[
      blockSize * blockNumber.toNat + sizeofInode * index.toNat]?.getD 0 = byte := by
    intro byte
    obtain ⟨device', hread', hload⟩ := hread (.replicate byte) startDevice
    obtain ⟨device'', hread'', hbuffer⟩ := bufferReadBlock_startDevice hrange.1 hrange.2
    rw [hread'] at hread''
    cases hread''
    obtain ⟨hindex, hbyte⟩ := Inode.load_replicate hload
    rw [hbuffer, getElem?_overwrite_block _ hoff] at hbyte
    exact ⟨hindex, Option.some.inj hbyte⟩
  refine ⟨blockNumber.toNat, index.toNat, by omega, (Int.toNat_of_nonneg hnonneg).symm,
    (Int.toNat_of_nonneg (hfirst 0).1).symm, ?_⟩
  by_contra hne
  obtain ⟨slots, rfl⟩ := haligned
  have houtside : blockSize * blockNumber.toNat + sizeofInode * index.toNat < sizeofInode * slots ∨
      sizeofInode * slots + sizeofInode
        ≤ blockSize * blockNumber.toNat + sizeofInode * index.toNat := by
    simp only [blockSize, sizeofInode] at hne ⊢
    omega
  have hzero := (hfirst 0).2
  have hone := (hfirst 1).2
  rw [getElem?_storeInode _ hreach houtside] at hzero hone
  rw [hzero] at hone
  exact absurd hone (by decide)

/-- What shows its own inode is looked up in its place. -/
theorem ShowsOwnInode.lookedUpAt (hsize : superblock.sInodeSize.toNat = sizeofInode)
    (hreach : place + sizeofInode ≤ image.length) (haligned : sizeofInode ∣ place)
    (h : ShowsOwnInode image superblock bgDescriptor k place) :
    LookedUpAt bgDescriptor k place := by
  apply lookedUpAt_of_lookup hsize hreach haligned
  intro inode device
  obtain ⟨device'', hshown⟩ := h inode []
    { inode := k, recLen := 0, nameLen := 0, fileType := 0, fileName := [] } device device [] rfl
    rfl
  rw [printRootDirectoryInodes_concat rfl] at hshown
  obtain ⟨⟨inode', device'⟩, hget, hshown⟩ := Outcome.bind_eq_ok.mp hshown
  cases hshown
  exact ⟨_, hget⟩

end Lookup

/-- **Own inodes**: an entry with the inode number `k` shows the inode that is stored in the slot of
`k` in the table of its group, exactly if the lookup reads there. -/
theorem own_inode_shown_iff {image : Bytes} {superblock : Superblock} {bgDescriptor : BgDescriptor}
    (hmounted : Mounted image superblock bgDescriptor) (k : BitVec 32) (place : Nat)
    (hplace : InodeAt image superblock k.toNat place) :
    ShowsOwnInode image superblock bgDescriptor k place ↔ LookedUpAt bgDescriptor k place := by
  obtain ⟨-, -, descriptor, -, hslot, hreach⟩ := hplace
  constructor
  · apply ShowsOwnInode.lookedUpAt hmounted.inodeSize hreach
    rw [hslot]
    exact (Nat.dvd_mul_right_of_dvd (by decide) _).add (Nat.dvd_mul_right _ _)
  · rintro h inode before node device device' shown rfl hbefore
    obtain ⟨device'', hget⟩ := h.lookup hmounted.inodeSize hreach inode device'
    refine ⟨device'', ?_⟩
    rw [printRootDirectoryInodes_concat hbefore, hget]
    rfl

/-! ## Two groups -/

/-- The superblock of an image with two groups of eight blocks and 32 inodes each. -/
def twoGroupsSuperblock : Bytes :=
  ([64, 16, 0, 0, 53, 0, 2, 2, 8, 8, 32, 0, 0, 0, 0x1ef53, 0, 0, 0, 0, 1, 0, 11, 128] :
    List (BitVec 32)).flatMap intBytes

/-- The descriptors of the groups: two bitmaps and the table, in the blocks 2 to 4 and 10 to 12. -/
def twoGroupsDescriptors : Bytes :=
  ([2, 3, 4, 0, 0, 0, 0, 0, 10, 11, 12, 0, 0, 0, 0, 0] : List (BitVec 32)).flatMap intBytes

/-- The image, without any file. -/
def twoGroupsImage : Bytes :=
  padded (List.replicate 1024 0 ++ twoGroupsSuperblock) ++
    (padded twoGroupsDescriptors ++ List.replicate (14 * blockSize) 0)

theorem length_twoGroupsImage : twoGroupsImage.length = 16 * blockSize := by
  rw [twoGroupsImage, List.length_append, List.length_append, length_padded, length_padded,
    List.length_replicate]
  · rfl
  · decide
  · rw [List.length_append, List.length_replicate]
    decide

theorem groupDescriptor_twoGroups :
    groupDescriptor twoGroupsImage 0 = .ok ⟨4⟩ ∧ groupDescriptor twoGroupsImage 1 = .ok ⟨12⟩ := by
  have hdrop : twoGroupsImage.drop blockSize
      = twoGroupsDescriptors ++ (List.replicate (blockSize - twoGroupsDescriptors.length) 0 ++
        List.replicate (14 * blockSize) 0) := by
    rw [twoGroupsImage, List.drop_left' (length_padded _), padded, List.append_assoc]
    rw [List.length_append, List.length_replicate]
    decide
  have hlength := length_twoGroupsImage
  constructor
  · rw [groupDescriptor, BgDescriptor.load, ByteBuffer.load,
      if_pos (by rw [hlength]; decide), ← List.drop_drop, hdrop]
    rfl
  · rw [groupDescriptor, BgDescriptor.load, ByteBuffer.load,
      if_pos (by rw [hlength]; decide), ← List.drop_drop, hdrop]
    rfl

theorem mounted_twoGroups : Mounted twoGroupsImage ⟨64, 32, 128⟩ ⟨4⟩ where
  superblock_eq := by
    have hdrop : twoGroupsImage.drop 1024 = twoGroupsSuperblock ++
        (List.replicate (blockSize - (List.replicate 1024 0 ++ twoGroupsSuperblock).length) 0 ++
          (padded twoGroupsDescriptors ++ List.replicate (14 * blockSize) 0)) := by
      rw [twoGroupsImage, padded, List.append_assoc, List.append_assoc,
        List.drop_left' List.length_replicate]
    rw [Superblock.load, ByteBuffer.load, if_pos (by rw [length_twoGroupsImage]; decide), hdrop]
    rfl
  descriptor_eq := groupDescriptor_twoGroups.1
  inodeSize := rfl

/-- Inode 11 is in the table of the first group, inode 33 in that of the second one. -/
theorem inodeAt_twoGroups :
    InodeAt twoGroupsImage ⟨64, 32, 128⟩ 11 (blockSize * 4 + sizeofInode * 10) ∧
      InodeAt twoGroupsImage ⟨64, 32, 128⟩ 33 (blockSize * 12) := by
  have hlength := length_twoGroupsImage
  refine ⟨⟨by decide, by decide, ⟨4⟩, groupDescriptor_twoGroups.1, rfl, ?_⟩,
    ⟨by decide, by decide, ⟨12⟩, groupDescriptor_twoGroups.2, rfl, ?_⟩⟩
  · rw [hlength]
    decide
  · rw [hlength]
    decide

theorem own_inode_shown_first :
    ShowsOwnInode twoGroupsImage ⟨64, 32, 128⟩ ⟨4⟩ 11 (blockSize * 4 + sizeofInode * 10) ↔
      LookedUpAt ⟨4⟩ 11 (blockSize * 4 + sizeofInode * 10) :=
  own_inode_shown_iff mounted_twoGroups 11 _ inodeAt_twoGroups.1

/-- For inode 33, the first bytes behind the table of the first group are taken. -/
theorem own_inode_not_shown :
    Mounted twoGroupsImage ⟨64, 32, 128⟩ ⟨4⟩ ∧
      InodeAt twoGroupsImage ⟨64, 32, 128⟩ 33 (blockSize * 12) ∧
      ¬ ShowsOwnInode twoGroupsImage ⟨64, 32, 128⟩ ⟨4⟩ 33 (blockSize * 12) := by
  refine ⟨mounted_twoGroups, inodeAt_twoGroups.2, fun h => ?_⟩
  have hlooked := h.lookedUpAt rfl (by rw [length_twoGroupsImage]; decide)
    (Nat.dvd_mul_right_of_dvd (by decide) 12)
  rw [lookedUpAt_iff (by decide) (by decide) (by decide)] at hlooked
  exact absurd hlooked.2 (by decide)

end Cs342.Ext2
