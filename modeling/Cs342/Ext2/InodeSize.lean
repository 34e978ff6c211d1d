import Mathlib
import Cs342.Ext2.Reads
import Cs342.Ext2.InodeTable

/-!
# Inodes of any size (`buffer_get_inode`)

An inode lies at its number times the size of inodes on disk, but is taken from its number in the
block times the size of the struct. The two places are the same for inodes of 128 bytes, and for
those that start a block (`inode_found_iff`); with 256 bytes, the root directory is looked up in the
second half of the first inode (`root_inode_not_found`).
-/

namespace Cs342.Ext2

open ByteBuffer

/-- Where the image has an inode of the first group. -/
def inodePlace (superblock : Superblock) (bgDescriptor : BgDescriptor) (inodeIndex : Nat) : Nat :=
  blockSize * bgDescriptor.bgInodeTable.toNat + (inodeIndex - 1) * superblock.sInodeSize.toNat

/-- `buffer_get_inode` returns the first 128 bytes at the place of the inode, on any image that has
them and whatever has been read before. -/
def FindsInode (superblock : Superblock) (bgDescriptor : BgDescriptor) (inodeIndex : Nat) : Prop :=
  ∀ (image : Bytes) (device : Device),
    inodePlace superblock bgDescriptor inodeIndex + sizeofInode ≤ image.length →
    ∃ inode device', bufferGetInode (.regular image) superblock bgDescriptor inodeIndex device
        = .ok (inode, device') ∧
      inode.bytes
        = (image.drop (inodePlace superblock bgDescriptor inodeIndex)).take sizeofInode

/-! ## An image with one inode -/

/-- An image that is zero up to some place, where it has an inode of ones. -/
def marked (place : Nat) : Bytes := List.replicate place 0 ++ List.replicate sizeofInode 1

theorem marked_drop (place : Nat) :
    ((marked place).drop place).take sizeofInode = List.replicate sizeofInode 1 := by
  rw [marked, List.drop_left' List.length_replicate, List.take_of_length_le (by simp)]

/-- In front of its inode, nothing but zeros is read from this image. -/
theorem getElem?_marked {place n off : Nat} (hoff : off < blockSize)
    (hlt : blockSize * n + off < place) :
    (overwrite (block (marked place) n) startDevice.buffer)[off]? = some 0 := by
  rw [getElem?_overwrite_block _ hoff, marked,
    List.getElem?_append_left (by rwa [List.length_replicate]), List.getElem?_replicate_of_lt hlt]
  rfl

/-! ## The two strides -/

section Strides

variable {superblock : Superblock} {bgDescriptor : BgDescriptor} {inodesPerBlock inodeIndex : Nat}

/-- The sizes in question: powers of two, from the size of the struct up to a whole block. -/
def InodeSize (size : Nat) : Prop := ∃ k, 7 ≤ k ∧ k ≤ 12 ∧ size = 2 ^ k

/-- A block is a number of inodes of such a size. -/
theorem InodeSize.mul_div {size : Nat} (h : InodeSize size) :
    sizeofInode ≤ size ∧ blockSize / size * size = blockSize := by
  obtain ⟨k, hmin, hmax, rfl⟩ := h
  have hpow : blockSize = 2 ^ 12 := rfl
  have hstruct : sizeofInode = 2 ^ 7 := rfl
  rw [hstruct, hpow]
  exact ⟨Nat.pow_le_pow_right (by norm_num) hmin,
    Nat.div_mul_cancel (Nat.pow_dvd_pow 2 hmax)⟩

/-- The place of an inode, by blocks. -/
theorem inodePlace_eq (bgDescriptor : BgDescriptor) (inodeIndex : Nat)
    (hblock : inodesPerBlock * superblock.sInodeSize.toNat = blockSize) :
    inodePlace superblock bgDescriptor inodeIndex =
      blockSize * (bgDescriptor.bgInodeTable.toNat + (inodeIndex - 1) / inodesPerBlock)
        + (inodeIndex - 1) % inodesPerBlock * superblock.sInodeSize.toNat := by
  have hindex := Nat.div_add_mod (inodeIndex - 1) inodesPerBlock
  calc inodePlace superblock bgDescriptor inodeIndex
      = blockSize * bgDescriptor.bgInodeTable.toNat
          + (inodesPerBlock * ((inodeIndex - 1) / inodesPerBlock)
            + (inodeIndex - 1) % inodesPerBlock) * superblock.sInodeSize.toNat := by
        rw [hindex, inodePlace]
    _ = blockSize * bgDescriptor.bgInodeTable.toNat
          + inodesPerBlock * superblock.sInodeSize.toNat * ((inodeIndex - 1) / inodesPerBlock)
          + (inodeIndex - 1) % inodesPerBlock * superblock.sInodeSize.toNat := by ring
    _ = _ := by rw [hblock, Nat.mul_add]

variable (hsize : sizeofInode ≤ superblock.sInodeSize.toNat)
  (hblock : inodesPerBlock * superblock.sInodeSize.toNat = blockSize)
include hsize hblock

/-- The places in a block, by either stride, are inside it. -/
theorem stride_le (inodeIndex : Nat) :
    sizeofInode * ((inodeIndex - 1) % inodesPerBlock) + sizeofInode ≤ blockSize ∧
      (inodeIndex - 1) % inodesPerBlock * superblock.sInodeSize.toNat + sizeofInode
        ≤ blockSize := by
  have hpos : 0 < inodesPerBlock := by
    apply Nat.pos_of_ne_zero
    rintro rfl
    simp [blockSize] at hblock
  have hlt : (inodeIndex - 1) % inodesPerBlock + 1 ≤ inodesPerBlock := Nat.mod_lt _ hpos
  have hstride := Nat.mul_le_mul hlt (le_refl superblock.sInodeSize.toNat)
  have hstride' := Nat.mul_le_mul hlt hsize
  rw [hblock, Nat.add_mul, Nat.one_mul] at hstride
  rw [hblock, Nat.add_mul, Nat.one_mul, Nat.mul_comm] at hstride'
  exact ⟨hstride', by omega⟩

/-- The place that is read is never in front of the inode. -/
theorem FindsInode.place_le (h : FindsInode superblock bgDescriptor inodeIndex)
    (hmin : 1 ≤ inodeIndex) (hint : inodeIndex < 2 ^ 31) :
    ∃ n : Nat, n < 2 ^ 19 ∧
      n ≤ bgDescriptor.bgInodeTable.toNat + (inodeIndex - 1) / inodesPerBlock ∧
      inodePlace superblock bgDescriptor inodeIndex
        ≤ blockSize * n + sizeofInode * ((inodeIndex - 1) % inodesPerBlock) := by
  obtain ⟨inode, device', hget, hbytes⟩ := h
    (marked (inodePlace superblock bgDescriptor inodeIndex)) startDevice (by simp [marked])
  rw [bufferGetInode_eq_ok_of_pos hsize hblock hmin hint] at hget
  obtain ⟨hread, hinode⟩ := hget
  have hle := toInt_add_ofNat_le bgDescriptor.bgInodeTable ((inodeIndex - 1) / inodesPerBlock)
  generalize (bgDescriptor.bgInodeTable
    + BitVec.ofNat 32 ((inodeIndex - 1) / inodesPerBlock)).toInt = blockNumber at hread hle
  have hrange : -2 ^ 19 ≤ blockNumber ∧ blockNumber < 2 ^ 19 := by
    by_contra hout
    rw [bufferReadBlock_overflow (by omega)] at hread
    cases hread
  obtain ⟨device'', hread', hbuffer⟩ := bufferReadBlock_startDevice hrange.1 hrange.2
  rw [hread] at hread'
  cases hread'
  refine ⟨blockNumber.toNat, by omega, Int.toNat_le.mpr hle, ?_⟩
  by_contra hlt
  -- the byte that is taken for the first one of the inode lies in front of it
  have hoff : sizeofInode * ((inodeIndex - 1) % inodesPerBlock) < blockSize := by
    have hfits := (stride_le hsize hblock inodeIndex).1
    simp only [sizeofInode] at hfits ⊢
    omega
  have hzero := getElem?_marked hoff (not_le.mp hlt)
  rw [marked_drop, hinode, hbuffer] at hbytes
  have hfirst := congrArg (·[0]?) hbytes
  simp only [List.getElem?_take_of_lt (show 0 < sizeofInode by decide), List.getElem?_drop,
    Nat.add_zero, hzero] at hfirst
  exact absurd hfirst (by decide)

end Strides

/-- **Lookup of inodes of any size**: the inode is found on every image exactly if its size is that
of the struct or it starts a block, and the offset of its block is an int. -/
theorem inode_found_iff (superblock : Superblock) (bgDescriptor : BgDescriptor) (inodeIndex : Nat)
    (hsize : InodeSize superblock.sInodeSize.toNat)
    (hindex : 1 ≤ inodeIndex ∧ inodeIndex ≤ superblock.sInodesPerGroup.toNat)
    (hint : inodeIndex < 2 ^ 31) :
    FindsInode superblock bgDescriptor inodeIndex ↔
      (superblock.sInodeSize.toNat = sizeofInode ∨
        (inodeIndex - 1) % (blockSize / superblock.sInodeSize.toNat) = 0) ∧
      bgDescriptor.bgInodeTable.toNat
        + (inodeIndex - 1) / (blockSize / superblock.sInodeSize.toNat) < 2 ^ 19 := by
  obtain ⟨hstruct, hblock⟩ := hsize.mul_div
  generalize blockSize / superblock.sInodeSize.toNat = inodesPerBlock at hblock ⊢
  have hplace := inodePlace_eq bgDescriptor inodeIndex hblock
  obtain ⟨hfits, hfits'⟩ := stride_le hstruct hblock inodeIndex
  constructor
  · intro h
    obtain ⟨n, hlt, hle, hread⟩ := h.place_le hstruct hblock hindex.1 hint
    rw [hplace] at hread
    -- the place that is read is in the block of the inode, and there not in front of it
    have hsame : bgDescriptor.bgInodeTable.toNat + (inodeIndex - 1) / inodesPerBlock = n := by
      simp only [blockSize, sizeofInode] at hread hfits
      omega
    rw [hsame, Nat.add_le_add_iff_left, Nat.mul_comm] at hread
    refine ⟨?_, hsame ▸ hlt⟩
    rcases Nat.eq_zero_or_pos ((inodeIndex - 1) % inodesPerBlock) with hzero | hpos
    · exact .inr hzero
    · exact .inl (le_antisymm (Nat.le_of_mul_le_mul_right hread hpos) hstruct)
  · rintro ⟨hstride, hlt⟩ image device himage
    obtain ⟨device', hread, hbuffer⟩ := bufferReadBlock_of_lt image hlt device
    rw [← toInt_add_ofNat (by omega)] at hread
    have hslot : sizeofInode * ((inodeIndex - 1) % inodesPerBlock)
        = (inodeIndex - 1) % inodesPerBlock * superblock.sInodeSize.toNat := by
      rcases hstride with hstride | hstride
      · rw [hstride, Nat.mul_comm]
      · rw [hstride, Nat.mul_zero, Nat.zero_mul]
    rw [hplace] at himage ⊢
    have hbytes := take_overwrite_block device.buffer himage hfits'
    rw [← hbuffer, ← hslot] at hbytes
    have hlength : ((device'.buffer.drop
        (sizeofInode * ((inodeIndex - 1) % inodesPerBlock))).take sizeofInode).length = 128 := by
      rw [List.length_take, List.length_drop, device'.length_buffer]
      simp only [sizeofInode] at hfits ⊢
      omega
    exact ⟨⟨_, hlength⟩, device',
      (bufferGetInode_eq_ok_of_pos hstruct hblock hindex.1 hint).mpr ⟨hread, rfl⟩,
      hslot ▸ hbytes⟩

/-- The root directory of a file system with inodes of 128 bytes, in a table from block 4 on. -/
theorem root_inode_found :
    FindsInode ⟨16, 16, 128⟩ ⟨4⟩ 2 ↔
      ((128 : BitVec 16).toNat = sizeofInode ∨
        (2 - 1) % (blockSize / (128 : BitVec 16).toNat) = 0) ∧
      (4 : BitVec 32).toNat + (2 - 1) / (blockSize / (128 : BitVec 16).toNat) < 2 ^ 19 :=
  inode_found_iff ⟨16, 16, 128⟩ ⟨4⟩ 2 ⟨7, le_rfl, by decide, rfl⟩ (by decide) (by decide)

/-- With 256 bytes it is not found. -/
theorem root_inode_not_found : ¬ FindsInode ⟨16, 16, 256⟩ ⟨4⟩ 2 := by
  intro h
  have hblock : 16 * (256 : BitVec 16).toNat = blockSize := rfl
  obtain ⟨n, -, hle, hplace⟩ := h.place_le (by decide) hblock (by decide) (by decide)
  have hlookup : inodePlace ⟨16, 16, 256⟩ ⟨4⟩ 2 = 4096 * 4 + 256 := rfl
  have htable : (4 : BitVec 32).toNat + (2 - 1) / 16 = 4 := rfl
  rw [hlookup] at hplace
  simp only [htable, blockSize, sizeofInode] at hle hplace
  omega

end Cs342.Ext2
