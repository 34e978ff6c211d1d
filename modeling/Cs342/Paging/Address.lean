import Mathlib

/-!
# Virtual addresses (`proj03/src/paging.c`)

A 32-bit virtual address is split into two table indices of ten bits and a page offset of twelve;
the masks and shifts of the source are those of C ints (`getLogicalAddress_eq`). The region check
compares addresses as signed ints.
-/

namespace Cs342.Paging

/-- `PAGE_TABLE_LENGTH`. -/
def pageTableLength : Nat := 1024

/-- `OUTER_INDEX_MASK`, `INNER_INDEX_MASK` and `PAGE_OFFSET_MASK`. -/
def outerIndexMask : BitVec 32 := 0xffc00000

def innerIndexMask : BitVec 32 := 0x003ff000

def pageOffsetMask : BitVec 32 := 0x00000fff

/-- `struct logical_address`. -/
structure LogicalAddress where
  outerIndex : Nat
  innerIndex : Nat
  pageOffset : Nat

/-- The outer mask is an unsigned constant, so the first shift is a logical one; the others act on
ints that are not negative. -/
def getLogicalAddress (virtAddr : BitVec 32) : LogicalAddress where
  outerIndex := ((virtAddr &&& outerIndexMask) >>> 22).toNat
  innerIndex := ((virtAddr &&& innerIndexMask).sshiftRight 12).toNat
  pageOffset := (virtAddr &&& pageOffsetMask).toNat

/-- `struct virtual_regions`, one node of the list. -/
structure VirtualRegion where
  base : BitVec 32
  pastEnd : BitVec 32
  deriving DecidableEq

def isVirtualAddressInRange : List VirtualRegion → BitVec 32 → Bool
  | [], _ => false
  | node :: nodes, virtualAddress =>
    if node.base.toInt ≤ virtualAddress.toInt ∧ virtualAddress.toInt < node.pastEnd.toInt then true
    else isVirtualAddressInRange nodes virtualAddress

theorem isVirtualAddressInRange_iff {regions : List VirtualRegion} {address : BitVec 32} :
    isVirtualAddressInRange regions address = true ↔ ∃ region ∈ regions,
      region.base.toInt ≤ address.toInt ∧ address.toInt < region.pastEnd.toInt := by
  induction regions with
  | nil => simp [isVirtualAddressInRange]
  | cons region regions ih =>
      rw [isVirtualAddressInRange, List.exists_mem_cons_iff, ← ih]
      split
      · next h => simp [h]
      · next h => simp [h]

/-- `get_physical_address`, as an int that does not overflow for the frames of the simulation. -/
def getPhysicalAddress (frameIndex : Int) (frameOffset : Nat) : Int :=
  frameIndex * 2 ^ 12 + frameOffset

/-! ## The split as arithmetic -/

/-- The page of an address: its two table indices. -/
def pageOf (virtAddr : BitVec 32) : Nat × Nat :=
  (virtAddr.toNat / 2 ^ 22, virtAddr.toNat / 2 ^ 12 % 2 ^ 10)

theorem getLogicalAddress_eq (virtAddr : BitVec 32) :
    getLogicalAddress virtAddr
      = { outerIndex := (pageOf virtAddr).1
          innerIndex := (pageOf virtAddr).2
          pageOffset := virtAddr.toNat % 2 ^ 12 } := by
  have hlt := virtAddr.isLt
  have houter : ((virtAddr &&& outerIndexMask) >>> 22).toNat = virtAddr.toNat / 2 ^ 22 := by
    have hmask : outerIndexMask.toNat >>> 22 = 2 ^ 10 - 1 := by decide
    rw [BitVec.toNat_ushiftRight, BitVec.toNat_and, Nat.shiftRight_and_distrib, hmask,
      Nat.and_two_pow_sub_one_eq_mod, Nat.shiftRight_eq_div_pow]
    omega
  have hinner : ((virtAddr &&& innerIndexMask).sshiftRight 12).toNat
      = virtAddr.toNat / 2 ^ 12 % 2 ^ 10 := by
    have hmask : innerIndexMask.toNat >>> 12 = 2 ^ 10 - 1 := by decide
    have hsign : (virtAddr &&& innerIndexMask).msb = false := by
      rw [BitVec.msb_and, show innerIndexMask.msb = false from by decide, Bool.and_false]
    rw [BitVec.sshiftRight_eq_of_msb_false hsign, BitVec.toNat_ushiftRight, BitVec.toNat_and,
      Nat.shiftRight_and_distrib, hmask, Nat.and_two_pow_sub_one_eq_mod,
      Nat.shiftRight_eq_div_pow]
  have hoffset : (virtAddr &&& pageOffsetMask).toNat = virtAddr.toNat % 2 ^ 12 := by
    have hmask : pageOffsetMask.toNat = 2 ^ 12 - 1 := by decide
    rw [BitVec.toNat_and, hmask, Nat.and_two_pow_sub_one_eq_mod]
  rw [getLogicalAddress, houter, hinner, hoffset]
  rfl

theorem pageOf_lt (virtAddr : BitVec 32) :
    (pageOf virtAddr).1 < pageTableLength ∧ (pageOf virtAddr).2 < pageTableLength := by
  have := virtAddr.isLt
  simp only [pageOf, pageTableLength]
  omega

/-- An address is its page and its offset. -/
theorem eq_of_pageOf_eq {a b : BitVec 32} (hpage : pageOf a = pageOf b)
    (hoffset : a.toNat % 2 ^ 12 = b.toNat % 2 ^ 12) : a = b := by
  apply BitVec.eq_of_toNat_eq
  have ha := a.isLt
  have hb := b.isLt
  simp only [pageOf, Prod.mk.injEq] at hpage
  omega

end Cs342.Paging
