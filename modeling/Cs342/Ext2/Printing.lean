import Mathlib
import Cs342.Ext2.InodeTable

/-!
# What is printed of an image (`print_superblock`, `print_inode`)

The texts that the program prints of the superblock, of an inode and of a directory entry. Fields
are printed as ints, whatever their own type. Only the size of a block is calculated, and it has to
be an int (`shiftKibi`).
-/

namespace Cs342.Ext2

open ByteBuffer

/-- `printf`, once for each of these texts. -/
def Device.print (texts : List String) (device : Device) : Device :=
  { device with printed := device.printed ++ texts }

theorem Device.printed_print (texts : List String) (device : Device) :
    (device.print texts).printed = device.printed ++ texts := rfl

@[simp] theorem Device.print_print (texts texts' : List String) (device : Device) :
    (device.print texts).print texts' = device.print (texts ++ texts') := by
  simp only [Device.print, List.append_assoc]

/-- A label and an int: `"label: %d\n"`. -/
def field (label : String) (value : Int) : String := label ++ ": " ++ toString value ++ "\n"

/-! ## The superblock -/

/-- `struct ext2_superblock_t`, with the fields that are printed. -/
structure SuperblockInfo where
  sInodesCount : BitVec 32
  sBlocksCount : BitVec 32
  sFreeBlocksCount : BitVec 32
  sFreeInodesCount : BitVec 32
  sFirstDataBlock : BitVec 32
  sLogBlockSize : BitVec 32
  sBlocksPerGroup : BitVec 32
  sInodesPerGroup : BitVec 32
  sMntCount : BitVec 16
  sMaxMntCount : BitVec 16

/-- The same copy as `Superblock.load`. -/
def SuperblockInfo.load (buf : Bytes) (off : Nat) : Outcome SuperblockInfo := do
  let bytes ← ByteBuffer.load buf off sizeofSuperblock
  return {
    sInodesCount := ← loadInt bytes 0
    sBlocksCount := ← loadInt bytes 4
    sFreeBlocksCount := ← loadInt bytes 12
    sFreeInodesCount := ← loadInt bytes 16
    sFirstDataBlock := ← loadInt bytes 20
    sLogBlockSize := ← loadInt bytes 24
    sBlocksPerGroup := ← loadInt bytes 32
    sInodesPerGroup := ← loadInt bytes 40
    sMntCount := ← loadShort bytes 52
    sMaxMntCount := ← loadShort bytes 54 }

/-- `1024 << n`, an int. -/
def shiftKibi (n : Nat) : Outcome Int := if n < 21 then .ok (1024 * 2 ^ n) else .undefined

/-- `print_superblock`. -/
def printSuperblock (superblock : SuperblockInfo) : Outcome (List String) := do
  let size ← shiftKibi superblock.sLogBlockSize.toNat
  return [
    field "inodes count" superblock.sInodesCount.toInt,
    field "free inodes count" superblock.sFreeInodesCount.toInt,
    field "block size" size,
    field "blocks count" superblock.sBlocksCount.toInt,
    field "free blocks count" superblock.sFreeBlocksCount.toInt,
    field "first data block" superblock.sFirstDataBlock.toInt,
    field "blocks per group" superblock.sBlocksPerGroup.toInt,
    field "inodes per group" superblock.sInodesPerGroup.toInt,
    field "mount count" superblock.sMntCount.toNat,
    field "max mount count" superblock.sMaxMntCount.toNat]

/-! ## Times -/

/-- `struct tm`, with the fields that are printed. -/
structure Tm where
  tmHour : Nat
  tmMin : Nat
  tmSec : Nat
  tmMday : Nat
  tmMon : Nat
  deriving DecidableEq

def isLeapYear (year : Nat) : Bool := year % 4 = 0 && (year % 100 ≠ 0 || year % 400 = 0)

/-- The lengths of the months, in days. -/
def monthLengths (year : Nat) : List Nat :=
  [31, if isLeapYear year then 29 else 28, 31, 30, 31, 30, 31, 31, 30, 31, 30, 31]

/-- The year in which a day falls that comes so many days after the start of a year, and the day of
that year. -/
def yearOfDay : Nat → Nat → Nat → Nat × Nat
  | 0, year, day => (year, day)
  | fuel + 1, year, day =>
    let yearLength := (monthLengths year).sum
    if day < yearLength then (year, day) else yearOfDay fuel (year + 1) (day - yearLength)

/-- The month of a day of the year, and the day of that month, both from 0 on. -/
def monthOfDay : List Nat → Nat → Nat × Nat
  | [], day => (0, day)
  | monthLength :: months, day =>
    if day < monthLength then (0, day)
    else
      let (month, day) := monthOfDay months (day - monthLength)
      (month + 1, day)

/-- `gmtime`, of a number of seconds that is not negative. -/
def gmtime (time : Nat) : Tm :=
  let days := time / 86400
  let (year, day) := yearOfDay days 1970 days
  let (month, day) := monthOfDay (monthLengths year) day
  { tmHour := time % 86400 / 3600
    tmMin := time / 60 % 60
    tmSec := time % 60
    tmMday := day + 1
    tmMon := month }

/-- One second before March 2000. -/
example : gmtime 951868799 = ⟨23, 59, 59, 29, 1⟩ := by decide +kernel

/-- `"%02d"`. -/
def twoDigits (n : Nat) : String := if n < 10 then "0" ++ toString n else toString n

/-! ## Inodes -/

/-- `print_inode`: `i_blocks` is declared as a short, and months are counted from 0 on. -/
def printInode (inode : Inode) : Outcome (List String) := do
  let iSize ← inode.iSize
  let iUid ← loadShort inode.bytes 2
  let iGid ← loadShort inode.bytes 24
  let iLinksCount ← loadShort inode.bytes 26
  let iBlocks ← loadShort inode.bytes 28
  let iBlock ← inode.iBlock 0
  let iGeneration ← loadInt inode.bytes 100
  let iMode ← loadShort inode.bytes 0
  let iFlags ← loadInt inode.bytes 32
  let iCtime ← loadInt inode.bytes 12
  let ctimeTm := gmtime iCtime.toNat
  return [
    field "size" iSize.toInt,
    field "uid" iUid.toNat,
    field "gid" iGid.toNat,
    field "links count" iLinksCount.toNat,
    field "blocks" iBlocks.toNat,
    field "first block" iBlock.toInt,
    field "generation" iGeneration.toInt,
    field "mode" iMode.toNat,
    field "flags" iFlags.toInt,
    "ctime: " ++ twoDigits ctimeTm.tmHour ++ ":" ++ twoDigits ctimeTm.tmMin ++ ":"
      ++ twoDigits ctimeTm.tmSec ++ " on " ++ toString ctimeTm.tmMday ++ "/"
      ++ toString ctimeTm.tmMon ++ "\n"]

/-! ## Directory entries -/

/-- Bytes as a text, one character for each. -/
def textOf (bytes : Bytes) : String := String.ofList (bytes.map Char.ofUInt8)

/-- `"%.*s"` with the length of the name: no more bytes than that, and none from a zero on. -/
def Entry.shownName (entry : Entry) : String := textOf (entry.name.takeWhile (· ≠ 0))

/-- What `print_root_directory_entries` prints for each node. -/
def printDirEntry (dirEntry : DirEntry) : List String := [dirEntry.entry.shownName ++ "\n"]

end Cs342.Ext2
