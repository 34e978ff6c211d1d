import Mathlib
import Cs342.Ext2.Printing

/-!
# What should be printed of an image

The texts that the bytes of an image stand for, number by number: of the superblock, of the names of
its root directory, and of their inodes (`Report`). A time is a day of the calendar and the time of
that day (`IsDate`). The texts of `print_superblock`, `print_inode` and of the loop over the names
are these (`printSuperblock_eq`, `printInode_eq`, `flatMap_printDirEntry`).
-/

namespace Cs342.Ext2

open ByteBuffer

/-! ## The calendar -/

/-- A year with 29 days in February. -/
def Leap (year : Nat) : Prop := 4 ∣ year ∧ (100 ∣ year → 400 ∣ year)

instance : DecidablePred Leap := fun year =>
  inferInstanceAs (Decidable (4 ∣ year ∧ (100 ∣ year → 400 ∣ year)))

/-- The days of a year. -/
def yearDays (year : Nat) : Nat := if Leap year then 366 else 365

/-- The days of a month, with January as month 0. -/
def monthDays (year month : Nat) : Nat :=
  if month = 1 then if Leap year then 29 else 28
  else if month ∈ [3, 5, 8, 10] then 30 else 31

/-- The day that comes `days` days after the first one of 1970: its year, month and place in the
month, the last two from 0 on. -/
structure IsDate (days year month day : Nat) : Prop where
  since : 1970 ≤ year
  month_lt : month < 12
  day_lt : day < monthDays year month
  days_eq : days = (∑ y ∈ Finset.Ico 1970 year, yearDays y)
    + (∑ m ∈ Finset.range month, monthDays year m) + day

theorem yearDays_pos (year : Nat) : 0 < yearDays year := by
  unfold yearDays
  split <;> decide

theorem isLeapYear_eq (year : Nat) : isLeapYear year = decide (Leap year) := by
  rw [isLeapYear, Bool.eq_iff_iff]
  simp only [Bool.and_eq_true, Bool.or_eq_true, decide_eq_true_eq, Leap, Nat.dvd_iff_mod_eq_zero]
  omega

theorem monthLengths_eq (year : Nat) :
    monthLengths year = (List.range 12).map (monthDays year) := by
  rw [monthLengths, isLeapYear_eq]
  by_cases hleap : Leap year
  · simp [List.range_succ, monthDays, hleap]
  · simp [List.range_succ, monthDays, hleap]

theorem sum_monthLengths (year : Nat) : (monthLengths year).sum = yearDays year := by
  rw [monthLengths, isLeapYear_eq, yearDays]
  by_cases hleap : Leap year
  · simp [hleap]
  · simp [hleap]

/-- The years that pass before a day. -/
theorem yearOfDay_spec {fuel year day : Nat} (h : day ≤ fuel) :
    year ≤ (yearOfDay fuel year day).1 ∧
      (yearOfDay fuel year day).2 < yearDays (yearOfDay fuel year day).1 ∧
      day = (∑ y ∈ Finset.Ico year (yearOfDay fuel year day).1, yearDays y)
        + (yearOfDay fuel year day).2 := by
  induction fuel generalizing year day with
  | zero =>
      rw [yearOfDay, Nat.le_zero.mp h, Finset.Ico_self, Finset.sum_empty]
      exact ⟨le_rfl, yearDays_pos year, rfl⟩
  | succ fuel ih =>
      have hpos := yearDays_pos year
      simp only [yearOfDay, sum_monthLengths]
      split
      · next hlt =>
          rw [Finset.Ico_self, Finset.sum_empty]
          exact ⟨le_rfl, hlt, (Nat.zero_add day).symm⟩
      · next hge =>
          have hfuel : day - yearDays year ≤ fuel := by omega
          obtain ⟨hle, hday, hsum⟩ := @ih (year + 1) _ hfuel
          refine ⟨by omega, hday, ?_⟩
          rw [Finset.sum_eq_sum_Ico_succ_bot (by omega)]
          omega

/-- The months that pass before a day of the year. -/
theorem monthOfDay_spec {months : List Nat} {day : Nat} (h : day < months.sum) :
    ∃ hlt : (monthOfDay months day).1 < months.length,
      (monthOfDay months day).2 < months[(monthOfDay months day).1] ∧
      day = (months.take (monthOfDay months day).1).sum + (monthOfDay months day).2 := by
  induction months generalizing day with
  | nil => cases h
  | cons monthLength months ih =>
      rw [List.sum_cons] at h
      by_cases hlt : day < monthLength
      · simp [monthOfDay, hlt]
      · have hrest : day - monthLength < months.sum := by omega
        obtain ⟨hmonth, hday, hsum⟩ := ih hrest
        simp only [monthOfDay, if_neg hlt, List.length_cons, List.getElem_cons_succ,
          List.take_succ_cons, List.sum_cons]
        exact ⟨by omega, hday, by omega⟩

/-- **`gmtime`**: the day is one of the calendar. -/
theorem gmtime_spec (time : Nat) : ∃ year day,
    IsDate (time / 86400) year (gmtime time).tmMon day ∧ (gmtime time).tmMday = day + 1 := by
  obtain ⟨hyear, hday, hdays⟩ := @yearOfDay_spec _ 1970 _ (le_refl (time / 86400))
  rcases hyearOfDay : yearOfDay (time / 86400) 1970 (time / 86400) with ⟨year, dayOfYear⟩
  simp only [hyearOfDay] at hyear hday hdays
  rw [← sum_monthLengths] at hday
  obtain ⟨hmonth, hday', hsum⟩ := monthOfDay_spec hday
  simp only [gmtime, hyearOfDay]
  rcases hmonthOfDay : monthOfDay (monthLengths year) dayOfYear with ⟨month, day⟩
  simp only [hmonthOfDay] at hmonth hday' hsum
  simp only [monthLengths_eq, List.length_map, List.length_range, List.getElem_map,
    List.getElem_range] at hmonth hday' hsum
  rw [← List.map_take, List.take_range, min_eq_left hmonth.le] at hsum
  have hmonths : ((List.range month).map (monthDays year)).sum
      = ∑ m ∈ Finset.range month, monthDays year m := rfl
  have hdate : time / 86400 = (∑ y ∈ Finset.Ico 1970 year, yearDays y)
      + (∑ m ∈ Finset.range month, monthDays year m) + day := by omega
  exact ⟨year, day, ⟨hyear, hmonth, hday', hdate⟩, rfl⟩

/-! ## The texts -/

/-- A 32-bit int of the image. -/
def intAt (image : Bytes) (place : Nat) : Int := (numberAt image place 4 : Int).bmod (2 ^ 32)

/-- The numbers of the superblock, which starts at byte 1024. -/
def superblockReport (image : Bytes) : List String := [
  "inodes count: " ++ toString (intAt image 1024) ++ "\n",
  "free inodes count: " ++ toString (intAt image 1040) ++ "\n",
  "block size: " ++ toString (2 ^ (10 + numberAt image 1048 4)) ++ "\n",
  "blocks count: " ++ toString (intAt image 1028) ++ "\n",
  "free blocks count: " ++ toString (intAt image 1036) ++ "\n",
  "first data block: " ++ toString (intAt image 1044) ++ "\n",
  "blocks per group: " ++ toString (intAt image 1056) ++ "\n",
  "inodes per group: " ++ toString (intAt image 1064) ++ "\n",
  "mount count: " ++ toString (numberAt image 1076 2) ++ "\n",
  "max mount count: " ++ toString (numberAt image 1078 2) ++ "\n"]

/-- A number below a hundred, in two digits. -/
def clockText (n : Nat) : String := toString (n / 10) ++ toString (n % 10)

/-- The numbers of the inode at a place of the image, and the day and time at which it was changed:
days are counted from 1 on, months from 0 on. -/
def InodeReport (image : Bytes) (place : Nat) (texts : List String) : Prop :=
  ∃ time year month day, numberAt image (place + 12) 4 = time ∧
    IsDate (time / 86400) year month day ∧ texts = [
      "size: " ++ toString (intAt image (place + 4)) ++ "\n",
      "uid: " ++ toString (numberAt image (place + 2) 2) ++ "\n",
      "gid: " ++ toString (numberAt image (place + 24) 2) ++ "\n",
      "links count: " ++ toString (numberAt image (place + 26) 2) ++ "\n",
      "blocks: " ++ toString (numberAt image (place + 28) 2) ++ "\n",
      "first block: " ++ toString (intAt image (place + 40)) ++ "\n",
      "generation: " ++ toString (intAt image (place + 100)) ++ "\n",
      "mode: " ++ toString (numberAt image place 2) ++ "\n",
      "flags: " ++ toString (intAt image (place + 32)) ++ "\n",
      "ctime: " ++ clockText (time / 3600 % 24) ++ ":" ++ clockText (time / 60 % 60) ++ ":"
        ++ clockText (time % 60) ++ " on " ++ toString (day + 1) ++ "/" ++ toString month ++ "\n"]

/-- The bytes of a name up to a zero, as characters. -/
def nameText (name : Bytes) : String := String.ofList ((name.takeWhile (· ≠ 0)).map Char.ofUInt8)

/-- The place of an inode in the table that the first group descriptor points to. -/
def storedPlace (image : Bytes) (k : Nat) : Nat := 4096 * numberAt image 4104 4 + 128 * (k - 1)

/-- A record of the directory and the inode that is stored under its number. -/
def EntryReport (image : Bytes) (r : Record) (texts : List String) : Prop :=
  ∃ inode, InodeReport image (storedPlace image r.inode.toNat) inode ∧
    texts = ("---- inode for file '" ++ nameText r.name ++ "'\n") :: (inode ++ ["\n"])

/-- The superblock, the names of the listed records, and their inodes. -/
def Report (image : Bytes) (listed : List Record) (texts : List String) : Prop :=
  ∃ inodes, List.Forall₂ (EntryReport image) listed inodes ∧
    texts = ["-- superblock info\n"] ++ superblockReport image
      ++ ["\n", "-- root directory entries\n"] ++ listed.map (fun r => nameText r.name ++ "\n")
      ++ ["\n", "-- root directory inodes\n"] ++ inodes.flatten

/-! ## The code prints them -/

section Printed

variable {image : Bytes}

theorem toInt_numberAt (place : Nat) :
    (BitVec.ofNat 32 (numberAt image place intSize)).toInt = intAt image place :=
  BitVec.toInt_ofNat' _

theorem toNat_numberAt (place : Nat) :
    (BitVec.ofNat 32 (numberAt image place intSize)).toNat = numberAt image place 4 := by
  rw [BitVec.toNat_ofNat]
  exact Nat.mod_eq_of_lt (numberAt_lt image place 4)

theorem toNat_numberAt_short (place : Nat) :
    (BitVec.ofNat 16 (numberAt image place 2)).toNat = numberAt image place 2 := by
  rw [BitVec.toNat_ofNat]
  exact Nat.mod_eq_of_lt (numberAt_lt image place 2)

/-- The ints of a struct that is copied from the image. -/
theorem loadInt_part {place len off : Nat} (himage : place + len ≤ image.length)
    (h : off + intSize ≤ len) : loadInt ((image.drop place).take len) off
      = .ok (BitVec.ofNat 32 (numberAt image (place + off) intSize)) := by
  have hlength : ((image.drop place).take len).length = len := by
    rw [List.length_take, List.length_drop]
    omega
  rw [loadInt_eq (hlength.symm ▸ h), numberAt_part h]

theorem loadShort_part {place len off : Nat} (himage : place + len ≤ image.length)
    (h : off + 2 ≤ len) : loadShort ((image.drop place).take len) off
      = .ok (BitVec.ofNat 16 (numberAt image (place + off) 2)) := by
  have hlength : ((image.drop place).take len).length = len := by
    rw [List.length_take, List.length_drop]
    omega
  rw [loadShort_eq (hlength.symm ▸ h), numberAt_part h]

/-- **`print_superblock`**, for a block size that is an int. -/
theorem printSuperblock_eq (himage : 2048 ≤ image.length) (hsize : numberAt image 1048 4 < 21) :
    ∃ superblockInfo, SuperblockInfo.load image 1024 = .ok superblockInfo ∧
      printSuperblock superblockInfo = .ok (superblockReport image) := by
  have hload : ByteBuffer.load image 1024 sizeofSuperblock
      = .ok ((image.drop 1024).take sizeofSuperblock) := if_pos himage
  have hint : ∀ off, off + intSize ≤ sizeofSuperblock → loadInt
      ((image.drop 1024).take sizeofSuperblock) off
        = .ok (BitVec.ofNat 32 (numberAt image (1024 + off) intSize)) :=
    fun off h => loadInt_part himage h
  have hshort : ∀ off, off + 2 ≤ sizeofSuperblock → loadShort
      ((image.drop 1024).take sizeofSuperblock) off
        = .ok (BitVec.ofNat 16 (numberAt image (1024 + off) 2)) :=
    fun off h => loadShort_part himage h
  rw [SuperblockInfo.load, hload, Outcome.ok_bind]
  simp (disch := decide) only [hint, hshort, Outcome.ok_bind]
  refine ⟨_, rfl, ?_⟩
  have hshift : shiftKibi (numberAt image 1048 4)
      = .ok ((2 ^ (10 + numberAt image 1048 4) : Nat)) := by
    rw [shiftKibi, if_pos hsize]
    push_cast [pow_add]
    rfl
  simp only [printSuperblock, toNat_numberAt, toInt_numberAt, toNat_numberAt_short, hshift,
    Outcome.ok_bind]
  rfl

theorem twoDigits_eq {n : Nat} (h : n < 100) : twoDigits n = clockText n := by
  revert n
  decide

/-- **`print_inode`**, for an inode that has been copied from the image. -/
theorem printInode_eq {place : Nat} (himage : place + 128 ≤ image.length) {inode : Inode}
    (hbytes : inode.bytes = (image.drop place).take 128) :
    ∃ texts, printInode inode = .ok texts ∧ InodeReport image place texts := by
  have hint : ∀ off, off + intSize ≤ 128 → loadInt inode.bytes off
      = .ok (BitVec.ofNat 32 (numberAt image (place + off) intSize)) := by
    intro off h
    rw [hbytes, loadInt_part himage h]
  have hshort : ∀ off, off + 2 ≤ 128 → loadShort inode.bytes off
      = .ok (BitVec.ofNat 16 (numberAt image (place + off) 2)) := by
    intro off h
    rw [hbytes, loadShort_part himage h]
  obtain ⟨year, day, hdate, hday⟩ := gmtime_spec (numberAt image (place + 12) 4)
  have hhour : numberAt image (place + 12) 4 % 86400 / 3600
      = numberAt image (place + 12) 4 / 3600 % 24 := by omega
  have hfirst : inode.iBlock 0
      = .ok (BitVec.ofNat 32 (numberAt image (place + 40) intSize)) := hint 40 (by decide)
  simp (disch := decide) only [printInode, Inode.iSize, hint, hshort, hfirst, Outcome.ok_bind]
  refine ⟨_, rfl, _, year, _, day, rfl, hdate, ?_⟩
  simp only [toNat_numberAt, toInt_numberAt, toNat_numberAt_short, hday]
  simp only [gmtime, hhour]
  rw [twoDigits_eq (by omega), twoDigits_eq (by omega), twoDigits_eq (by omega)]
  rfl

/-- All fields of an inode are inside of it, so it can be printed. -/
theorem exists_printInode (inode : Inode) : ∃ texts, printInode inode = .ok texts := by
  have hlength := inode.length_bytes
  have hbytes : inode.bytes = (inode.bytes.drop 0).take 128 := by
    rw [List.drop_zero, List.take_of_length_le hlength.le]
  obtain ⟨texts, htexts, -⟩ := printInode_eq (by omega) hbytes
  exact ⟨texts, htexts⟩

end Printed

theorem shownName_eq {dirEntry : DirEntry} {r : Record} (h : dirEntry.entry = r.entry) :
    dirEntry.entry.shownName = nameText r.name := by
  rw [h]
  rfl

/-- **The names** of the entries. -/
theorem flatMap_printDirEntry (dirEntries : List DirEntry) :
    dirEntries.flatMap printDirEntry = dirEntries.map fun dirEntry =>
      nameText (dirEntry.fileName.take dirEntry.nameLen.toNat) ++ "\n" := by
  induction dirEntries with
  | nil => rfl
  | cons dirEntry dirEntries ih =>
      rw [List.flatMap_cons, ih]
      rfl

/-- The names of the records that they are copies of. -/
theorem flatMap_printDirEntry_of_entries {dirEntries : List DirEntry} {listed : List Record}
    (h : List.Forall₂ (fun dirEntry r => DirEntry.entry dirEntry = Record.entry r) dirEntries
      listed) :
    dirEntries.flatMap printDirEntry = listed.map fun r => nameText r.name ++ "\n" := by
  induction h with
  | nil => rfl
  | cons hentry _ ih =>
      rw [List.flatMap_cons, ih, printDirEntry, shownName_eq hentry]
      rfl

end Cs342.Ext2
