import Mathlib
import Cs342.Ext2.Device

/-!
# Directory entries (`directory_entry.h`, `dir_entry_list.c`)

A directory entry has two forms. On disk it is a record of as many bytes as its `rec_len` says; in
the program it is a `struct ext2_direntry_t`, which always takes its full size, name field included.
What both stand for is an `Entry`. A copy made where a record starts holds the entry of that record,
provided that a whole struct still fits (`load_record`).
-/

namespace Cs342.Ext2

open ByteBuffer

/-- What a directory says of one file: its inode number, its name and its type. -/
structure Entry where
  inode : BitVec 32
  name : Bytes
  fileType : UInt8
  deriving DecidableEq

/-! ## `struct ext2_direntry_t` -/

/-- `EXT2_NAME_LEN`. -/
def ext2NameLen : Nat := 255

/-- `sizeof(struct ext2_direntry_t)`: eight bytes, the name, and one byte that aligns the struct. -/
def sizeofDirEntry : Nat := 264

/-- `struct ext2_direntry_t`. -/
structure DirEntry where
  inode : BitVec 32
  recLen : BitVec 16
  nameLen : UInt8
  fileType : UInt8
  fileName : Bytes

/-- The struct that bytes hold. -/
def DirEntry.ofBytes : Bytes → Outcome DirEntry
  | b₀ :: b₁ :: b₂ :: b₃ :: r₀ :: r₁ :: nameLen :: fileType :: name =>
    .ok
      { inode := intOfBytes b₀ b₁ b₂ b₃
        recLen := shortOfBytes r₀ r₁
        nameLen := nameLen
        fileType := fileType
        fileName := name.take ext2NameLen }
  | _ => .undefined

/-- `memcpy` of the struct at `&buf[off]`. -/
def DirEntry.load (buf : Bytes) (off : Nat) : Outcome DirEntry := do
  let bytes ← ByteBuffer.load buf off sizeofDirEntry
  DirEntry.ofBytes bytes

/-- What is printed of the struct: the name is `%.*s` with `name_len`. -/
def DirEntry.entry (dirEntry : DirEntry) : Entry where
  inode := dirEntry.inode
  name := dirEntry.fileName.take dirEntry.nameLen.toNat
  fileType := dirEntry.fileType

/-! ## The list of entries -/

/-- `init_dir_entry_list`. -/
def initDirEntryList : List DirEntry := []

/-- The walk to the last node of the list. -/
def appendDirEntryList (dirEntry : DirEntry) : List DirEntry → List DirEntry
  | [] => [dirEntry]
  | node :: next => node :: appendDirEntryList dirEntry next

theorem appendDirEntryList_eq (dirEntry : DirEntry) (dirEntryList : List DirEntry) :
    appendDirEntryList dirEntry dirEntryList = dirEntryList ++ [dirEntry] := by
  induction dirEntryList with
  | nil => rfl
  | cons node next ih => rw [appendDirEntryList, ih, List.cons_append]

/-! ## Records on disk -/

/-- A well-formed record. Its name is followed by any bytes up to the next record. -/
structure Record where
  inode : BitVec 32
  fileType : UInt8
  name : Bytes
  padding : Bytes
  length_name : name.length ≤ ext2NameLen
  aligned : 4 ∣ 8 + name.length + padding.length

namespace Record

/-- `rec_len`. -/
def recLen (r : Record) : Nat := 8 + r.name.length + r.padding.length

def bytes (r : Record) : Bytes :=
  intBytes r.inode ++ (shortBytes (BitVec.ofNat 16 r.recLen) ++
    (UInt8.ofNat r.name.length :: r.fileType :: (r.name ++ r.padding)))

def entry (r : Record) : Entry where
  inode := r.inode
  name := r.name
  fileType := r.fileType

/-- An inode number of zero marks a record that stands for no file. -/
def Used (r : Record) : Prop := r.inode ≠ 0

instance : DecidablePred Used := fun r => inferInstanceAs (Decidable (r.inode ≠ 0))

theorem inode_pos {r : Record} (h : r.Used) : 1 ≤ r.inode.toNat := by
  rw [Nat.one_le_iff_ne_zero]
  exact fun hzero => h (BitVec.eq_of_toNat_eq hzero)

@[simp] theorem length_bytes (r : Record) : r.bytes.length = r.recLen := by
  simp only [bytes, intBytes, shortBytes, recLen, List.length_append, List.length_cons,
    List.length_nil]
  omega

theorem recLen_pos (r : Record) : 0 < r.recLen := by
  unfold recLen
  omega

/-- The fields of a record, as the struct declares them. -/
theorem ofBytes_take {r : Record} (rest : Bytes) (hlen : r.recLen < 2 ^ 16) :
    ∃ dirEntry, DirEntry.ofBytes ((r.bytes ++ rest).take sizeofDirEntry) = .ok dirEntry ∧
      dirEntry.entry = r.entry ∧ dirEntry.recLen.toNat = r.recLen := by
  have hname := r.length_name
  unfold ext2NameLen at hname
  have hnameLen : (UInt8.ofNat r.name.length).toNat = r.name.length := by
    rw [UInt8.toNat_ofNat']
    omega
  have hfileName : (List.take ext2NameLen
      (List.take 256 (r.name ++ r.padding ++ rest))).take r.name.length = r.name := by
    rw [List.take_take, List.take_take, List.append_assoc, List.take_append_of_le_length]
    · apply List.take_of_length_le
      simp only [ext2NameLen]
      omega
    · simp only [ext2NameLen]
      omega
  refine ⟨_, rfl, ?_, ?_⟩
  · simp only [DirEntry.entry, entry, hnameLen]
    rw [intOfBytes_intBytes]
    exact congrArg (Entry.mk r.inode · r.fileType) hfileName
  · rw [shortOfBytes_shortBytes, BitVec.toNat_ofNat]
    exact Nat.mod_eq_of_lt hlen

/-- The loop test reads the inode number of the record. -/
theorem loadInt_record {buf rest : Bytes} {off : Nat} {r : Record}
    (h : buf.drop off = r.bytes ++ rest) : loadInt buf off = .ok r.inode := by
  apply loadInt_intBytes
  rw [h, bytes, List.append_assoc]

/-- **A copy of a record**: it holds the record's entry, and needs the whole struct to fit. -/
theorem load_record {buf rest : Bytes} {off : Nat} {r : Record}
    (h : buf.drop off = r.bytes ++ rest) (hlen : r.recLen < 2 ^ 16)
    (hfits : off + sizeofDirEntry ≤ buf.length) :
    ∃ dirEntry, DirEntry.load buf off = .ok dirEntry ∧ dirEntry.entry = r.entry ∧
      dirEntry.recLen.toNat = r.recLen := by
  obtain ⟨dirEntry, hbytes, hfields⟩ := ofBytes_take rest hlen
  refine ⟨dirEntry, ?_, hfields⟩
  rw [DirEntry.load, ByteBuffer.load, if_pos hfits, Outcome.ok_bind, h]
  exact hbytes

end Record

/-- Near the end of a buffer the struct does not fit any more. -/
theorem DirEntry.load_undefined {buf : Bytes} {off : Nat}
    (h : buf.length < off + sizeofDirEntry) : DirEntry.load buf off = .undefined := by
  rw [DirEntry.load, ByteBuffer.load, if_neg (by omega)]
  rfl

/-- A struct can be copied wherever all of it is inside. -/
theorem DirEntry.exists_load {buf : Bytes} {off : Nat} :
    (∃ dirEntry, DirEntry.load buf off = .ok dirEntry) ↔ off + sizeofDirEntry ≤ buf.length := by
  constructor
  · rintro ⟨dirEntry, h⟩
    by_contra hlt
    rw [DirEntry.load_undefined (not_le.mp hlt)] at h
    cases h
  · intro h
    rw [DirEntry.load, ByteBuffer.load, if_pos h, Outcome.ok_bind]
    have hlength : ((buf.drop off).take sizeofDirEntry).length = sizeofDirEntry := by
      rw [List.length_take, List.length_drop]
      omega
    match hbytes : (buf.drop off).take sizeofDirEntry with
    | b₀ :: b₁ :: b₂ :: b₃ :: r₀ :: r₁ :: nameLen :: fileType :: name => exact ⟨_, rfl⟩
    | [] | [_] | [_, _] | [_, _, _] | [_, _, _, _] | [_, _, _, _, _] | [_, _, _, _, _, _]
    | [_, _, _, _, _, _, _] =>
        rw [hbytes] at hlength
        cases hlength

/-! ## Blocks of records -/

/-- The bytes that records take. -/
def recLens (records : List Record) : Nat := (records.map Record.recLen).sum

@[simp] theorem recLens_nil : recLens [] = 0 := rfl

@[simp] theorem recLens_cons (r : Record) (records : List Record) :
    recLens (r :: records) = r.recLen + recLens records := rfl

theorem length_flatMap_bytes (records : List Record) :
    (records.flatMap Record.bytes).length = recLens records := by
  induction records with
  | nil => rfl
  | cons r records ih =>
      rw [List.flatMap_cons, List.length_append, ih, Record.length_bytes, recLens_cons]

theorem recLen_le_recLens {records : List Record} {r : Record} (h : r ∈ records) :
    r.recLen ≤ recLens records :=
  List.le_sum_of_mem (List.mem_map_of_mem h)

/-- A block of a directory: its records fill it exactly. -/
structure Tiling where
  records : List Record
  total : recLens records = blockSize

def Tiling.bytes (tiling : Tiling) : Bytes := tiling.records.flatMap Record.bytes

@[simp] theorem Tiling.length_bytes (tiling : Tiling) : tiling.bytes.length = blockSize := by
  rw [bytes, length_flatMap_bytes, tiling.total]

/-- The entries of the records that are in use. -/
def usedEntries (records : List Record) : List Entry :=
  (records.filter Record.Used).map Record.entry

end Cs342.Ext2
