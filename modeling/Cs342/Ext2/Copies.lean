import Mathlib
import Cs342.Ext2.Termination

/-!
# Where the records are copied from (`populate_dir_entry_list`)

A copy is always one of a whole struct, however short the record is. In a block that records tile,
all reads of the loop stay inside the buffer exactly if no record that it copies starts within the
last 263 bytes (`record_reads_inside_iff`).
-/

namespace Cs342.Ext2

open ByteBuffer Loop

/-! ## The reads of a round -/

/-- The offset of `rec_len` in the struct. -/
def recLenOffset : Nat := 4

/-- `sizeof(ext2_uint16_t)`. -/
def shortSize : Nat := 2

namespace Walk

/-- What a round reads of `buffer` as a record: the inode number that the loop tests, and if it is
in use the struct and `rec_len`. Each of them is a place and a number of bytes. -/
def reads (s : Walk) : List (Nat × Nat) :=
  (s.dirEntry, intSize) ::
    match loadInt s.device.buffer s.dirEntry with
    | .ok inode =>
      if inode = 0 then []
      else [(s.dirEntry, sizeofDirEntry), (s.dirEntry + recLenOffset, shortSize)]
    | _ => []

/-- None of these bytes is outside the buffer. -/
def ReadsInside (s : Walk) : Prop := ∀ read ∈ s.reads, read.1 + read.2 ≤ blockSize

section Reads

variable {file : File} {image : Bytes} {s s' t : Walk} {inode : BitVec 32}

theorem readsInside_iff (hinode : loadInt s.device.buffer s.dirEntry = .ok inode) :
    s.ReadsInside ↔ inode = 0 ∨ s.dirEntry + sizeofDirEntry ≤ blockSize := by
  have hheader : s.dirEntry + intSize ≤ blockSize :=
    (exists_loadInt.mp ⟨inode, hinode⟩).trans_eq s.device.length_buffer
  simp only [ReadsInside, reads, hinode, List.forall_mem_cons]
  split
  · next h => simp [h, hheader]
  · next h =>
      simp only [h, hheader, List.forall_mem_cons, List.not_mem_nil, false_imp_iff, implies_true,
        and_true, true_and, false_or, and_iff_left_iff_imp]
      simp only [recLenOffset, shortSize, sizeofDirEntry]
      omega

/-- A round is defined only if it reads inside the buffer. -/
theorem readsInside_of_round {step : ForInStep Walk} (h : s.round file = .ok step) :
    s.ReadsInside := by
  cases step with
  | done s' => exact (readsInside_iff (round_eq_done.mp h).1).mpr (.inl rfl)
  | yield s' =>
      obtain ⟨inode, dirEntry, hinode, -, hload, -⟩ := round_eq_yield.mp h
      have hfits := DirEntry.exists_load.mp ⟨dirEntry, hload⟩
      exact (readsInside_iff hinode).mpr (.inr (hfits.trans_eq s.device.length_buffer))

/-! ## The rounds in a block -/

theorem advance_blockOffset {recLen : Nat} (h : s.advance file recLen = .ok s') :
    s'.blockOffset = (if (s.dirEntryOffset + recLen) % blockSize = 0 then s.blockOffset + 1
      else s.blockOffset) ∧ s'.dirEntryOffset < 2 ^ 31 := by
  simp only [advance] at h
  split at h
  · cases h
  · next hlt =>
      split at h
      · next hend =>
          obtain ⟨device, -, h⟩ := Outcome.bind_eq_ok.mp h
          cases h
          rw [if_pos hend]
          exact ⟨rfl, not_le.mp hlt⟩
      · next hend =>
          cases h
          rw [if_neg hend]
          exact ⟨rfl, not_le.mp hlt⟩

/-- The block counter never goes back. -/
theorem blockOffset_le (h : Reaches (round file) s t) : s.blockOffset ≤ t.blockOffset := by
  refine h.invariant (P := fun t => s.blockOffset ≤ t.blockOffset) le_rfl fun u u' hle hyield => ?_
  obtain ⟨inode, dirEntry, -, -, -, hadvance⟩ := round_eq_yield.mp hyield
  have hnext := (advance_blockOffset hadvance).1
  simp only at hnext
  split at hnext <;> omega

/-- The offset is an int in every state. -/
theorem dirEntryOffset_lt (h : Reaches (round file) s t) (hs : s.dirEntryOffset < 2 ^ 31) :
    t.dirEntryOffset < 2 ^ 31 := by
  refine h.invariant (P := fun t => t.dirEntryOffset < 2 ^ 31) hs fun u u' _ hyield => ?_
  obtain ⟨inode, dirEntry, -, -, -, hadvance⟩ := round_eq_yield.mp hyield
  exact (advance_blockOffset hadvance).2

end Reads

/-- All reads until the next block is fetched. -/
def BlockReadsInside (file : File) (s : Walk) : Prop :=
  ∀ t, Reaches (round file) s t → t.blockOffset = s.blockOffset → t.ReadsInside

section Block

variable {image : Bytes} {s s' : Walk}

/-- A state that is left for good has no other reads than its own. -/
theorem blockReadsInside_last {file : File}
    (h : ∀ s', s.round file = .ok (.yield s') → s.blockOffset < s'.blockOffset) :
    s.BlockReadsInside file ↔ s.ReadsInside := by
  constructor
  · intro hinside
    exact hinside s .refl rfl
  · intro hinside t ht hblock
    rcases reaches_iff.mp ht with rfl | ⟨s', hyield, hrest⟩
    · exact hinside
    · have hlt := h s' hyield
      have hle := blockOffset_le hrest
      omega

/-- Otherwise the reads of the states behind it are added. -/
theorem blockReadsInside_yield {file : File} (hyield : s.round file = .ok (.yield s'))
    (hblock : s'.blockOffset = s.blockOffset) :
    s.BlockReadsInside file ↔ s.ReadsInside ∧ s'.BlockReadsInside file := by
  constructor
  · intro hinside
    exact ⟨hinside s .refl rfl, fun t ht heq =>
      hinside t (.of_yield hyield ht) (heq.trans hblock)⟩
  · rintro ⟨hfirst, hrest⟩ t ht heq
    rcases reaches_iff.mp ht with rfl | ⟨s'', hyield', ht⟩
    · exact hfirst
    · rw [hyield] at hyield'
      cases hyield'
      exact hrest t ht (heq.trans hblock.symm)

/-- The last record of a block is left for another block. -/
theorem blockOffset_lt_of_last {r : Record} {rest : Bytes}
    (hdrop : s.device.buffer.drop s.dirEntry = r.bytes ++ rest) (hlen : r.recLen < 2 ^ 16)
    (hend : s.dirEntry + r.recLen = blockSize)
    (hyield : s.round (.regular image) = .ok (.yield s')) : s.blockOffset < s'.blockOffset := by
  obtain ⟨inode, dirEntry, -, -, hload, hadvance⟩ := round_eq_yield.mp hyield
  have hfits := DirEntry.exists_load.mp ⟨dirEntry, hload⟩
  obtain ⟨dirEntry', hload', -, hrecLen⟩ := Record.load_record hdrop hlen hfits
  rw [hload] at hload'
  cases hload'
  have hnext := (advance_blockOffset hadvance).1
  have hmod : (s.dirEntryOffset + dirEntry.recLen.toNat) % blockSize = 0 := by
    rw [← Nat.mod_add_mod, hrecLen]
    show (s.dirEntry + r.recLen) % blockSize = 0
    rw [hend, Nat.mod_self]
  simp only [if_pos hmod] at hnext
  omega

/-- **The reads in a block**, from a state on whose records the rest of the block is tiled by. -/
theorem blockReadsInside_iff {records : List Record}
    (hdrop : s.device.buffer.drop s.dirEntry = records.flatMap Record.bytes)
    (hend : s.dirEntry + recLens records = blockSize) (hoffset : s.dirEntryOffset < 2 ^ 31) :
    s.BlockReadsInside (.regular image) ↔
      CopiesFit s.dirEntry (records.takeWhile fun r => decide r.Used) := by
  induction records generalizing s with
  | nil =>
      have hlt : s.dirEntry < blockSize := Nat.mod_lt _ (by decide)
      rw [recLens_nil] at hend
      omega
  | cons r records ih =>
      rw [List.flatMap_cons] at hdrop
      rw [recLens_cons] at hend
      have hlen : r.recLen < 2 ^ 16 := by
        simp only [blockSize] at hend
        omega
      have hinode := Record.loadInt_record hdrop
      have hreads := readsInside_iff hinode
      by_cases hused : r.Used
      · rw [List.takeWhile_cons_of_pos (by simpa using hused), copiesFit_cons]
        rw [or_iff_right hused] at hreads
        cases records with
        | nil =>
            rw [recLens_nil, Nat.add_zero] at hend
            rw [List.takeWhile_nil, and_iff_left (copiesFit_nil _), ← hreads]
            exact blockReadsInside_last fun s' hyield =>
              blockOffset_lt_of_last hdrop hlen hend hyield
        | cons next records =>
            have hnext := next.recLen_pos
            rw [recLens_cons] at hend
            by_cases hfits : s.dirEntry + sizeofDirEntry ≤ blockSize
            · have hroom : s.dirEntryOffset + r.recLen < 2 ^ 31 := by
                simp only [Walk.dirEntry, blockSize] at hend
                omega
              obtain ⟨s', hyield, hrest, -, hblock, hdirEntry, hoffset'⟩ :=
                Walk.round_inside image hdrop hused hfits (by omega) hroom
              rw [blockReadsInside_yield hyield hblock, hreads,
                ih hrest (by rw [hdirEntry, recLens_cons]; omega)
                  (by rw [hoffset']; exact hroom), hdirEntry]
            · -- the copy is not defined, so the loop does not get any further
              constructor
              · intro hinside
                exact absurd (hreads.mp (hinside s .refl rfl)) hfits
              · rintro ⟨h, -⟩
                exact absurd h hfits
      · rw [List.takeWhile_cons_of_neg (by simpa using hused), iff_true_right (copiesFit_nil _)]
        have hzero : r.inode = 0 := not_not.mp hused
        refine (blockReadsInside_last fun s' hyield => ?_).mpr (hreads.mpr (.inl hzero))
        obtain ⟨inode, dirEntry, hinode', hne, -⟩ := round_eq_yield.mp hyield
        rw [hinode, hzero] at hinode'
        exact absurd (Outcome.ok.inj hinode').symm hne

end Block

end Walk

/-- **Reads of a tiled block** of the directory, from the state in which the loop comes to it: they
stay inside the buffer exactly if a whole struct fits wherever a record starts that is copied, which
are the records up to the first unused one. -/
theorem record_reads_inside_iff {image : Bytes} {rootDirectoryInode : Inode} {device : Device}
    {start s : Walk} (tiling : Tiling) (hstart : StartsAt image rootDirectoryInode device start)
    (hreaches : Reaches (Walk.round (.regular image)) start s) (hplace : s.dirEntry = 0)
    (hbuffer : s.device.buffer = tiling.bytes) :
    s.BlockReadsInside (.regular image) ↔
      CopiesFit 0 (tiling.records.takeWhile fun r => decide r.Used) := by
  have hoffset : start.dirEntryOffset < 2 ^ 31 := by
    obtain ⟨_, _, -, -, rfl⟩ := hstart
    norm_num
  rw [← hplace]
  apply Walk.blockReadsInside_iff
  · rw [hplace, hbuffer, List.drop_zero, Tiling.bytes]
  · rw [hplace, tiling.total, Nat.zero_add]
  · exact Walk.dirEntryOffset_lt hreaches hoffset

/-! ## A block that is full to the end -/

/-- The state in front of the loop, with the root directory in block 5. -/
def rootWalk (image : Bytes) : Walk where
  device := (startDevice.lseek (blockSize * 5)).read image
  blockOffset := 0
  dirEntryOffset := 0
  dirEntryList := initDirEntryList

theorem startsAt_rootWalk (image : Bytes) :
    StartsAt image (rootInode 4096) startDevice (rootWalk image) :=
  ⟨5, _, (iBlock_rootInode 4096).1,
    bufferReadBlock_regular (by decide) (by decide) startDevice, rfl⟩

theorem buffer_rootWalk (tiling : Tiling) :
    (rootWalk (smallImage (rootInode 4096) [tiling])).device.buffer = tiling.bytes := by
  obtain ⟨device, hread, hbuffer⟩ := bufferReadBlock_of_lt
    (smallImage (rootInode 4096) [tiling]) (n := 5) (by norm_num) startDevice
  rw [bufferReadBlock_regular (by norm_num) (by norm_num)] at hread
  rw [block_smallImage (rootInode 4096) (k := 0) rfl,
    overwrite_of_length (tiling.length_bytes.trans startDevice.length_buffer.symm)] at hbuffer
  rw [← hbuffer, ← Outcome.ok.inj hread]
  rfl

theorem record_reads_inside_dots :
    (rootWalk (smallImage (rootInode 4096) [dots])).BlockReadsInside
        (.regular (smallImage (rootInode 4096) [dots])) ↔
      CopiesFit 0 (dots.records.takeWhile fun r => decide r.Used) :=
  record_reads_inside_iff dots (startsAt_rootWalk _) .refl rfl (buffer_rootWalk dots)

/-- The copy of the last record of this directory runs over the end of the buffer. -/
theorem record_reads_outside :
    RootDirectory (smallImage (rootInode 4096) [shortLast]) (rootInode 4096) shortLast [] ∧
      ¬ (rootWalk (smallImage (rootInode 4096) [shortLast])).BlockReadsInside
        (.regular (smallImage (rootInode 4096) [shortLast])) := by
  refine ⟨rootDirectory_smallImage (by decide) (by decide), ?_⟩
  have hbuffer := buffer_rootWalk shortLast
  have hplace : (rootWalk (smallImage (rootInode 4096) [shortLast])).dirEntry = 0 := rfl
  have hoffset : (rootWalk (smallImage (rootInode 4096) [shortLast])).dirEntryOffset < 2 ^ 31 := by
    rw [rootWalk]
    norm_num
  have hdrop : (rootWalk (smallImage (rootInode 4096) [shortLast])).device.buffer.drop
      (rootWalk (smallImage (rootInode 4096) [shortLast])).dirEntry
        = shortLast.records.flatMap Record.bytes := by
    rw [hplace, hbuffer, List.drop_zero, Tiling.bytes]
  rw [Walk.blockReadsInside_iff hdrop (by rw [hplace, shortLast.total, Nat.zero_add]) hoffset,
    hplace]
  have hlisted : (shortLast.records.takeWhile fun r => decide r.Used) = shortLast.records :=
    List.takeWhile_eq_self_iff.mpr (by decide)
  rw [hlisted, shortLast]
  simp only [copiesFit_cons, Record.recLen_sized]
  rintro ⟨-, -, h, -⟩
  exact absurd h (by decide)

end Cs342.Ext2
