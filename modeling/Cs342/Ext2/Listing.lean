import Mathlib
import Cs342.Ext2.Directory

/-!
# When the listing of the root directory is right

The listing should hold the records in use of all blocks of the directory. What is read is the first
block up to its first unused record, or else all of it and then the image from block 0 on, and
copies are defined only where a whole struct fits. So the listing is right in the cases of
`ListingHolds` and in no others (`lists_root_directory_iff`); a directory of two full blocks loses
its second one (`not_lists_twoBlocks`).
-/

namespace Cs342.Ext2

open ByteBuffer

/-! ## What the root directory holds -/

/-- The direct blocks of an inode. -/
def directBlocks : Nat := 12

/-- The blocks of the root directory are direct ones, and its records tile each of them. -/
structure RootDirectory (image : Bytes) (rootDirectoryInode : Inode) (first : Tiling)
    (others : List Tiling) : Prop where
  count : (first :: others).length ≤ directBlocks
  iSize : rootDirectoryInode.iSize
    = .ok (BitVec.ofNat 32 (blockSize * (first :: others).length))
  blocks : ∀ k tiling, (first :: others)[k]? = some tiling →
    ∃ blockNumber, rootDirectoryInode.iBlock k = .ok blockNumber ∧
      block image blockNumber.toNat = tiling.bytes

/-- The entries of a directory, block by block. -/
def directoryEntries (tilings : List Tiling) : List Entry :=
  usedEntries (tilings.flatMap Tiling.records)

/-! ## The condition -/

/-- A whole struct fits into the block wherever one of the records starts. -/
def CopiesFit (place : Nat) (records : List Record) : Prop :=
  ∀ before r after, records = before ++ r :: after →
    place + recLens before + sizeofDirEntry ≤ blockSize

/-- The directories, and the images around them, that are listed in full and in order. -/
inductive ListingHolds (image : Bytes) (rootDirectoryInode : Inode) (device : Device)
    (first : Tiling) (others : List Tiling) : Prop
  /-- The first block ends the loop, and no record after that one is in use. -/
  | stops {blockNumber : BitVec 32} {listed after : List Record} {r : Record}
      (hblock : rootDirectoryInode.iBlock 0 = .ok blockNumber) (hlt : blockNumber.toNat < 2 ^ 19)
      (hrecords : first.records = listed ++ r :: after) (hlisted : ∀ x ∈ listed, x.Used)
      (hr : ¬ r.Used) (hafter : ∀ x ∈ after, ¬ x.Used)
      (hothers : ∀ tiling ∈ others, ∀ x ∈ tiling.records, ¬ x.Used)
      (hfits : CopiesFit 0 listed)
  /-- The first block is full, and the image repeats the rest of the directory from block 0 on. -/
  | repeats {blockNumber : BitVec 32}
      (hblock : rootDirectoryInode.iBlock 0 = .ok blockNumber) (hlt : blockNumber.toNat < 2 ^ 19)
      (hused : ∀ x ∈ first.records, x.Used) (hfits : CopiesFit 0 first.records)
      (hrest : ReadsAs image (block image 0) 1 0 (directoryEntries others))
  /-- The offset of the first block is negative as an int, and a repetition of the whole directory
  follows the place that the file is at. -/
  | unseekable {blockNumber : BitVec 32}
      (hblock : rootDirectoryInode.iBlock 0 = .ok blockNumber)
      (hge : 2 ^ 32 - 2 ^ 19 ≤ blockNumber.toNat)
      (hrest : ReadsAs image (device.read image).buffer 0 0 (directoryEntries (first :: others)))

/-! ## Records in use -/

theorem copiesFit_cons {place : Nat} {r : Record} {records : List Record} :
    CopiesFit place (r :: records) ↔
      place + sizeofDirEntry ≤ blockSize ∧ CopiesFit (place + r.recLen) records := by
  constructor
  · intro h
    refine ⟨h [] r records rfl, fun before x after hrecords => ?_⟩
    have hfits := h (r :: before) x after (by rw [hrecords, List.cons_append])
    rw [recLens_cons] at hfits
    omega
  · rintro ⟨hfirst, hrest⟩ before x after hrecords
    cases before with
    | nil => exact hfirst
    | cons y before =>
        obtain ⟨rfl, htail⟩ := List.cons.inj hrecords
        have hfits := hrest before x after htail
        rw [recLens_cons]
        omega

theorem copiesFit_nil (place : Nat) : CopiesFit place [] := by
  intro before r after h
  simp at h

theorem usedEntries_append (records records' : List Record) :
    usedEntries (records ++ records') = usedEntries records ++ usedEntries records' := by
  simp only [usedEntries, List.filter_append, List.map_append]

theorem usedEntries_of_used {records : List Record} (h : ∀ x ∈ records, x.Used) :
    usedEntries records = records.map Record.entry := by
  rw [usedEntries, List.filter_eq_self.mpr (by simpa using h)]

theorem usedEntries_eq_nil {records : List Record} :
    usedEntries records = [] ↔ ∀ x ∈ records, ¬ x.Used := by
  simp [usedEntries]

theorem directoryEntries_cons (tiling : Tiling) (tilings : List Tiling) :
    directoryEntries (tiling :: tilings)
      = usedEntries tiling.records ++ directoryEntries tilings := by
  rw [directoryEntries, List.flatMap_cons, usedEntries_append]
  rfl

/-- A record takes eight bytes at least. -/
theorem length_le_recLens (records : List Record) : 8 * records.length ≤ recLens records := by
  induction records with
  | nil => simp
  | cons r records ih =>
      have hr : 8 ≤ r.recLen := by
        unfold Record.recLen
        omega
      rw [List.length_cons, recLens_cons]
      omega

theorem length_directoryEntries_le (tilings : List Tiling) :
    (directoryEntries tilings).length ≤ 512 * tilings.length := by
  induction tilings with
  | nil => simp [directoryEntries, usedEntries]
  | cons tiling tilings ih =>
      have hle := length_le_recLens tiling.records
      have hfilter := List.length_filter_le (fun r => decide r.Used) tiling.records
      rw [tiling.total, blockSize] at hle
      rw [directoryEntries_cons, List.length_append, List.length_cons, usedEntries, List.length_map]
      omega

/-! ## Reading a tiled block -/

section Block

variable {image buffer : Bytes} {next place : Nat}

/-- What is left of a block behind one of its records. -/
theorem drop_recLen {r : Record} {rest : Bytes} (hdrop : buffer.drop place = r.bytes ++ rest) :
    buffer.drop (place + r.recLen) = rest := by
  rw [← List.drop_drop, hdrop, ← Record.length_bytes, List.drop_left]

theorem follow_of_lt {recLen : Nat} (hpos : 0 < recLen) (hlt : place + recLen < blockSize) :
    follow image buffer next place recLen = (buffer, next, place + recLen) := by
  rw [follow, Nat.mod_eq_of_lt hlt, if_neg (by omega)]

theorem follow_of_eq {recLen : Nat} (hend : place + recLen = blockSize) :
    follow image buffer next place recLen
      = (overwrite (block image next) buffer, next + 1, 0) := by
  rw [follow, hend, Nat.mod_self, if_pos rfl]

/-- An unused record ends the listing, whatever follows it. -/
theorem readsAs_unused {r : Record} {rest : Bytes} {entries : List Entry}
    (hdrop : buffer.drop place = r.bytes ++ rest) (hr : ¬ r.Used) :
    ReadsAs image buffer next place entries ↔ entries = [] := by
  have hzero : r.inode = 0 := not_not.mp hr
  have hinode := Record.loadInt_record hdrop
  rw [hzero] at hinode
  constructor
  · intro h
    cases h with
    | unused => rfl
    | used hinode' hne =>
        rw [hinode] at hinode'
        exact absurd (Outcome.ok.inj hinode').symm hne
  · rintro rfl
    exact ReadsAs.unused hinode

variable (hbuffer : buffer.length = blockSize)
include hbuffer

/-- The first of the records that are left: if it is in use, its copy must fit. -/
theorem readsAs_record {r : Record} {rest : Bytes} {entries : List Entry}
    (hdrop : buffer.drop place = r.bytes ++ rest) (hlen : r.recLen ≤ blockSize) (hused : r.Used) :
    ReadsAs image buffer next place entries ↔
      place + sizeofDirEntry ≤ blockSize ∧ ∃ entries', entries = r.entry :: entries' ∧
        ReadsAs image (follow image buffer next place r.recLen).1
          (follow image buffer next place r.recLen).2.1
          (follow image buffer next place r.recLen).2.2 entries' := by
  have hinode := Record.loadInt_record hdrop
  have hlt : r.recLen < 2 ^ 16 := by
    rw [blockSize] at hlen
    omega
  constructor
  · intro h
    cases h with
    | unused hzero =>
        rw [hinode] at hzero
        exact absurd (Outcome.ok.inj hzero) hused
    | used _ _ hload hrest =>
        by_cases hfits : place + sizeofDirEntry ≤ blockSize
        · obtain ⟨dirEntry, hload', hentry, hrecLen⟩ :=
            Record.load_record hdrop hlt (hbuffer ▸ hfits)
          rw [hload] at hload'
          cases hload'
          rw [hrecLen] at hrest
          exact ⟨hfits, _, by rw [hentry], hrest⟩
        · rw [DirEntry.load_undefined (by omega)] at hload
          cases hload
  · rintro ⟨hfits, entries', rfl, hrest⟩
    obtain ⟨dirEntry, hload, hentry, hrecLen⟩ := Record.load_record hdrop hlt (hbuffer ▸ hfits)
    rw [← hrecLen] at hrest
    rw [← hentry]
    exact ReadsAs.used hinode hused hload hrest

/-- The records in use up to an unused one are listed, if their copies fit. -/
theorem readsAs_of_unused {listed after : List Record} {r : Record} {entries : List Entry}
    (hdrop : buffer.drop place = (listed ++ r :: after).flatMap Record.bytes)
    (hend : place + recLens (listed ++ r :: after) = blockSize)
    (hlisted : ∀ x ∈ listed, x.Used) (hr : ¬ r.Used) :
    ReadsAs image buffer next place entries ↔
      CopiesFit place listed ∧ entries = listed.map Record.entry := by
  induction listed generalizing place entries with
  | nil =>
      rw [List.nil_append, List.flatMap_cons] at hdrop
      rw [readsAs_unused hdrop hr, List.map_nil]
      simp only [copiesFit_nil, true_and]
  | cons x listed ih =>
      rw [List.cons_append, List.flatMap_cons] at hdrop
      rw [List.cons_append, recLens_cons] at hend
      have hpos : 0 < recLens (listed ++ r :: after) :=
        Nat.lt_of_lt_of_le r.recLen_pos (recLen_le_recLens (by simp))
      have hrest : ∀ entries', ReadsAs image buffer next (place + x.recLen) entries' ↔
          CopiesFit (place + x.recLen) listed ∧ entries' = listed.map Record.entry :=
        fun _ => ih (drop_recLen hdrop) (by omega)
          (fun y hy => hlisted y (List.mem_cons_of_mem x hy))
      rw [readsAs_record hbuffer hdrop (by omega) (hlisted x List.mem_cons_self),
        follow_of_lt x.recLen_pos (by omega), copiesFit_cons, List.map_cons]
      simp only [hrest]
      constructor
      · rintro ⟨hfits, entries', rfl, hcopies, rfl⟩
        exact ⟨⟨hfits, hcopies⟩, rfl⟩
      · rintro ⟨⟨hfits, hcopies⟩, rfl⟩
        exact ⟨hfits, _, rfl, hcopies, rfl⟩

/-- The records of a full block are listed, if their copies fit, and then a block of the image is
read. -/
theorem readsAs_of_used {records : List Record} {entries : List Entry} (hne : records ≠ [])
    (hdrop : buffer.drop place = records.flatMap Record.bytes)
    (hend : place + recLens records = blockSize) (hused : ∀ x ∈ records, x.Used) :
    ReadsAs image buffer next place entries ↔
      CopiesFit place records ∧ ∃ entries', entries = records.map Record.entry ++ entries' ∧
        ReadsAs image (overwrite (block image next) buffer) (next + 1) 0 entries' := by
  induction records generalizing place entries with
  | nil => exact absurd rfl hne
  | cons x records ih =>
      rw [List.flatMap_cons] at hdrop
      rw [recLens_cons] at hend
      rw [readsAs_record hbuffer hdrop (by omega) (hused x List.mem_cons_self), copiesFit_cons,
        List.map_cons]
      cases records with
      | nil =>
          rw [recLens_nil, Nat.add_zero] at hend
          rw [follow_of_eq hend]
          simp only [copiesFit_nil, and_true, List.map_nil, List.cons_append, List.nil_append]
      | cons y records =>
          have hpos : 0 < recLens (y :: records) :=
            Nat.lt_of_lt_of_le y.recLen_pos (recLen_le_recLens List.mem_cons_self)
          have hrest : ∀ entries', ReadsAs image buffer next (place + x.recLen) entries' ↔
              CopiesFit (place + x.recLen) (y :: records) ∧
                ∃ rest, entries' = (y :: records).map Record.entry ++ rest ∧
                  ReadsAs image (overwrite (block image next) buffer) (next + 1) 0 rest :=
            fun _ => ih (List.cons_ne_nil y records) (drop_recLen hdrop) (by omega)
              (fun z hz => hused z (List.mem_cons_of_mem x hz))
          rw [follow_of_lt x.recLen_pos (by omega)]
          simp only [hrest]
          constructor
          · rintro ⟨hfits, _, rfl, hcopies, entries', rfl, himage⟩
            exact ⟨⟨hfits, hcopies⟩, entries', rfl, himage⟩
          · rintro ⟨⟨hfits, hcopies⟩, entries', rfl, himage⟩
            exact ⟨hfits, _, rfl, hcopies, entries', rfl, himage⟩

end Block

/-! ## The listing of a root directory -/

/-- A directory whose first block has an unused record is its records up to that one exactly when no
record after it is in use. -/
theorem directoryEntries_eq_listed {first : Tiling} {others : List Tiling}
    {listed after : List Record} {r : Record} (hrecords : first.records = listed ++ r :: after)
    (hlisted : ∀ x ∈ listed, x.Used) (hr : ¬ r.Used) :
    directoryEntries (first :: others) = listed.map Record.entry ↔
      (∀ x ∈ after, ¬ x.Used) ∧ ∀ tiling ∈ others, ∀ x ∈ tiling.records, ¬ x.Used := by
  have hsingle : usedEntries [r] = [] := usedEntries_eq_nil.mpr (by simpa using hr)
  have hsplit : directoryEntries (first :: others)
      = listed.map Record.entry ++ (usedEntries after ++ directoryEntries others) := by
    rw [directoryEntries_cons, hrecords, usedEntries_append, usedEntries_of_used hlisted,
      ← List.singleton_append, usedEntries_append, hsingle, List.nil_append, List.append_assoc]
  have hothers : directoryEntries others = [] ↔
      ∀ tiling ∈ others, ∀ x ∈ tiling.records, ¬ x.Used := by
    rw [directoryEntries, usedEntries_eq_nil]
    simp only [List.mem_flatMap, forall_exists_index, and_imp]
    exact ⟨fun h tiling htiling x hx => h x tiling htiling hx,
      fun h x tiling htiling hx => h tiling htiling x hx⟩
  rw [hsplit, List.append_right_eq_self, List.append_eq_nil_iff, usedEntries_eq_nil, hothers]

/-- The first block with an unused record, or full. -/
theorem exists_unused_or_used (records : List Record) :
    (∃ listed r after, records = listed ++ r :: after ∧ (∀ x ∈ listed, x.Used) ∧ ¬ r.Used) ∨
      ∀ x ∈ records, x.Used := by
  induction records with
  | nil => exact .inr (by simp)
  | cons x records ih =>
      by_cases hx : x.Used
      · rcases ih with ⟨listed, r, after, rfl, hlisted, hr⟩ | hused
        · refine .inl ⟨x :: listed, r, after, rfl, fun y hy => ?_, hr⟩
          rcases List.mem_cons.mp hy with rfl | hy
          · exact hx
          · exact hlisted y hy
        · refine .inr fun y hy => ?_
          rcases List.mem_cons.mp hy with rfl | hy
          · exact hx
          · exact hused y hy
      · exact .inl ⟨[], x, records, rfl, by simp, hx⟩

/-- A full first block is listed, and then what the image reads as from block 0 on. -/
theorem readsAs_full_iff {image : Bytes} {first : Tiling} {entries : List Entry}
    (hused : ∀ x ∈ first.records, x.Used) (hzero : (block image 0).length = blockSize) :
    ReadsAs image first.bytes 0 0 entries ↔
      CopiesFit 0 first.records ∧ ∃ rest, entries = first.records.map Record.entry ++ rest ∧
        ReadsAs image (block image 0) 1 0 rest := by
  have hlen := first.length_bytes
  have hend : 0 + recLens first.records = blockSize := by rw [Nat.zero_add, first.total]
  have hne : first.records ≠ [] := by
    intro hnil
    have htotal := first.total
    rw [hnil] at htotal
    cases htotal
  have hover : overwrite (block image 0) first.bytes = block image 0 :=
    overwrite_of_length (hzero.trans hlen.symm)
  rw [readsAs_of_used hlen hne rfl hend hused, hover]

section Root

variable {image : Bytes} {rootDirectoryInode : Inode} {device : Device} {first : Tiling}
  {others : List Tiling} {blockNumber : BitVec 32}
  (hblock : rootDirectoryInode.iBlock 0 = .ok blockNumber)
include hblock

/-- A block number that is no index below `2 ^ 19` leaves one case only. -/
theorem ListingHolds.of_ge (hge : 2 ^ 19 ≤ blockNumber.toNat)
    (h : ListingHolds image rootDirectoryInode device first others) :
    2 ^ 32 - 2 ^ 19 ≤ blockNumber.toNat ∧
      ReadsAs image (device.read image).buffer 0 0 (directoryEntries (first :: others)) := by
  cases h with
  | stops hblock' hlt =>
      rw [hblock] at hblock'
      cases hblock'
      omega
  | repeats hblock' hlt =>
      rw [hblock] at hblock'
      cases hblock'
      omega
  | unseekable hblock' hge' hrest =>
      rw [hblock] at hblock'
      cases hblock'
      exact ⟨hge', hrest⟩

/-- With the first block in the buffer. -/
theorem readsAs_first_iff (hlt : blockNumber.toNat < 2 ^ 19)
    (hzero : (block image 0).length = blockSize) :
    ReadsAs image first.bytes 0 0 (directoryEntries (first :: others)) ↔
      ListingHolds image rootDirectoryInode device first others := by
  have hlen := first.length_bytes
  have hend : 0 + recLens first.records = blockSize := by rw [Nat.zero_add, first.total]
  constructor
  · intro hreads
    rcases exists_unused_or_used first.records with
      ⟨listed, r, after, hrecords, hlisted, hr⟩ | hused
    · have hdrop : first.bytes.drop 0 = (listed ++ r :: after).flatMap Record.bytes := by
        rw [← hrecords]
        rfl
      obtain ⟨hfits, hentries⟩ :=
        (readsAs_of_unused hlen hdrop (hrecords ▸ hend) hlisted hr).mp hreads
      obtain ⟨hafter, hothers⟩ := (directoryEntries_eq_listed hrecords hlisted hr).mp hentries
      exact .stops hblock hlt hrecords hlisted hr hafter hothers hfits
    · obtain ⟨hfits, rest, hentries, hrest⟩ := (readsAs_full_iff hused hzero).mp hreads
      rw [directoryEntries_cons, usedEntries_of_used hused, List.append_cancel_left_eq] at hentries
      exact .repeats hblock hlt hused hfits (hentries ▸ hrest)
  · intro h
    cases h with
    | @stops _ listed after r _ _ hrecords hlisted hr hafter hothers hfits =>
        have hdrop : first.bytes.drop 0 = (listed ++ r :: after).flatMap Record.bytes := by
          rw [← hrecords]
          rfl
        exact (readsAs_of_unused hlen hdrop (hrecords ▸ hend) hlisted hr).mpr
          ⟨hfits, (directoryEntries_eq_listed hrecords hlisted hr).mpr ⟨hafter, hothers⟩⟩
    | repeats _ _ hused hfits hrest =>
        refine (readsAs_full_iff hused hzero).mpr ⟨hfits, _, ?_, hrest⟩
        rw [directoryEntries_cons, usedEntries_of_used hused]
    | unseekable hblock' hge =>
        rw [hblock] at hblock'
        cases hblock'
        omega

/-- A block whose offset is an int is read as a whole, whatever was in the buffer. -/
theorem lists_iff_of_lt {entries : List Entry}
    (hbytes : block image blockNumber.toNat = first.bytes)
    (hlt : blockNumber.toNat < 2 ^ 19) (hlength : entries.length < 2 ^ 15) :
    Lists (.regular image) rootDirectoryInode device entries ↔
      ReadsAs image first.bytes 0 0 entries := by
  have htoInt : blockNumber.toInt = blockNumber.toNat := BitVec.toInt_eq_toNat_of_lt (by omega)
  obtain ⟨device', hread, hbuffer⟩ := bufferReadBlock_of_lt image hlt device
  have hfirst : device'.buffer = first.bytes := by
    rw [hbuffer, hbytes, overwrite_of_length (first.length_bytes.trans device.length_buffer.symm)]
  rw [lists_iff hblock hlength, htoInt, hread]
  simp only [Outcome.ok.injEq, exists_eq_left', hfirst]

end Root

/-- An image that holds some block holds block 0. -/
theorem length_block_zero {image : Bytes} {n : Nat} (h : (block image n).length = blockSize) :
    (block image 0).length = blockSize := by
  simp only [block, List.length_take, List.length_drop] at h ⊢
  omega

/-- **The listing of the root directory**: it holds the records in use of all blocks, in order and
nothing else, exactly in the cases of `ListingHolds`. -/
theorem lists_root_directory_iff {image : Bytes} {rootDirectoryInode : Inode} {first : Tiling}
    {others : List Tiling} (h : RootDirectory image rootDirectoryInode first others)
    (device : Device) :
    Lists (.regular image) rootDirectoryInode device (directoryEntries (first :: others)) ↔
      ListingHolds image rootDirectoryInode device first others := by
  obtain ⟨blockNumber, hblock, hbytes⟩ := h.blocks 0 first rfl
  have hlength : (directoryEntries (first :: others)).length < 2 ^ 15 := by
    have hcount := h.count
    have hle := length_directoryEntries_le (first :: others)
    unfold directBlocks at hcount
    omega
  by_cases hlt : blockNumber.toNat < 2 ^ 19
  · have hzero := length_block_zero (hbytes ▸ first.length_bytes)
    rw [lists_iff_of_lt hblock hbytes hlt hlength]
    exact readsAs_first_iff hblock hlt hzero
  · have htoNat := blockNumber.isLt
    rw [lists_iff hblock hlength]
    by_cases hge : 2 ^ 32 - 2 ^ 19 ≤ blockNumber.toNat
    · -- the seek fails, and the read goes on from where the file is
      have htoInt : blockNumber.toInt = blockNumber.toNat - 2 ^ 32 := by
        rw [BitVec.toInt_eq_toNat_cond, if_neg (by omega)]
        rfl
      have hseek : device.lseek (blockSize * blockNumber.toInt) = device := by
        rw [Device.lseek, if_neg]
        simp only [blockSize]
        omega
      rw [bufferReadBlock_regular (by omega) (by omega), hseek]
      simp only [Outcome.ok.injEq, exists_eq_left']
      exact ⟨ListingHolds.unseekable hblock hge,
        fun hholds => (hholds.of_ge hblock (by omega)).2⟩
    · -- the offset overflows
      have htoInt : blockNumber.toInt < -2 ^ 19 ∨ 2 ^ 19 ≤ blockNumber.toInt := by
        rw [BitVec.toInt_eq_toNat_cond]
        split <;> omega
      rw [bufferReadBlock_overflow htoInt]
      constructor
      · rintro ⟨device', hread, -⟩
        cases hread
      · intro hholds
        exact absurd (hholds.of_ge hblock (by omega)).1 hge

/-! ## Two blocks -/

/-- Behind a full first block, an image that begins with zeros ends the listing. -/
theorem lists_first_iff {image : Bytes} {rootDirectoryInode : Inode} {first : Tiling}
    {blockNumber : BitVec 32} {entries : List Entry} (device : Device)
    (hblock : rootDirectoryInode.iBlock 0 = .ok blockNumber)
    (hbytes : block image blockNumber.toNat = first.bytes) (hlt : blockNumber.toNat < 2 ^ 19)
    (hused : ∀ x ∈ first.records, x.Used) (hfits : CopiesFit 0 first.records)
    (hboot : loadInt (block image 0) 0 = .ok 0) (hlength : entries.length < 2 ^ 15) :
    Lists (.regular image) rootDirectoryInode device entries ↔
      entries = first.records.map Record.entry := by
  have hzero := length_block_zero (hbytes ▸ first.length_bytes)
  have hrest : ∀ rest, ReadsAs image (block image 0) 1 0 rest ↔ rest = [] := by
    intro rest
    constructor
    · intro h
      cases h with
      | unused => rfl
      | used hinode hne =>
          rw [hboot] at hinode
          exact absurd (Outcome.ok.inj hinode).symm hne
    · rintro rfl
      exact ReadsAs.unused hboot
  rw [lists_iff_of_lt hblock hbytes hlt hlength, readsAs_full_iff hused hzero]
  simp only [hrest, exists_eq_right, List.append_nil, and_iff_right hfits]

/-- Blocks of an image, one after the other. -/
theorem block_flatten {blocks : List Bytes} {bytes : Bytes} {k : Nat}
    (hlength : ∀ bs ∈ blocks, bs.length = blockSize) (hk : blocks[k]? = some bytes) :
    block blocks.flatten k = bytes := by
  induction blocks generalizing k with
  | nil => cases hk
  | cons bs blocks ih =>
      have hbs := hlength bs List.mem_cons_self
      cases k with
      | zero =>
          cases hk
          rw [block, Nat.mul_zero, List.drop_zero, List.flatten_cons, ← hbs, List.take_left]
      | succ k =>
          have hdrop : (bs :: blocks).flatten.drop (blockSize * (k + 1))
              = blocks.flatten.drop (blockSize * k) := by
            rw [List.flatten_cons, Nat.mul_succ, Nat.add_comm, ← List.drop_drop, ← hbs,
              List.drop_left]
          rw [block, hdrop]
          exact ih (fun b hb => hlength b (List.mem_cons_of_mem bs hb)) hk

/-- A record of a given length, filled up with zeros. -/
def Record.sized (recLen : Nat) (inode : BitVec 32) (fileType : UInt8) (name : Bytes)
    (hname : name.length ≤ ext2NameLen) (hlen : 8 + name.length ≤ recLen) (h4 : 4 ∣ recLen) :
    Record where
  inode := inode
  fileType := fileType
  name := name
  padding := List.replicate (recLen - (8 + name.length)) 0
  length_name := hname
  aligned := by rwa [List.length_replicate, Nat.add_sub_cancel' hlen]

@[simp] theorem Record.recLen_sized {len : Nat} {inode : BitVec 32} {fileType : UInt8}
    {name : Bytes} (hname : name.length ≤ ext2NameLen) (hlen : 8 + name.length ≤ len) (h4 : 4 ∣ len) :
    (Record.sized len inode fileType name hname hlen h4).recLen = len := by
  simp only [recLen, sized, List.length_replicate]
  omega

/-- `.` and `..`, as in every root directory, in a block of their own. -/
def dots : Tiling where
  records :=
    [Record.sized 12 2 2 [46] (by decide) (by decide) (by decide),
      Record.sized 4084 2 2 [46, 46] (by decide) (by decide) (by decide)]
  total := by simp [blockSize]

/-- A block with one file, called `a`. -/
def fileA : Tiling where
  records := [Record.sized 4096 11 1 [97] (by decide) (by decide) (by decide)]
  total := by simp [blockSize]

/-- `.` and `..`, and a file `a` whose record is the last twelve bytes. -/
def shortLast : Tiling where
  records :=
    [Record.sized 12 2 2 [46] (by decide) (by decide) (by decide),
      Record.sized 4072 2 2 [46, 46] (by decide) (by decide) (by decide),
      Record.sized 12 11 1 [97] (by decide) (by decide) (by decide)]
  total := by simp [blockSize]

/-- The inode of a root directory with this size, in blocks 5 and 6 of the image. -/
def rootInode (size : BitVec 32) : Inode where
  bytes := ([0x41ed, size, 0, 0, 0, 0, 0x20000, 16, 0, 0, 5, 6, 0, 0, 0, 0, 0, 0, 0, 0, 0, 0, 0, 0, 0,
    0, 0, 0, 0, 0, 0, 0] : List (BitVec 32)).flatMap intBytes
  length_bytes := rfl

/-- The superblock of an image with seven blocks of 4096 bytes and 16 inodes of 128 bytes. -/
def smallSuperblock : Bytes :=
  ([16, 7, 0, 0, 5, 0, 2, 2, 32768, 32768, 16, 0, 0, 0, 0x1ef53, 0, 0, 0, 0, 1, 0, 11, 128] :
    List (BitVec 32)).flatMap intBytes

/-- Bytes at the start of a block of zeros. -/
def padded (bytes : Bytes) : Bytes := bytes ++ List.replicate (blockSize - bytes.length) 0

/-- An image: the superblock behind a boot area of zeros, the group descriptor, the two bitmaps, the
inode table with the root directory in its second place, and the blocks of that directory. -/
def smallImage (root : Inode) (directory : List Tiling) : Bytes :=
  ([ padded (List.replicate 1024 0 ++ smallSuperblock),
     padded (([2, 3, 4] : List (BitVec 32)).flatMap intBytes),
     padded [0x7f],
     padded [0xff, 0x07],
     padded (List.replicate 128 0 ++ root.bytes) ] ++ directory.map Tiling.bytes).flatten

theorem length_padded {bytes : Bytes} (h : bytes.length ≤ blockSize) :
    (padded bytes).length = blockSize := by
  rw [padded, List.length_append, List.length_replicate]
  omega

/-- The blocks of a small image. -/
theorem block_smallImage (root : Inode) {directory : List Tiling} {k : Nat} {tiling : Tiling}
    (hk : directory[k]? = some tiling) :
    block (smallImage root directory) (5 + k) = tiling.bytes := by
  apply block_flatten
  · intro bytes hbytes
    rw [List.mem_append, List.mem_map] at hbytes
    rcases hbytes with hbytes | ⟨tiling, -, rfl⟩
    · simp only [List.mem_cons, List.not_mem_nil, or_false] at hbytes
      have hroot := root.length_bytes
      rcases hbytes with rfl | rfl | rfl | rfl | rfl
      · apply length_padded
        rw [List.length_append, List.length_replicate]
        decide
      · apply length_padded
        decide
      · apply length_padded
        decide
      · apply length_padded
        decide
      · apply length_padded
        rw [List.length_append, List.length_replicate, hroot]
        decide
    · exact tiling.length_bytes
  · rw [List.getElem?_append_right (Nat.le_add_right 5 k)]
    show (directory.map Tiling.bytes)[5 + k - 5]? = some tiling.bytes
    rw [Nat.add_sub_cancel_left, List.getElem?_map, hk]
    rfl

theorem iBlock_rootInode (size : BitVec 32) :
    (rootInode size).iBlock 0 = .ok 5 ∧ (rootInode size).iBlock 1 = .ok 6 :=
  ⟨rfl, rfl⟩

/-- A root directory of one or two blocks. -/
theorem rootDirectory_smallImage {size : BitVec 32} {first : Tiling} {others : List Tiling}
    (hlen : others.length ≤ 1)
    (hsize : size = BitVec.ofNat 32 (blockSize * (first :: others).length)) :
    RootDirectory (smallImage (rootInode size) (first :: others)) (rootInode size) first others where
  count := by
    rw [List.length_cons, directBlocks]
    omega
  iSize := by
    rw [← hsize]
    exact loadInt_intBytes rfl
  blocks := by
    intro k tiling hk
    have hblock := block_smallImage (rootInode size) hk
    have hlt : k < (first :: others).length := (List.getElem?_eq_some_iff.mp hk).1
    rw [List.length_cons] at hlt
    obtain rfl | rfl : k = 0 ∨ k = 1 := by omega
    · exact ⟨5, (iBlock_rootInode size).1, hblock⟩
    · exact ⟨6, (iBlock_rootInode size).2, hblock⟩

/-- The boot area of a small image is empty. -/
theorem loadInt_smallImage (root : Inode) (directory : List Tiling) :
    loadInt (block (smallImage root directory) 0) 0 = .ok 0 :=
  loadInt_intBytes rfl

/-- A program that has just been started. -/
def startDevice : Device where
  position := 0
  buffer := List.replicate blockSize 0
  length_buffer := List.length_replicate
  printed := []

theorem used_dots : ∀ x ∈ dots.records, x.Used := by decide

theorem copiesFit_dots : CopiesFit 0 dots.records := by
  simp only [dots, copiesFit_cons, Record.recLen_sized]
  exact ⟨by decide, by decide, copiesFit_nil _⟩

/-- A directory of one full block is listed. -/
theorem lists_root_directory_dots :
    Lists (.regular (smallImage (rootInode 4096) [dots])) (rootInode 4096) startDevice
      (directoryEntries [dots]) :=
  (lists_root_directory_iff (rootDirectory_smallImage (by decide) (by decide)) startDevice).mpr
    (.repeats (iBlock_rootInode 4096).1 (by decide) used_dots copiesFit_dots
      (.unused (loadInt_smallImage (rootInode 4096) [dots])))

/-- Of a directory of two full blocks, the second one is not listed, whatever has been read before.
-/
theorem not_lists_twoBlocks :
    RootDirectory (smallImage (rootInode 8192) [dots, fileA]) (rootInode 8192) dots [fileA] ∧
      ∀ device : Device,
        Lists (.regular (smallImage (rootInode 8192) [dots, fileA])) (rootInode 8192) device
          (dots.records.map Record.entry) ∧
        ¬ Lists (.regular (smallImage (rootInode 8192) [dots, fileA])) (rootInode 8192) device
          (directoryEntries [dots, fileA]) := by
  refine ⟨rootDirectory_smallImage le_rfl (by decide), fun device => ?_⟩
  have hlists : ∀ entries : List Entry, entries.length < 2 ^ 15 →
      (Lists (.regular (smallImage (rootInode 8192) [dots, fileA])) (rootInode 8192) device
        entries ↔ entries = dots.records.map Record.entry) := by
    intro entries
    exact lists_first_iff device (iBlock_rootInode 8192).1
      (block_smallImage (rootInode 8192) (k := 0) rfl) (by decide) used_dots copiesFit_dots
      (loadInt_smallImage (rootInode 8192) [dots, fileA])
  constructor
  · exact (hlists _ (by decide)).mpr rfl
  · intro h
    have hentries := (hlists _ (by decide)).mp h
    exact absurd hentries (by decide)

end Cs342.Ext2
