import Mathlib
import Cs342.Ext2.Listing

/-!
# When the listing ends (`populate_dir_entry_list`)

A record in use takes the loop further into the directory, unless its `rec_len` is 0: then the loop
stays where it is for ever, except at the start of a block, where it goes on to the next block. The
loop ends exactly if every round it comes to leaves it or gets on (`listing_ends_iff`). Behind a
full block it comes to the boot area of the image, so this is no matter of the directory alone
(`listing_does_not_end`).
-/

namespace Cs342.Ext2

open ByteBuffer Loop

/-! ## The condition -/

/-- `populate_dir_entry_list` returns. -/
def Ends (image : Bytes) (rootDirectoryInode : Inode) (device : Device) : Prop :=
  ∃ fuel s, populateDirEntryList (.regular image) rootDirectoryInode device initDirEntryList fuel
    = .ok (some s)

/-- The first block of the directory has been read, and `s` is the state in front of the loop. -/
def StartsAt (image : Bytes) (rootDirectoryInode : Inode) (device : Device) (s : Walk) : Prop :=
  ∃ blockNumber device', rootDirectoryInode.iBlock 0 = .ok blockNumber ∧
    bufferReadBlock (.regular image) blockNumber.toInt device = .ok device' ∧
    s = { device := device', blockOffset := 0, dirEntryOffset := 0
          dirEntryList := initDirEntryList }

/-- The rounds that leave the loop or get on. -/
inductive Walk.GetsOn (s : Walk) : Prop
  /-- An inode number of 0. -/
  | ends (hinode : loadInt s.device.buffer s.dirEntry = .ok 0)
  /-- A record in use with a whole struct in the buffer, and a length that leads somewhere. -/
  | record {inode : BitVec 32} {dirEntry : DirEntry}
      (hinode : loadInt s.device.buffer s.dirEntry = .ok inode) (hne : inode ≠ 0)
      (hload : DirEntry.load s.device.buffer s.dirEntry = .ok dirEntry)
      (hrecLen : 0 < dirEntry.recLen.toNat ∨ s.dirEntry = 0)
      (hoffset : s.dirEntryOffset + dirEntry.recLen.toNat < 2 ^ 31)
      (hblock : (s.dirEntryOffset + dirEntry.recLen.toNat) % blockSize = 0 →
        s.blockOffset < 2 ^ 19)

/-- A record in use of length 0, inside a block. -/
def Walk.Stuck (s : Walk) : Prop :=
  s.dirEntry ≠ 0 ∧ s.dirEntryOffset < 2 ^ 31 ∧
    ∃ inode dirEntry, loadInt s.device.buffer s.dirEntry = .ok inode ∧ inode ≠ 0 ∧
      DirEntry.load s.device.buffer s.dirEntry = .ok dirEntry ∧ dirEntry.recLen.toNat = 0

/-! ## The rounds -/

section Rounds

variable {image : Bytes} {s s' t : Walk}

/-- The end of the loop body is defined as long as no int overflows. -/
theorem Walk.advance_bounds {recLen : Nat} (h : s.advance (.regular image) recLen = .ok s') :
    s.dirEntryOffset + recLen < 2 ^ 31 ∧
      ((s.dirEntryOffset + recLen) % blockSize = 0 → s.blockOffset < 2 ^ 19) := by
  simp only [advance] at h
  split at h
  · cases h
  · next hlt =>
      refine ⟨not_le.mp hlt, fun hend => ?_⟩
      rw [if_pos hend] at h
      obtain ⟨device, hread, -⟩ := Outcome.bind_eq_ok.mp h
      by_contra hge
      rw [bufferReadBlock_overflow (.inr (by omega))] at hread
      cases hread

/-- A round that is defined gets on, or it is stuck. -/
theorem Walk.getsOn_of_round {step : ForInStep Walk} (h : s.round (.regular image) = .ok step) :
    s.GetsOn ∨ s.Stuck := by
  cases step with
  | done s' => exact .inl (.ends (Walk.round_eq_done.mp h).1)
  | yield s' =>
      obtain ⟨inode, dirEntry, hinode, hne, hload, hadvance⟩ := Walk.round_eq_yield.mp h
      obtain ⟨hoffset, hblock⟩ := Walk.advance_bounds hadvance
      by_cases hrecLen : 0 < dirEntry.recLen.toNat ∨ s.dirEntry = 0
      · exact .inl (.record hinode hne hload hrecLen hoffset hblock)
      · rw [not_or, not_lt, Nat.le_zero] at hrecLen
        simp only at hoffset
        exact .inr ⟨hrecLen.2, by omega, inode, dirEntry, hinode, hne, hload, hrecLen.1⟩

/-- From a stuck state the loop comes back to it. -/
theorem Walk.Stuck.round (h : s.Stuck) :
    ∃ s', s.round (.regular image) = .ok (.yield s') ∧ s'.Stuck := by
  obtain ⟨hplace, hoffset, inode, dirEntry, hinode, hne, hload, hrecLen⟩ := h
  have hend : s.dirEntryOffset % blockSize ≠ 0 := hplace
  obtain ⟨s', hyield, hfollow, hoffset', -⟩ := Walk.round_regular image hinode hne hload
    (by omega) (by rw [hrecLen, Nat.add_zero]; exact fun h => absurd h hend)
  have hplace' : s.dirEntry % blockSize = s.dirEntry := Nat.mod_mod _ _
  rw [hrecLen, follow, Nat.add_zero, hplace', if_neg hplace] at hfollow
  obtain ⟨hbuffer, -, hdirEntry⟩ := Prod.ext_iff.mp hfollow |>.imp_right Prod.ext_iff.mp
  simp only at hbuffer hdirEntry
  refine ⟨s', hyield, ?_, by omega, inode, dirEntry, ?_, hne, ?_, hrecLen⟩
  · rw [hdirEntry]
    exact hplace
  · rw [hbuffer, hdirEntry]
    exact hinode
  · rw [hbuffer, hdirEntry]
    exact hload

/-- What is left until an int overflows. -/
def Walk.room (s : Walk) : Nat := (2 ^ 31 - s.dirEntryOffset) + (2 ^ 19 - s.blockOffset)

/-- **Progress**: a round that gets on leaves less room. -/
theorem Walk.GetsOn.round (h : s.GetsOn) :
    (∃ s', s.round (.regular image) = .ok (.done s')) ∨
      ∃ s', s.round (.regular image) = .ok (.yield s') ∧ s'.room < s.room := by
  cases h with
  | ends hinode => exact .inl ⟨s, Walk.round_eq_done.mpr ⟨hinode, rfl⟩⟩
  | record hinode hne hload hrecLen hoffset hblock =>
      next inode dirEntry =>
      obtain ⟨s', hyield, hfollow, hoffset', -⟩ :=
        Walk.round_regular image hinode hne hload hoffset hblock
      refine .inr ⟨s', hyield, ?_⟩
      have hnext : s'.blockOffset = _ := (congrArg (·.2.1) hfollow).trans (follow_next ..)
      have hplace : (s.dirEntryOffset + dirEntry.recLen.toNat) % blockSize
          = (s.dirEntry + dirEntry.recLen.toNat) % blockSize := by
        rw [Walk.dirEntry, Nat.mod_add_mod]
      simp only [Walk.room]
      rcases hrecLen with hrecLen | hzero
      · split at hnext <;> omega
      · -- the block counter goes on where the offset does not
        by_cases hrecLen : 0 < dirEntry.recLen.toNat
        · split at hnext <;> omega
        · have hlen : dirEntry.recLen.toNat = 0 := by omega
          rw [hlen, Nat.add_zero] at hplace hblock hnext
          have hend : s.dirEntry % blockSize = 0 := by rw [hzero, Nat.zero_mod]
          rw [if_pos hend] at hnext
          have hlt := hblock (hplace.trans hend)
          omega

/-- A record in use with others behind it in its block leads to the next one. -/
theorem Walk.round_inside (image : Bytes) {r : Record} {rest : Bytes}
    (hdrop : s.device.buffer.drop s.dirEntry = r.bytes ++ rest) (hused : r.Used)
    (hfits : s.dirEntry + sizeofDirEntry ≤ blockSize) (hnext : s.dirEntry + r.recLen < blockSize)
    (hoffset : s.dirEntryOffset + r.recLen < 2 ^ 31) :
    ∃ s', s.round (.regular image) = .ok (.yield s') ∧
      s'.device.buffer.drop s'.dirEntry = rest ∧ s'.device.buffer = s.device.buffer ∧
      s'.blockOffset = s.blockOffset ∧ s'.dirEntry = s.dirEntry + r.recLen ∧
      s'.dirEntryOffset = s.dirEntryOffset + r.recLen := by
  have hrecLen := r.recLen_pos
  have hlen : r.recLen < 2 ^ 16 := by
    simp only [blockSize] at hnext
    omega
  have hplace : (s.dirEntryOffset + r.recLen) % blockSize ≠ 0 := by
    rw [← Nat.mod_add_mod]
    show (s.dirEntry + r.recLen) % blockSize ≠ 0
    rw [Nat.mod_eq_of_lt hnext]
    omega
  obtain ⟨s', hyield, hfollow, hoffset'⟩ := Walk.round_record image hdrop hused hlen hfits hoffset
    fun h => absurd h hplace
  rw [follow_of_lt hrecLen hnext, Prod.mk.injEq, Prod.mk.injEq] at hfollow
  obtain ⟨hbuffer, hblock, hdirEntry⟩ := hfollow
  have hrest := drop_recLen hdrop
  rw [← hbuffer, ← hdirEntry] at hrest
  exact ⟨s', hyield, hrest, hbuffer, hblock, hdirEntry, hoffset'⟩

/-- The last record of a block leads to the start of the next block that is read. -/
theorem Walk.round_last {image : Bytes} {r : Record} {rest : Bytes}
    (hdrop : s.device.buffer.drop s.dirEntry = r.bytes ++ rest) (hused : r.Used)
    (hfits : s.dirEntry + sizeofDirEntry ≤ blockSize) (hend : s.dirEntry + r.recLen = blockSize)
    (hoffset : s.dirEntryOffset + r.recLen < 2 ^ 31) (hblock : s.blockOffset < 2 ^ 19)
    (hfull : (block image s.blockOffset).length = blockSize) :
    ∃ s', s.round (.regular image) = .ok (.yield s') ∧
      s'.device.buffer = block image s.blockOffset ∧ s'.dirEntry = 0 ∧
      s'.dirEntryOffset = s.dirEntryOffset + r.recLen := by
  have hlen : r.recLen < 2 ^ 16 := by
    simp only [blockSize] at hend
    omega
  obtain ⟨s', hyield, hfollow, hoffset'⟩ := Walk.round_record image hdrop hused hlen hfits hoffset
    fun _ => hblock
  rw [follow_of_eq hend, overwrite_of_length (hfull.trans s.device.length_buffer.symm),
    Prod.mk.injEq, Prod.mk.injEq] at hfollow
  obtain ⟨hbuffer, -, hdirEntry⟩ := hfollow
  exact ⟨s', hyield, hbuffer, hdirEntry, hoffset'⟩

end Rounds

/-! ## The loop -/

theorem ends_iff_exits {image : Bytes} {rootDirectoryInode : Inode} {device : Device} :
    Ends image rootDirectoryInode device ↔
      ∃ s, StartsAt image rootDirectoryInode device s ∧
        ∃ t, Exits (Walk.round (.regular image)) s t := by
  constructor
  · rintro ⟨fuel, t, hrun⟩
    obtain ⟨blockNumber, hblock, hrun⟩ := Outcome.bind_eq_ok.mp hrun
    obtain ⟨device', hread, hrun⟩ := Outcome.bind_eq_ok.mp hrun
    exact ⟨_, ⟨blockNumber, device', hblock, hread, rfl⟩, t, fuel, hrun⟩
  · rintro ⟨_, ⟨blockNumber, device', hblock, hread, rfl⟩, t, fuel, hrun⟩
    refine ⟨fuel, t, ?_⟩
    rw [populateDirEntryList, hblock, Outcome.ok_bind, hread]
    exact hrun

/-- **Termination of the listing**: the first block of the directory can be read, and every round
that the loop comes to leaves it or gets on. -/
theorem listing_ends_iff (image : Bytes) (rootDirectoryInode : Inode) (device : Device) :
    Ends image rootDirectoryInode device ↔
      ∃ s, StartsAt image rootDirectoryInode device s ∧
        ∀ t, Reaches (Walk.round (.regular image)) s t → t.GetsOn := by
  rw [ends_iff_exits]
  constructor
  · rintro ⟨s, hstart, u, hexits⟩
    refine ⟨s, hstart, fun t ht => ?_⟩
    have hrest := hexits.of_reaches ht
    have hround : ∃ step, t.round (.regular image) = .ok step := by
      rcases exits_iff.mp hrest with hdone | ⟨t', hyield, -⟩
      · exact ⟨_, hdone⟩
      · exact ⟨_, hyield⟩
    obtain ⟨step, hstep⟩ := hround
    rcases Walk.getsOn_of_round hstep with hgets | hstuck
    · exact hgets
    · exact absurd hrest (not_exits_of_forever hstuck fun v hv => hv.round)
  · rintro ⟨s, hstart, hgets⟩
    exact ⟨s, hstart, exits_of_measure Walk.room fun t ht => (hgets t ht).round⟩

/-! ## A boot area with code -/

/-- What a boot area may start with. Taken for records, it is one of eight bytes, and one of length
0 behind it. -/
def bootCode : Bytes := intBytes 1 ++ (intBytes 8 ++ (intBytes 1 ++ intBytes 0))

/-- A small image with this code in its boot area. -/
def bootImage (root : Inode) (directory : List Tiling) : Bytes :=
  overwrite bootCode (smallImage root directory)

/-- Bytes at the start of an image change its first block only. -/
theorem block_overwrite {bytes image : Bytes} {n : Nat} (hlen : bytes.length ≤ blockSize)
    (hn : 0 < n) : block (overwrite bytes image) n = block image n := by
  have hle : bytes.length ≤ blockSize * n := hlen.trans (Nat.le_mul_of_pos_right blockSize hn)
  rw [block, overwrite, List.drop_append, List.drop_of_length_le hle, List.nil_append,
    List.drop_drop, Nat.add_sub_cancel' hle, block]

/-- The boot area is no part of the directory. -/
theorem rootDirectory_bootImage {size : BitVec 32} {first : Tiling} {others : List Tiling}
    (hlen : others.length ≤ 1)
    (hsize : size = BitVec.ofNat 32 (blockSize * (first :: others).length)) :
    RootDirectory (bootImage (rootInode size) (first :: others)) (rootInode size) first others := by
  have h : RootDirectory (smallImage (rootInode size) (first :: others)) (rootInode size) first
      others :=
    rootDirectory_smallImage hlen hsize
  refine ⟨h.count, h.iSize, fun k tiling hk => ?_⟩
  obtain ⟨blockNumber, hblock, hbytes⟩ := h.blocks k tiling hk
  refine ⟨blockNumber, hblock, ?_⟩
  have hlt : k < (first :: others).length := (List.getElem?_eq_some_iff.mp hk).1
  rw [List.length_cons] at hlt
  have hpos : 0 < blockNumber.toNat := by
    obtain rfl | rfl : k = 0 ∨ k = 1 := by omega
    · rw [(iBlock_rootInode size).1] at hblock
      cases hblock
      decide
    · rw [(iBlock_rootInode size).2] at hblock
      cases hblock
      decide
  rw [bootImage, block_overwrite (by decide) hpos, hbytes]

/-- The first record of the boot code. -/
def bootRecord : Record := Record.sized 8 1 0 [] (by decide) (by decide) (by decide)

theorem block_bootImage (root : Inode) (directory : List Tiling) :
    ∃ rest, block (bootImage root directory) 0
      = bootRecord.bytes ++ (intBytes 1 ++ (intBytes 0 ++ rest)) :=
  ⟨_, rfl⟩

theorem stuck_of_drop {s : Walk} {rest : Bytes}
    (hdrop : s.device.buffer.drop s.dirEntry = intBytes 1 ++ (intBytes 0 ++ rest))
    (hplace : s.dirEntry ≠ 0) (hfits : s.dirEntry + sizeofDirEntry ≤ blockSize)
    (hoffset : s.dirEntryOffset < 2 ^ 31) : s.Stuck := by
  obtain ⟨dirEntry, hload⟩ :=
    DirEntry.exists_load.mpr (hfits.trans_eq s.device.length_buffer.symm)
  refine ⟨hplace, hoffset, 1, dirEntry, loadInt_intBytes hdrop, by decide, hload, ?_⟩
  rw [DirEntry.load, ByteBuffer.load, if_pos (hfits.trans_eq s.device.length_buffer.symm),
    Outcome.ok_bind, hdrop] at hload
  cases hload
  rfl

/-- Behind the full block of the directory, the loop gets stuck in the boot area. -/
theorem reaches_stuck {image : Bytes} {s : Walk} {rest : Bytes}
    (hboot : block image 0 = bootRecord.bytes ++ (intBytes 1 ++ (intBytes 0 ++ rest)))
    (hlength : (block image 0).length = blockSize) (hbuffer : s.device.buffer = dots.bytes)
    (hnext : s.blockOffset = 0) (hoffset : s.dirEntryOffset = 0) :
    ∃ t, Reaches (Walk.round (.regular image)) s t ∧ t.Stuck := by
  have hplace : s.dirEntry = 0 := by rw [Walk.dirEntry, hoffset, Nat.zero_mod]
  obtain ⟨dot, dotdot, hdots, hdot, hdotdot, hused, hused'⟩ : ∃ dot dotdot : Record,
      dots.bytes = dot.bytes ++ (dotdot.bytes ++ []) ∧ dot.recLen = 12 ∧ dotdot.recLen = 4084 ∧
        dot.Used ∧ dotdot.Used :=
    ⟨_, _, rfl, Record.recLen_sized .., Record.recLen_sized .., by decide, by decide⟩
  -- the two records of the directory
  have hdrop : s.device.buffer.drop s.dirEntry = dot.bytes ++ (dotdot.bytes ++ []) := by
    rw [hplace, hbuffer, hdots, List.drop_zero]
  obtain ⟨s₁, hround₁, hdrop₁, -, hnext₁, hplace₁, hoffset₁⟩ := Walk.round_inside image hdrop hused
    (by rw [hplace]; decide) (by rw [hplace, hdot]; decide) (by omega)
  rw [hplace, hdot] at hplace₁
  have hzero : s₁.blockOffset = 0 := hnext₁.trans hnext
  obtain ⟨s₂, hround₂, hbuffer₂, hplace₂, hoffset₂⟩ := Walk.round_last hdrop₁ hused'
    (by rw [hplace₁]; decide) (by rw [hplace₁, hdotdot]; rfl) (by omega) (by omega)
    (hzero ▸ hlength)
  -- the boot area
  have hdrop₂ : s₂.device.buffer.drop s₂.dirEntry
      = bootRecord.bytes ++ (intBytes 1 ++ (intBytes 0 ++ rest)) := by
    rw [hplace₂, hbuffer₂, hzero, List.drop_zero, hboot]
  have hlen : bootRecord.recLen = 8 := Record.recLen_sized ..
  obtain ⟨s₃, hround₃, hdrop₃, -, -, hplace₃, hoffset₃⟩ := Walk.round_inside image hdrop₂
    (by decide) (by rw [hplace₂]; decide) (by rw [hplace₂, hlen]; decide) (by omega)
  rw [hplace₂, hlen] at hplace₃
  have hstuck : s₃.Stuck := stuck_of_drop hdrop₃ (by rw [hplace₃]; decide)
    (by rw [hplace₃]; decide) (by omega)
  exact ⟨s₃, .of_yield hround₁ (.of_yield hround₂ (.of_yield hround₃ .refl)), hstuck⟩

/-- An image with boot code whose root directory is a block of its own: the listing does not end,
whatever has been read before. -/
theorem listing_does_not_end :
    RootDirectory (bootImage (rootInode 4096) [dots]) (rootInode 4096) dots [] ∧
      ∀ device : Device, ¬ Ends (bootImage (rootInode 4096) [dots]) (rootInode 4096) device := by
  refine ⟨rootDirectory_bootImage (by decide) (by decide), fun device => ?_⟩
  have hblock : block (bootImage (rootInode 4096) [dots]) 5 = dots.bytes :=
    (block_overwrite (by decide) (by decide)).trans (block_smallImage (rootInode 4096) (k := 0) rfl)
  have hlength : (block (bootImage (rootInode 4096) [dots]) 0).length = blockSize :=
    length_block_zero (hblock ▸ dots.length_bytes)
  obtain ⟨rest, hboot⟩ := block_bootImage (rootInode 4096) [dots]
  rw [ends_iff_exits]
  rintro ⟨s, ⟨blockNumber, device', hiBlock, hread, rfl⟩, t, hexits⟩
  rw [(iBlock_rootInode 4096).1] at hiBlock
  cases hiBlock
  obtain ⟨device'', hread', hbuffer⟩ := bufferReadBlock_of_lt
    (bootImage (rootInode 4096) [dots]) (n := 5) (by norm_num) device
  rw [hblock, overwrite_of_length (dots.length_bytes.trans device.length_buffer.symm)] at hbuffer
  have hsame : device' = device'' := Outcome.ok.inj (hread.symm.trans hread')
  obtain ⟨u, hreaches, hstuck⟩ := reaches_stuck hboot hlength
    (s := { device := device', blockOffset := 0, dirEntryOffset := 0
            dirEntryList := initDirEntryList }) (hsame ▸ hbuffer) rfl rfl
  exact not_exits_of_forever hstuck (fun v hv => hv.round) (hexits.of_reaches hreaches)

end Cs342.Ext2
