import Mathlib
import Cs342.Paging.Params

/-!
# Regions in 32 bits

Addresses are written into the input files as unsigned numbers, and the parser keeps their 32 bits
(`parseInputVirtualRegions_hex`, `parseInputVirtualAddresses_hex`). The region check compares them
as ints. That is the same order in either half of the address space, but the upper half comes first:
a region across the middle holds no address, and one whose ends are the wrong way around holds what
lies outside of them. Where both kinds are out of the picture the check is the unsigned one:
**`region_check_iff`**.
-/

namespace Cs342.Paging

open ByteBuffer (Bytes)

/-! ## Files of hexadecimal numbers -/

/-- The words of a file of regions. -/
inductive RegionWords : List Bytes → List VirtualRegion → Prop
  | nil : RegionWords [] []
  | cons {base pastEnd : Bytes} {region : VirtualRegion} {words : List Bytes}
      {regions : List VirtualRegion} : Strtol.HexNumeral base region.base →
      Strtol.HexNumeral pastEnd region.pastEnd → RegionWords words regions →
      RegionWords (base :: pastEnd :: words) (region :: regions)

/-- A text that consists of the regions, in hexadecimal numbers. -/
def RegionText (text : Bytes) (regions : List VirtualRegion) : Prop :=
  ∃ words, Scanf.Words words text ∧ RegionWords words regions

/-- A text that consists of the addresses. -/
def AddressText (text : Bytes) (addresses : List (BitVec 32)) : Prop :=
  ∃ words, Scanf.Words words text ∧ List.Forall₂ Strtol.HexNumeral words addresses

section Text

variable {text : Bytes} {region : VirtualRegion} {regions : List VirtualRegion}
  {address : BitVec 32} {addresses : List (BitVec 32)}

theorem scanWord_hex {word : Bytes} {words : List Bytes} {x : BitVec 32}
    (hwords : Scanf.Words (word :: words) text) (hword : Strtol.HexNumeral word x) :
    ∃ rest, Scanf.scanWord addressSize text = .ok (some (CString.ofBytes word), rest) ∧
      Scanf.Words words rest :=
  Scanf.scanWord_cons hwords (Nat.lt_succ_of_le hword.isWord.2)

theorem scanRegion_nil (h : RegionText text []) : ∃ rest, scanRegion text = .ok (none, rest) := by
  obtain ⟨words, hwords, hregions⟩ := h
  cases hregions
  rw [scanRegion, Scanf.scanWord_nil hwords]
  exact ⟨[], rfl⟩

theorem scanRegion_cons (h : RegionText text (region :: regions)) :
    ∃ rest, scanRegion text = .ok (some region, rest) ∧ RegionText rest regions := by
  obtain ⟨words, hwords, hregions⟩ := h
  cases hregions with
  | cons hbase hpastEnd hregions =>
      obtain ⟨mid, hread, hmid⟩ := scanWord_hex hwords hbase
      obtain ⟨rest, hread', hrest⟩ := scanWord_hex hmid hpastEnd
      refine ⟨rest, ?_, _, hrest, hregions⟩
      rw [scanRegion, hread, Outcome.ok_bind]
      dsimp only
      rw [hread', Outcome.ok_bind, Strtol.strtolInt_hex hbase]
      dsimp only
      rw [Strtol.strtolInt_hex hpastEnd]
      rfl

theorem scanAddress_nil (h : AddressText text []) :
    ∃ rest, scanAddress text = .ok (none, rest) := by
  obtain ⟨words, hwords, haddresses⟩ := h
  cases haddresses
  rw [scanAddress, Scanf.scanWord_nil hwords]
  exact ⟨[], rfl⟩

theorem scanAddress_cons (h : AddressText text (address :: addresses)) :
    ∃ rest, scanAddress text = .ok (some address, rest) ∧ AddressText rest addresses := by
  obtain ⟨words, hwords, haddresses⟩ := h
  cases haddresses with
  | cons haddress haddresses =>
      obtain ⟨rest, hread, hrest⟩ := scanWord_hex hwords haddress
      refine ⟨rest, ?_, _, hrest, haddresses⟩
      rw [scanAddress, hread, Outcome.ok_bind]
      dsimp only
      rw [Strtol.strtolInt_hex haddress]
      rfl

variable {files : Files} {fname : CString}

/-- **The parsed regions** have the bits that the file says. -/
theorem parseInputVirtualRegions_hex (hfile : files fname = some text)
    (htext : RegionText text regions) {parsed : List VirtualRegion} :
    parseInputVirtualRegions files fname = .ok parsed ↔ parsed = regions ∧ regions ≠ [] := by
  have hread : regionReader.readAll text [] = .ok ([] ++ regions) :=
    Scanf.Reader.readAll_eq (fun _ => scanRegion_nil) (fun _ _ _ => scanRegion_cons) htext []
  rw [parseInputVirtualRegions_eq_ok]
  constructor
  · rintro ⟨contents, hopen, hparsed, hne⟩
    cases hopen.symm.trans hfile
    cases hparsed.symm.trans hread
    exact ⟨rfl, hne⟩
  · rintro ⟨rfl, hne⟩
    exact ⟨text, hfile, hread, hne⟩

/-- **The parsed addresses** have the bits that the file says. -/
theorem parseInputVirtualAddresses_hex (hfile : files fname = some text)
    (htext : AddressText text addresses) {parsed : List (BitVec 32)} {total : Int} :
    parseInputVirtualAddresses files fname = .ok (parsed, total) ↔
      parsed = addresses ∧ addresses ≠ [] ∧ total = addresses.length ∧
        (addresses.length : Int) < 2 ^ 31 := by
  have hread : addressReader.readAll text [] = .ok ([] ++ addresses) :=
    Scanf.Reader.readAll_eq (fun _ => scanAddress_nil) (fun _ _ _ => scanAddress_cons) htext []
  rw [parseInputVirtualAddresses_eq_ok]
  constructor
  · rintro ⟨contents, hopen, hparsed, hne, htotal, hlt⟩
    cases hopen.symm.trans hfile
    cases hparsed.symm.trans hread
    exact ⟨rfl, hne, htotal, hlt⟩
  · rintro ⟨rfl, hne, htotal, hlt⟩
    exact ⟨text, hfile, hread, hne, htotal, hlt⟩

end Text

/-! ## Signed and unsigned regions -/

namespace VirtualRegion

/-- The address lies in the region, as unsigned numbers. -/
def Contains (region : VirtualRegion) (address : BitVec 32) : Prop :=
  region.base ≤ address ∧ address < region.pastEnd

/-- Both ends lie in the same half of the address space. -/
def SameHalf (region : VirtualRegion) : Prop := region.base.msb = region.pastEnd.msb

/-- The region goes from the lower half to the upper half. -/
def Crosses (region : VirtualRegion) : Prop :=
  region.base.msb = false ∧ region.pastEnd.msb = true

/-- The base lies in the upper half, and the end in the lower half. -/
def Wraps (region : VirtualRegion) : Prop :=
  region.base.msb = true ∧ region.pastEnd.msb = false

variable {region : VirtualRegion} {address : BitVec 32}

theorem half_cases (region : VirtualRegion) :
    region.SameHalf ∨ region.Crosses ∨ region.Wraps := by
  unfold SameHalf Crosses Wraps
  cases region.base.msb <;> cases region.pastEnd.msb <;> simp

/-- What the region check asks of one region. -/
theorem signed_sameHalf (h : region.SameHalf) :
    (region.base.toInt ≤ address.toInt ∧ address.toInt < region.pastEnd.toInt) ↔
      region.Contains address := by
  unfold SameHalf at h
  rw [BitVec.msb_eq_decide, BitVec.msb_eq_decide, decide_eq_decide] at h
  rw [Contains, BitVec.le_def, BitVec.lt_def, BitVec.toInt_eq_toNat_cond,
    BitVec.toInt_eq_toNat_cond, BitVec.toInt_eq_toNat_cond]
  have := address.isLt
  have := region.base.isLt
  have := region.pastEnd.isLt
  split <;> split <;> split <;> omega

theorem signed_crosses (h : region.Crosses) :
    ¬ (region.base.toInt ≤ address.toInt ∧ address.toInt < region.pastEnd.toInt) := by
  obtain ⟨hbase, hpastEnd⟩ := h
  rw [BitVec.msb_eq_toInt, decide_eq_false_iff_not] at hbase
  rw [BitVec.msb_eq_toInt, decide_eq_true_eq] at hpastEnd
  omega

theorem signed_wraps (h : region.Wraps) :
    (region.base.toInt ≤ address.toInt ∧ address.toInt < region.pastEnd.toInt) ↔
      region.base ≤ address ∨ address < region.pastEnd := by
  obtain ⟨hbase, hpastEnd⟩ := h
  rw [BitVec.msb_eq_decide, decide_eq_true_eq] at hbase
  rw [BitVec.msb_eq_decide, decide_eq_false_iff_not] at hpastEnd
  rw [BitVec.le_def, BitVec.lt_def, BitVec.toInt_eq_toNat_cond,
    BitVec.toInt_eq_toNat_cond, BitVec.toInt_eq_toNat_cond]
  have := address.isLt
  have := region.base.isLt
  have := region.pastEnd.isLt
  split <;> split <;> split <;> omega

theorem not_contains_of_wraps (h : region.Wraps) : ¬ region.Contains address := by
  obtain ⟨hbase, hpastEnd⟩ := h
  rw [BitVec.msb_eq_decide, decide_eq_true_eq] at hbase
  rw [BitVec.msb_eq_decide, decide_eq_false_iff_not] at hpastEnd
  rw [Contains, BitVec.le_def, BitVec.lt_def]
  omega

end VirtualRegion

open VirtualRegion

section Check

variable {regions : List VirtualRegion} {address : BitVec 32}

/-- The address lies in a region with both ends in the same half. -/
def InSameHalf (regions : List VirtualRegion) (address : BitVec 32) : Prop :=
  ∃ region ∈ regions, region.SameHalf ∧ region.Contains address

/-- The address lies in a region across the middle. -/
def InCrossing (regions : List VirtualRegion) (address : BitVec 32) : Prop :=
  ∃ region ∈ regions, region.Crosses ∧ region.Contains address

/-- The address lies outside of what is between the ends of a region that wraps around. -/
def InWrapped (regions : List VirtualRegion) (address : BitVec 32) : Prop :=
  ∃ region ∈ regions, region.Wraps ∧ (region.base ≤ address ∨ address < region.pastEnd)

/-- **What the check says**. -/
theorem isVirtualAddressInRange_halves :
    isVirtualAddressInRange regions address = true ↔
      InSameHalf regions address ∨ InWrapped regions address := by
  rw [isVirtualAddressInRange_iff]
  constructor
  · rintro ⟨region, hmem, h⟩
    rcases region.half_cases with hsame | hcross | hwrap
    · exact .inl ⟨region, hmem, hsame, (signed_sameHalf hsame).mp h⟩
    · exact absurd h (signed_crosses hcross)
    · exact .inr ⟨region, hmem, hwrap, (signed_wraps hwrap).mp h⟩
  · rintro (⟨region, hmem, hsame, h⟩ | ⟨region, hmem, hwrap, h⟩)
    · exact ⟨region, hmem, (signed_sameHalf hsame).mpr h⟩
    · exact ⟨region, hmem, (signed_wraps hwrap).mpr h⟩

/-- **And what it is meant to say**. -/
theorem exists_contains_halves :
    (∃ region ∈ regions, region.Contains address) ↔
      InSameHalf regions address ∨ InCrossing regions address := by
  constructor
  · rintro ⟨region, hmem, h⟩
    rcases region.half_cases with hsame | hcross | hwrap
    · exact .inl ⟨region, hmem, hsame, h⟩
    · exact .inr ⟨region, hmem, hcross, h⟩
    · exact absurd h (not_contains_of_wraps hwrap)
  · rintro (⟨region, hmem, -, h⟩ | ⟨region, hmem, -, h⟩)
    · exact ⟨region, hmem, h⟩
    · exact ⟨region, hmem, h⟩

/-- The two agree where neither kind of mistake counts, or both do. -/
theorem check_agrees_iff :
    (isVirtualAddressInRange regions address = true ↔
        ∃ region ∈ regions, region.Contains address) ↔
      InSameHalf regions address ∨ (InWrapped regions address ↔ InCrossing regions address) := by
  rw [isVirtualAddressInRange_halves, exists_contains_halves]
  by_cases h : InSameHalf regions address
  · simp only [h, true_or]
  · simp only [h, false_or]

end Check

/-! ## The region check -/

/-- The two input files, with what they say. -/
structure InputFiles (files : Files) (regionsName addressesName : CString)
    (regions : List VirtualRegion) (addresses : List (BitVec 32)) : Prop where
  regionText : ∃ text, files regionsName = some text ∧ RegionText text regions
  addressText : ∃ text, files addressesName = some text ∧ AddressText text addresses

/-- Both files are parsed, and the check of the parsed address number `i` says whether some region
of the file contains this address of the file. -/
def CheckedUnsigned (files : Files) (regionsName addressesName : CString)
    (regions : List VirtualRegion) (addresses : List (BitVec 32)) (i : Nat) : Prop :=
  ∃ parsedRegions parsedAddresses total parsed address,
    parseInputVirtualRegions files regionsName = .ok parsedRegions ∧
    parseInputVirtualAddresses files addressesName = .ok (parsedAddresses, total) ∧
    parsedAddresses[i]? = some parsed ∧ addresses[i]? = some address ∧
    (isVirtualAddressInRange parsedRegions parsed = true ↔
      ∃ region ∈ regions, region.Contains address)

/-- **The region check** is that of unsigned numbers exactly if there are regions, an int counts the
addresses, and for those regions whose ends lie in different halves the two mistakes make up for
each other, where the address does not lie in one of the other regions anyway. -/
theorem region_check_iff (files : Files) (regionsName addressesName : CString)
    (regions : List VirtualRegion) (addresses : List (BitVec 32)) (i : Nat) (address : BitVec 32)
    (hfiles : InputFiles files regionsName addressesName regions addresses)
    (haddress : addresses[i]? = some address) :
    CheckedUnsigned files regionsName addressesName regions addresses i ↔
      regions ≠ [] ∧ (addresses.length : Int) < 2 ^ 31 ∧
        (InSameHalf regions address ∨
          (InWrapped regions address ↔ InCrossing regions address)) := by
  obtain ⟨⟨text, hfile, htext⟩, text', hfile', htext'⟩ := hfiles
  have hne : addresses ≠ [] := by
    rintro rfl
    cases haddress
  constructor
  · rintro ⟨parsedRegions, parsedAddresses, total, parsed, address', hregions, haddresses, hparsed,
      haddress', hcheck⟩
    obtain ⟨rfl, hregionsNe⟩ := (parseInputVirtualRegions_hex hfile htext).mp hregions
    obtain ⟨rfl, -, -, hcount⟩ := (parseInputVirtualAddresses_hex hfile' htext').mp haddresses
    cases hparsed.symm.trans haddress
    cases haddress'.symm.trans haddress
    exact ⟨hregionsNe, hcount, check_agrees_iff.mp hcheck⟩
  · rintro ⟨hregionsNe, hcount, hhalves⟩
    exact ⟨regions, addresses, addresses.length, address, address,
      (parseInputVirtualRegions_hex hfile htext).mpr ⟨rfl, hregionsNe⟩,
      (parseInputVirtualAddresses_hex hfile' htext').mpr ⟨rfl, hne, rfl, hcount⟩,
      haddress, haddress, check_agrees_iff.mpr hhalves⟩

/-! ## One region and one address -/

section OneRegion

variable {base pastEnd address : Bytes} {region : VirtualRegion} {x : BitVec 32}

def regionsName : CString := CString.ofBytes [114]

def addressesName : CString := CString.ofBytes [97]

/-- A file with a region, and one with an address. -/
def oneRegionFiles (base pastEnd address : Bytes) : Files := fun fname =>
  if fname = regionsName then some (base ++ ([32] ++ (pastEnd ++ [10]))) else some (address ++ [10])

/-- The last word of a line. -/
theorem words_line {space word : Bytes} (hspace : ∀ b ∈ space, Scanf.isspace b)
    (hword : Scanf.IsWord word) : Scanf.Words [word] (space ++ (word ++ [10])) := by
  have hend : Scanf.Words [] [10] := .nil (List.forall_mem_singleton.mpr rfl)
  exact .cons hspace hword (fun b hb => by cases hb; rfl) hend

theorem inputFiles_oneRegion (hbase : Strtol.HexNumeral base region.base)
    (hpastEnd : Strtol.HexNumeral pastEnd region.pastEnd) (haddress : Strtol.HexNumeral address x) :
    InputFiles (oneRegionFiles base pastEnd address) regionsName addressesName [region] [x] := by
  have hregions : oneRegionFiles base pastEnd address regionsName
      = some (base ++ ([32] ++ (pastEnd ++ [10]))) := if_pos rfl
  have haddresses : oneRegionFiles base pastEnd address addressesName = some (address ++ [10]) :=
    if_neg (by decide)
  have hsecond : Scanf.Words [pastEnd] ([32] ++ (pastEnd ++ [10])) :=
    words_line (List.forall_mem_singleton.mpr rfl) hpastEnd.isWord.1
  have hfirst : Scanf.Words [base, pastEnd] ([] ++ (base ++ ([32] ++ (pastEnd ++ [10])))) :=
    .cons (List.forall_mem_nil _) hbase.isWord.1 (fun b hb => by cases hb; rfl) hsecond
  have hthird : Scanf.Words [address] ([] ++ (address ++ [10])) :=
    words_line (List.forall_mem_nil _) haddress.isWord.1
  exact ⟨⟨_, hregions, _, hfirst, .cons hbase hpastEnd .nil⟩,
    ⟨_, haddresses, _, hthird, .cons haddress .nil⟩⟩

end OneRegion

/-- A region of the sample input, `0x10000000 0x10c00000`. -/
def sampleRegion : VirtualRegion where
  base := 0x10000000
  pastEnd := 0x10c00000

def sampleFiles : Files :=
  oneRegionFiles [48, 120, 49, 48, 48, 48, 48, 48, 48, 48] [48, 120, 49, 48, 99, 48, 48, 48, 48, 48]
    [48, 120, 49, 48, 48, 48, 48, 100, 48, 48]

theorem inputFiles_sample :
    InputFiles sampleFiles regionsName addressesName [sampleRegion] [0x10000d00] :=
  inputFiles_oneRegion
    (.mk rfl (by decide) (by decide)
      (show Strtol.Digits 16 _ [1, 0, 0, 0, 0, 0, 0, 0] by repeat' constructor) rfl)
    (.mk rfl (by decide) (by decide)
      (show Strtol.Digits 16 _ [1, 0, 12, 0, 0, 0, 0, 0] by repeat' constructor) rfl)
    (.mk rfl (by decide) (by decide)
      (show Strtol.Digits 16 _ [1, 0, 0, 0, 0, 13, 0, 0] by repeat' constructor) rfl)

theorem region_check_sample :
    CheckedUnsigned sampleFiles regionsName addressesName [sampleRegion] [0x10000d00] 0 ↔
      [sampleRegion] ≠ [] ∧ (([0x10000d00] : List (BitVec 32)).length : Int) < 2 ^ 31 ∧
        (InSameHalf [sampleRegion] 0x10000d00 ∨
          (InWrapped [sampleRegion] 0x10000d00 ↔ InCrossing [sampleRegion] 0x10000d00)) :=
  region_check_iff sampleFiles regionsName addressesName [sampleRegion] [0x10000d00] 0 0x10000d00
    inputFiles_sample rfl

/-- Two pages across the middle of the address space, `0x7ffff000 0x80001000`. -/
def middleRegion : VirtualRegion where
  base := 0x7ffff000
  pastEnd := 0x80001000

def middleFiles : Files :=
  oneRegionFiles [48, 120, 55, 102, 102, 102, 102, 48, 48, 48]
    [48, 120, 56, 48, 48, 48, 49, 48, 48, 48] [48, 120, 55, 102, 102, 102, 102, 56, 48, 48]

theorem inputFiles_middle :
    InputFiles middleFiles regionsName addressesName [middleRegion] [0x7ffff800] :=
  inputFiles_oneRegion
    (.mk rfl (by decide) (by decide)
      (show Strtol.Digits 16 _ [7, 15, 15, 15, 15, 0, 0, 0] by repeat' constructor) rfl)
    (.mk rfl (by decide) (by decide)
      (show Strtol.Digits 16 _ [8, 0, 0, 0, 1, 0, 0, 0] by repeat' constructor) rfl)
    (.mk rfl (by decide) (by decide)
      (show Strtol.Digits 16 _ [7, 15, 15, 15, 15, 8, 0, 0] by repeat' constructor) rfl)

/-- The address `0x7ffff800` lies in it, and is taken for one outside. -/
theorem region_check_signed :
    InputFiles middleFiles regionsName addressesName [middleRegion] [0x7ffff800] ∧
      ¬ CheckedUnsigned middleFiles regionsName addressesName [middleRegion] [0x7ffff800] 0 := by
  refine ⟨inputFiles_middle, ?_⟩
  rintro ⟨parsedRegions, parsedAddresses, total, parsed, address, hregions, haddresses, hparsed,
    haddress, hcheck⟩
  obtain ⟨⟨text, hfile, htext⟩, text', hfile', htext'⟩ := inputFiles_middle
  obtain ⟨rfl, -⟩ := (parseInputVirtualRegions_hex hfile htext).mp hregions
  obtain ⟨rfl, -⟩ := (parseInputVirtualAddresses_hex hfile' htext').mp haddresses
  cases haddress
  cases hparsed
  have hcontains : middleRegion.Contains 0x7ffff800 := ⟨by decide, by decide⟩
  have hcheck := hcheck.mpr ⟨middleRegion, List.mem_cons_self, hcontains⟩
  exact absurd hcheck (by decide)

end Cs342.Paging
