import Mathlib
import Cs342.Library.Numerals
import Cs342.Paging.Pagesim

/-!
# From the input files to the output file

A run on two input files writes, line by line, what the reference machine of its algorithm answers
(**`pagesim_answers`**). A run with random addresses writes them into the first column of its
output, and nothing is lost there: with this column as the file of addresses, the simulator writes
the other columns again (**`pagesim_replay`**).
-/

namespace Cs342.Paging

open ByteBuffer (Bytes)
open PrintedText (hexText lines newline blank withColumn firstColumn otherColumns)
open Replacement (Served)

/-! ## Input files -/

/-- What the parser makes of files with these regions and addresses. -/
def fileParamStore (regions : List VirtualRegion) (addresses : List (BitVec 32))
    (numOfFrames replacementAlgorithm : Int) (outFileName : CString) : FullParamStore where
  replacementAlgorithm := replacementAlgorithmOf replacementAlgorithm
  numOfFrames := numOfFrames
  totalVirtualAddressInputLength := addresses.length
  virtualRegions := regions
  inputMethod := .file
  outFileName := outFileName
  fileParams := some addresses

/-- Arguments that name files with these regions and addresses, and hold these numbers. -/
structure FileArguments (files : Files) (args : List CString) (regions : List VirtualRegion)
    (addresses : List (BitVec 32)) (numOfFrames replacementAlgorithm : Int)
    (outFileName : CString) : Prop where
  count : args.length ≠ 9
  regions : ∃ fname text, args[1]? = some fname ∧ files fname = some text ∧ RegionText text regions
  addresses : ∃ fname text, args[2]? = some fname ∧ files fname = some text ∧
    AddressText text addresses
  numOfFrames : ∃ arg, args[3]? = some arg ∧ Scanf.atoi arg = .ok numOfFrames
  outFileName : args[4]? = some outFileName
  replacementAlgorithm : ∃ arg, args[6]? = some arg ∧ Scanf.atoi arg = .ok replacementAlgorithm

/-- A file with a region on each line, and one with an address on each line. -/
def regionLines (regions : List VirtualRegion) : Bytes :=
  lines (regions.flatMap fun region => [hexText region.base, hexText region.pastEnd])

def addressLines (addresses : List (BitVec 32)) : Bytes := lines (addresses.map hexText)

theorem isWord_hexText (x : BitVec 32) : Scanf.IsWord (hexText x) :=
  (PrintedText.hexNumeral_hexText x).isWord.1

theorem isWord_of_mem_map {addresses : List (BitVec 32)} :
    ∀ word ∈ addresses.map hexText, Scanf.IsWord word := by
  intro word hword
  obtain ⟨address, -, rfl⟩ := List.mem_map.mp hword
  exact isWord_hexText address

theorem words_of_lines {words : List Bytes} (hwords : ∀ word ∈ words, Scanf.IsWord word) :
    Scanf.Words words (lines words) :=
  PrintedText.words_lines hwords fun _ hb => absurd hb List.not_mem_nil

theorem addressText_addressLines (addresses : List (BitVec 32)) :
    AddressText (addressLines addresses) addresses := by
  refine ⟨_, words_of_lines isWord_of_mem_map, ?_⟩
  rw [List.forall₂_map_left_iff]
  exact List.forall₂_same.mpr fun address _ => PrintedText.hexNumeral_hexText address

theorem regionText_regionLines (regions : List VirtualRegion) :
    RegionText (regionLines regions) regions := by
  refine ⟨_, words_of_lines ?_, ?_⟩
  · intro word hword
    obtain ⟨region, -, hword⟩ := List.mem_flatMap.mp hword
    rcases List.mem_pair.mp hword with rfl | rfl
    · exact isWord_hexText region.base
    · exact isWord_hexText region.pastEnd
  · induction regions with
    | nil => exact .nil
    | cons region regions ih =>
        exact .cons (PrintedText.hexNumeral_hexText region.base)
          (PrintedText.hexNumeral_hexText region.pastEnd) ih

section Files

variable {files : Files} {args : List CString} {regions : List VirtualRegion}
  {addresses : List (BitVec 32)} {n a : Int} {outFileName : CString} {rand : RandomValues}

theorem FileArguments.parse (h : FileArguments files args regions addresses n a outFileName)
    (hregions : regions ≠ []) (haddresses : addresses ≠ []) (hlen : addresses.length < 2 ^ 31) :
    parseArguments files args = .ok (fileParamStore regions addresses n a outFileName) := by
  obtain ⟨hcount, ⟨rname, rtext, hrarg, hrfile, hrtext⟩, ⟨aname, atext, haarg, hafile, hatext⟩,
    ⟨narg, hnarg, hn⟩, hout, ⟨garg, hgarg, ha⟩⟩ := h
  have hparsed := (parseInputVirtualRegions_hex hrfile hrtext).mpr ⟨rfl, hregions⟩
  have hparsed' := (parseInputVirtualAddresses_hex hafile hatext).mpr
    ⟨rfl, haddresses, rfl, by omega⟩
  rw [parseArguments, if_neg hcount, parseFileArguments]
  simp only [argAt, hrarg, haarg, hnarg, hout, hgarg, Outcome.ofOption_some, Outcome.ok_bind,
    hparsed, hparsed', hn, ha]
  rfl

theorem getNextVirtualAddress_cons {params : FullParamStore} (hfile : params.inputMethod = .file)
    {iterator : VirtualAddressIterator} {address : BitVec 32} {rest : List (BitVec 32)}
    (hnext : iterator.nextVirtualAddress = address :: rest) {count : Int}
    (hcount : Scanf.toInt (iterator.iterationCount + 1) = .ok count) :
    getNextVirtualAddress params rand iterator = .ok (address,
      { nextVirtualAddress := rest, iterationCount := count, calls := iterator.calls }) := by
  rw [getNextVirtualAddress, takeVirtualAddress, hfile]
  dsimp only
  rw [hnext]
  simp only [Outcome.ok_bind, hcount, Outcome.pure_eq]

/-- The addresses of a file are handed out in order. -/
theorem delivers_file {params : FullParamStore} (hfile : params.inputMethod = .file)
    {rest : List (BitVec 32)} (hlist : params.fileParams = some (addresses ++ rest))
    (hlen : addresses.length < 2 ^ 31) :
    Delivers params rand addresses
      { nextVirtualAddress := rest, iterationCount := addresses.length, calls := 0 } := by
  induction addresses using List.reverseRecOn generalizing rest with
  | nil =>
      have hinit : initParamsIterator params
          = { nextVirtualAddress := rest, iterationCount := 0, calls := 0 } := by
        rw [initParamsIterator, hlist]
        rfl
      rw [List.length_nil, Nat.cast_zero, ← hinit]
      exact .init
  | append_singleton addresses address ih =>
      rw [List.append_assoc] at hlist
      rw [List.length_append, List.length_singleton] at hlen ⊢
      refine (ih hlist (by omega)).next ?_ ?_
      · simp [hasNextVirtualAddress, hfile]
      · have hcount : Scanf.toInt ((addresses.length : Int) + 1)
            = .ok ((addresses.length + 1 : Nat) : Int) :=
          Scanf.toInt_eq_ok.mpr ⟨by push_cast; rfl, by omega, by omega⟩
        exact getNextVirtualAddress_cons hfile rfl hcount

/-- The parameters of a run with random addresses. -/
theorem parseArguments_random {params : FullParamStore} (hargs : args.length = 9)
    (h : parseArguments files args = .ok params) :
    params.inputMethod = .random ∧ params.totalVirtualAddressInputLength < 2 ^ 31 ∧
      ∃ n a frames algorithm pastEnd, args[1]? = some frames ∧ Scanf.atoi frames = .ok n ∧
        args[4]? = some algorithm ∧ Scanf.atoi algorithm = .ok a ∧ args[6]? = some pastEnd ∧
        params.toParamStore = {
          replacementAlgorithm := replacementAlgorithmOf a
          numOfFrames := n
          totalVirtualAddressInputLength := params.totalVirtualAddressInputLength
          virtualRegions := [{ base := 0, pastEnd := Strtol.strtolInt pastEnd }] } := by
  rw [parseArguments, if_pos hargs] at h
  obtain ⟨n, hn, h⟩ := Outcome.bind_eq_ok.mp h
  obtain ⟨name, -, h⟩ := Outcome.bind_eq_ok.mp h
  obtain ⟨a, ha, h⟩ := Outcome.bind_eq_ok.mp h
  obtain ⟨pastEnd, hpastEnd, h⟩ := Outcome.bind_eq_ok.mp h
  obtain ⟨total, htotal, h⟩ := Outcome.bind_eq_ok.mp h
  cases h
  obtain ⟨frames, hframes, hn⟩ := Outcome.bind_eq_ok.mp hn
  obtain ⟨algorithm, halgorithm, ha⟩ := Outcome.bind_eq_ok.mp ha
  obtain ⟨count, -, htotal⟩ := Outcome.bind_eq_ok.mp htotal
  exact ⟨rfl, (Scanf.atoi_range htotal).2, n, a, frames, algorithm, pastEnd,
    Outcome.ofOption_eq_ok.mp hframes, hn, Outcome.ofOption_eq_ok.mp halgorithm, ha,
    Outcome.ofOption_eq_ok.mp hpastEnd, rfl⟩

theorem delivers_fileParamStore (hlen : addresses.length < 2 ^ 31) :
    ∃ iterator,
      Delivers (fileParamStore regions addresses n a outFileName) rand addresses iterator ∧
      hasNextVirtualAddress (fileParamStore regions addresses n a outFileName) iterator = false :=
  ⟨_, delivers_file rfl (by rw [List.append_nil]; rfl) hlen, rfl⟩

end Files

/-! ## What is printed -/

/-- The line of an answer of the reference machine. -/
def answerLine (address : BitVec 32) : Option Served → Bytes
  | none => hexText address ++ [blank, 101]
  | some served =>
    hexText (BitVec.ofNat 32 (served.frame * 2 ^ 12 + address.toNat % 2 ^ 12)) ++
      if served.fault then [blank, 120] else []

section Text

variable {params params' : FullParamStore} {result : PagingResult} {text : Bytes}

theorem resultText_resultOf (hfile : params.inputMethod = .file) (address : BitVec 32)
    (served : Option Served) :
    resultText params (resultOf address served) = .ok (answerLine address served) := by
  rw [resultText, shownText, if_neg (by rw [hfile]; decide)]
  cases served with
  | none =>
      simp [resultOf, exceptionResult, answerText, answerLine]
  | some served =>
      simp only [resultOf, servedResult, answerText, answerLine, Bool.false_eq_true, if_false,
        Outcome.ofOption_some, Outcome.ok_bind, BitVec.ofInt_natCast]
      rfl

theorem newline_notMem_hexText (x : BitVec 32) : newline ∉ hexText x :=
  (PrintedText.not_mem_word (isWord_hexText x)).1

/-- A line of a run with random addresses is its address, and the line of a run on files. -/
theorem resultText_random (hrandom : params.inputMethod = .random)
    (hfile : params'.inputMethod = .file) {address : BitVec 32}
    (haddress : result.virtualAddress = some address)
    (h : resultText params result = .ok text) :
    ∃ text', resultText params' result = .ok text' ∧ newline ∉ text' ∧
      text = withColumn (hexText address) text' := by
  obtain ⟨shown, hshown, h⟩ := Outcome.bind_eq_ok.mp h
  obtain ⟨answer, hanswer, h⟩ := Outcome.bind_eq_ok.mp h
  cases h
  rw [shownText, if_pos hrandom, haddress] at hshown
  cases hshown
  refine ⟨answer ++ if result.causedPageFault then [blank, 120] else [], ?_, ?_, ?_⟩
  · rw [resultText, shownText, if_neg (by rw [hfile]; decide), hanswer]
    rfl
  · have hnot : newline ∉ answer := by
      unfold answerText at hanswer
      split at hanswer
      · obtain ⟨address, -, hanswer⟩ := Outcome.bind_eq_ok.mp hanswer
        cases hanswer
        simpa [newline, blank] using newline_notMem_hexText address
      · obtain ⟨physical, -, hanswer⟩ := Outcome.bind_eq_ok.mp hanswer
        cases hanswer
        exact newline_notMem_hexText _
    rw [List.mem_append, not_or]
    refine ⟨hnot, ?_⟩
    split <;> decide
  · rw [withColumn, List.append_assoc]
    rfl

/-- The answers, one line each. -/
theorem texts_answers (hfile : params.inputMethod = .file) {addresses : List (BitVec 32)}
    {answers : List (Option Served)} (hlength : answers.length = addresses.length) :
    List.Forall₂ (fun result text => resultText params result = .ok text)
      (List.zipWith resultOf addresses answers) (List.zipWith answerLine addresses answers) := by
  induction addresses generalizing answers with
  | nil =>
      rw [List.length_eq_zero_iff.mp hlength]
      exact .nil
  | cons address addresses ih =>
      obtain ⟨answer, answers, rfl⟩ :=
        List.exists_cons_of_length_pos (by rw [hlength]; exact Nat.succ_pos _)
      exact .cons (resultText_resultOf hfile address answer) (ih (Nat.succ_injective hlength))

/-- The lines, one after the other. -/
theorem texts_random {results : List PagingResult} {texts : List Bytes}
    {addresses : List (BitVec 32)} (hrandom : params.inputMethod = .random)
    (hfile : params'.inputMethod = .file)
    (haddresses : results.map PagingResult.virtualAddress = addresses.map some)
    (h : List.Forall₂ (fun result text => resultText params result = .ok text) results texts) :
    ∃ texts', List.Forall₂ (fun result text => resultText params' result = .ok text) results texts' ∧
      (∀ text ∈ texts', newline ∉ text) ∧ addresses.length = texts'.length ∧
      texts = List.zipWith withColumn (addresses.map hexText) texts' := by
  induction h generalizing addresses with
  | nil =>
      rw [List.map_nil, eq_comm, List.map_eq_nil_iff] at haddresses
      subst haddresses
      exact ⟨[], .nil, fun text h => absurd h List.not_mem_nil, rfl, rfl⟩
  | @cons result text results texts htext _ ih =>
      cases addresses with
      | nil => cases haddresses
      | cons address addresses =>
          obtain ⟨haddress, haddresses⟩ := List.cons.inj haddresses
          obtain ⟨text', htext', hnot, rfl⟩ := resultText_random hrandom hfile haddress htext
          obtain ⟨texts', htexts', hnots, hlength, rfl⟩ := ih haddresses
          refine ⟨text' :: texts', .cons htext' htexts', ?_, congrArg (· + 1) hlength, rfl⟩
          intro text h
          rcases List.mem_cons.mp h with rfl | h
          · exact hnot
          · exact hnots text h

end Text

/-! ## The runs -/

/-- **A run on files** writes the answers of the reference machine, line by line. -/
theorem pagesim_answers (files : Files) (writable : Writable) (args : List CString)
    (rand : RandomValues) (regions : List VirtualRegion) (addresses : List (BitVec 32)) (m : Nat)
    (a : Int) (outFileName : CString)
    (hargs : FileArguments files args regions addresses m a outFileName) (hregions : regions ≠ [])
    (haddresses : addresses ≠ []) (hlen : addresses.length ≤ 999999) (hpos : 1 ≤ m)
    (hmax : m ≤ maxFrameCount) (ha : a = 1 ∨ a = 2) (hwritable : writable outFileName = true) :
    Writes files writable args rand outFileName
      (lines (List.zipWith answerLine addresses
        (referenceRun m (fileParamStore regions addresses m a outFileName).toParamStore
          addresses).2)) := by
  have hint : addresses.length < 2 ^ 31 := by omega
  have hknown : replacementAlgorithmOf a ≠ .unknown := by
    rcases ha with rfl | rfl <;> decide
  have hlimit : (addresses.length : Int) ≤ timeLimit := by unfold timeLimit; omega
  have hparams : ValidParams m (fileParamStore regions addresses m a outFileName).toParamStore :=
    ⟨rfl, hpos, hmax, hknown⟩
  have hrun := runPagingSimulation_eq hparams addresses hlimit rfl
  exact writes_iff.mpr ⟨_, addresses, _, _,
    ⟨hargs.parse hregions haddresses hint, delivers_fileParamStore hint, hrun, rfl, hwritable,
      texts_answers rfl (length_referenceRun addresses)⟩, rfl, rfl⟩

/-- The arguments of a run on files that repeats a run with random addresses: its numbers, a file
with the one region, and the first column of its output as the file of addresses. -/
structure Replays (args : List CString) (contents : Bytes) (files : Files) (args' : List CString)
    (outFileName : CString) : Prop where
  count : args'.length ≠ 9
  regions : ∃ pastEnd fname text, args[6]? = some pastEnd ∧ args'[1]? = some fname ∧
    files fname = some text ∧
      RegionText text [{ base := 0, pastEnd := Strtol.strtolInt pastEnd }]
  addresses : ∃ fname, args'[2]? = some fname ∧ files fname = some (firstColumn contents)
  numOfFrames : args'[3]? = args[1]?
  outFileName : args'[4]? = some outFileName
  replacementAlgorithm : args'[6]? = args[4]?

/-- **A random run can be repeated**: on the addresses in the first column of its output the
simulator writes what stands behind them. -/
theorem pagesim_replay (files files' : Files) (writable writable' : Writable)
    (args args' : List CString) (rand rand' : RandomValues) (outFileName outFileName' : CString)
    (contents : Bytes) (hargs : args.length = 9)
    (hwrites : Writes files writable args rand outFileName contents) (hne : contents ≠ [])
    (hreplays : Replays args contents files' args' outFileName')
    (hwritable : writable' outFileName' = true) :
    Writes files' writable' args' rand' outFileName' (otherColumns contents) := by
  obtain ⟨params, addresses, results, texts, hfinished, -, rfl⟩ := writes_iff.mp hwrites
  obtain ⟨hparse, -, hrun, htotal, -, htexts⟩ := hfinished
  obtain ⟨hcount, ⟨bound, rname, rtext, hbound, hrarg, hrfile, hrtext⟩, ⟨aname, haarg, hafile⟩,
    hframes, hout, halgorithm⟩ := hreplays
  obtain ⟨hrandom, hint, n, a, narg, garg, pastEnd, hnarg, hn, hgarg, ha, hpastEnd, hstore⟩ :=
    parseArguments_random hargs hparse
  cases hbound.symm.trans hpastEnd
  have hresults := runPagingSimulation_addresses hrun htotal
  rw [hstore, htotal] at hrun
  -- the same simulation; a line has lost its address, and nothing else
  obtain ⟨texts', htexts', hnots, hlength, rfl⟩ := texts_random hrandom
    (show (fileParamStore [{ base := 0, pastEnd := Strtol.strtolInt bound }] addresses n a
      outFileName').inputMethod = .file from rfl) hresults htexts
  obtain ⟨hfirst, hother⟩ := PrintedText.columns_lines
    (by rw [List.length_map, hlength]) isWord_of_mem_map hnots
  rw [hfirst] at hafile
  have hargs' : FileArguments files' args' [{ base := 0, pastEnd := Strtol.strtolInt bound }]
      addresses n a outFileName' :=
    ⟨hcount, ⟨rname, rtext, hrarg, hrfile, hrtext⟩,
      ⟨aname, _, haarg, hafile, addressText_addressLines addresses⟩,
      ⟨narg, hframes.trans hnarg, hn⟩, hout, ⟨garg, halgorithm.trans hgarg, ha⟩⟩
  have haddresses : addresses ≠ [] := by
    rintro rfl
    exact hne rfl
  have hlen : addresses.length < 2 ^ 31 := by omega
  rw [hother]
  exact writes_iff.mpr ⟨_, addresses, results, texts',
    ⟨hargs'.parse (List.cons_ne_nil _ _) haddresses hlen, delivers_fileParamStore hlen, hrun, rfl,
      hwritable, htexts'⟩, rfl, rfl⟩

/-! ## One frame -/

/-- Two files, of regions and of addresses. -/
def twoFiles (regions addresses : Bytes) : Files := fun fname =>
  if fname = CString.ofBytes [114] then some regions
  else if fname = CString.ofBytes [97] then some addresses else none

/-- `p r a 1 o -a 1`. -/
def twoFilesArgs : List CString :=
  [[112], [114], [97], [49], [111], [45, 97], [49]].map CString.ofBytes

/-- The answers of one frame to three addresses. -/
theorem pagesim_answers_one_frame :
    Writes (twoFiles (regionLines [⟨0, 0x2000⟩]) (addressLines [0x1, 0x1002, 0x3000])) (fun _ => true)
      twoFilesArgs (fun _ => 0) (CString.ofBytes [111])
      (lines (List.zipWith answerLine [0x1, 0x1002, 0x3000]
        (referenceRun 1 (fileParamStore [⟨0, 0x2000⟩] [0x1, 0x1002, 0x3000] (1 : Nat) 1
          (CString.ofBytes [111])).toParamStore [0x1, 0x1002, 0x3000]).2)) :=
  pagesim_answers _ _ _ _ _ _ 1 1 _
    ⟨by decide, ⟨_, _, rfl, rfl, regionText_regionLines _⟩,
      ⟨_, _, rfl, rfl, addressText_addressLines _⟩, ⟨_, rfl, by decide⟩, rfl, ⟨_, rfl, by decide⟩⟩
    (List.cons_ne_nil _ _) (List.cons_ne_nil _ _) (by decide) le_rfl (by decide) (Or.inl rfl) rfl

set_option maxRecDepth 10000 in
/-- `p 1 o -a 1 -v 0x1 -n 1`: the one address is zero, and its page takes the one frame. -/
theorem writes_oneAddress :
    Writes (fun _ => none) (fun _ => true) (oneAddressArgs 49 [48, 120, 49]) (fun _ => 0)
      (CString.ofBytes [111]) (lines [withColumn (hexText 0) (hexText 0 ++ [blank, 120])]) :=
  ⟨2, rfl⟩

theorem pagesim_replay_oneAddress :
    Writes (twoFiles (regionLines [⟨0, 1⟩]) (hexText 0 ++ [newline])) (fun _ => true) twoFilesArgs
      (fun _ => 0) (CString.ofBytes [111])
      (otherColumns (lines [withColumn (hexText 0) (hexText 0 ++ [blank, 120])])) :=
  pagesim_replay (fun _ => none) _ (fun _ => true) _ (oneAddressArgs 49 [48, 120, 49]) _
    (fun _ => 0) _ (CString.ofBytes [111]) _ _ rfl writes_oneAddress (by decide)
    ⟨by decide, ⟨_, _, _, rfl, rfl, rfl, regionText_regionLines _⟩, ⟨_, rfl, rfl⟩, rfl, rfl, rfl⟩ rfl

end Cs342.Paging
