import Mathlib
import Cs342.Library.Scanf
import Cs342.WordCount.Arguments

/-!
# Parsing the command line (`parse_arguments` in `common.c`)

The number of input files is whatever `atoi` makes of an argument, and the loop over their names
stops when it has copied exactly that many, or at the NULL pointer behind the arguments. No count is
refused. A count above the size of the array writes behind the array if there are that many names,
and a negative one never stops the loop before the NULL pointer. So the array is kept exactly if the
count is between 0 and 8 or no more than eight names are there to be copied (`keepsNames_iff`).
-/

namespace Cs342.WordCount

/-- `struct command_line_args` while it is filled; an entry of the array may not be set yet. -/
structure ParsedArgs where
  msgSize : Int
  outFileName : CString
  inFileCount : Int
  inFileNames : List (Option CString)
  deriving DecidableEq

/-! ## The function -/

/-- `atoi(args[i])`. -/
def atoiAt (args : List CString) (i : Nat) : Outcome Int :=
  Outcome.ofOption args[i]? >>= Scanf.atoi

/-- The loop that sets `msg_size_is_valid`. -/
def msgSizeIsValid (msgSize : Int) : Bool := validMsgSizes.any fun size => msgSize = size

/-- `parsed_args.msg_size`, and `i` behind it. -/
def parseMsgSize (args : List CString) (hasMsgSize : Bool) : Outcome (Int × Nat) := do
  if hasMsgSize then
    let msgSize ← atoiAt args 1
    if msgSizeIsValid msgSize then return (msgSize, 2)
    else .exit 1 "msg_size was given an invalid value\n"
  else return (-1, 1)

/-- The loop over the names from `args[i + j]` on, up to the NULL pointer that ends the list. An
entry behind the array cannot be written. -/
def copyFileNames (inFileCount : Int) : List CString → Nat → List (Option CString) →
    Outcome (List (Option CString))
  | args, j, inFileNames =>
    if j = inFileCount then .ok inFileNames
    else match args with
      | [] => .exit 1 "Passed in less input file names than specified\n"
      | fileName :: args =>
        if j < inFileNames.length then
          copyFileNames inFileCount args (j + 1) (inFileNames.set j (some fileName))
        else .undefined

/-- `parse_arguments` on the arguments that the NULL pointer ends. -/
def parseArguments (args : List CString) (hasMsgSize : Bool) : Outcome ParsedArgs :=
  if args.length < 4 then .exit 1 "Something is wrong with the commandline arguments\n"
  else do
    let (msgSize, i) ← parseMsgSize args hasMsgSize
    let outFileName ← Outcome.ofOption args[i]?
    let inFileCount ← atoiAt args (i + 1)
    let inFileNames ←
      copyFileNames inFileCount (args.drop (i + 2)) 0 (List.replicate maxInFileCount none)
    return { msgSize, outFileName, inFileCount, inFileNames }

/-! ## Copying the names -/

section Copying

variable {inFileCount : Int}

/-- The array after the first names. -/
def namesArray (names : List CString) : List (Option CString) :=
  names.map some ++ List.replicate (maxInFileCount - names.length) none

theorem length_namesArray {names : List CString} (h : names.length ≤ maxInFileCount) :
    (namesArray names).length = maxInFileCount := by
  rw [namesArray, List.length_append, List.length_map, List.length_replicate]
  omega

theorem getElem?_namesArray {names : List CString} {j : Nat} {fileName : CString}
    (h : names[j]? = some fileName) : (namesArray names)[j]? = some (some fileName) := by
  have hj : j < (names.map some).length := by
    rw [List.length_map]
    exact (List.getElem?_eq_some_iff.mp h).1
  rw [namesArray, List.getElem?_append_left hj, List.getElem?_map, h]
  rfl

theorem set_namesArray {names : List CString} (h : names.length < maxInFileCount)
    (fileName : CString) :
    (namesArray names).set names.length (some fileName) = namesArray (names ++ [fileName]) := by
  have hsplit : maxInFileCount - names.length = maxInFileCount - (names.length + 1) + 1 := by omega
  rw [namesArray, List.set_append_right _ _ (by simp), List.length_map, Nat.sub_self, hsplit,
    List.replicate_succ, List.set_cons_zero, namesArray, List.length_append, List.length_singleton,
    List.map_append, List.append_assoc]
  rfl

variable (inFileCount) in
/-- **The loop**: it copies as many names as were asked for, if they are there and fit; it leaves
the program at the NULL pointer if the names before it fit; otherwise it writes behind the array. -/
theorem copyFileNames_eq (args names : List CString) (hnames : names.length ≤ maxInFileCount) :
    copyFileNames inFileCount args names.length (namesArray names) =
      if names.length ≤ inFileCount ∧ inFileCount ≤ names.length + args.length ∧
          inFileCount ≤ maxInFileCount then
        .ok (namesArray (names ++ args.take (inFileCount.toNat - names.length)))
      else if names.length + args.length ≤ maxInFileCount then
        .exit 1 "Passed in less input file names than specified\n"
      else .undefined := by
  induction args generalizing names with
  | nil =>
      rw [copyFileNames, List.length_nil]
      by_cases hcount : names.length = inFileCount
      · rw [if_pos hcount, if_pos (by omega), List.take_nil, List.append_nil]
      · rw [if_neg hcount, if_neg (by omega), if_pos (by omega)]
  | cons fileName args ih =>
      rw [copyFileNames, List.length_cons]
      by_cases hcount : names.length = inFileCount
      · rw [if_pos hcount, if_pos (by omega), ← hcount, Int.toNat_natCast, Nat.sub_self,
          List.take_zero, List.append_nil]
      · rw [if_neg hcount, length_namesArray hnames]
        by_cases hroom : names.length < maxInFileCount
        · have hrest := ih (names ++ [fileName]) (by simpa using hroom)
          rw [List.length_append, List.length_singleton, ← set_namesArray hroom] at hrest
          rw [if_pos hroom, hrest]
          by_cases hfits : (names.length + 1 : Nat) ≤ inFileCount ∧
              inFileCount ≤ (names.length + 1 : Nat) + args.length ∧ inFileCount ≤ maxInFileCount
          · have htake : inFileCount.toNat - names.length
                = inFileCount.toNat - (names.length + 1) + 1 := by omega
            rw [if_pos hfits, if_pos (by omega), htake, List.take_succ_cons, List.append_assoc,
              List.singleton_append]
          · have hfits' : ¬ (names.length ≤ inFileCount ∧
                inFileCount ≤ names.length + (args.length + 1 : Nat) ∧
                inFileCount ≤ maxInFileCount) := by omega
            rw [if_neg hfits, if_neg hfits', Nat.add_assoc, Nat.add_comm 1]
        · have hfits : ¬ (names.length ≤ inFileCount ∧
              inFileCount ≤ names.length + (args.length + 1 : Nat) ∧
              inFileCount ≤ maxInFileCount) := by omega
          rw [if_neg hroom, if_neg hfits, if_neg (by omega)]

end Copying

/-! ## The array and its bound -/

/-- The index of the output file's name. -/
def outFileIndex (hasMsgSize : Bool) : Nat := if hasMsgSize then 2 else 1

/-- The names of the input files, as far as they are given. -/
def fileArguments (args : List CString) (hasMsgSize : Bool) : List CString :=
  args.drop (outFileIndex hasMsgSize + 2)

/-- The count is one of the array, and its names are the arguments. -/
structure NamesFiles (fileNames : List CString) (parsedArgs : ParsedArgs) : Prop where
  nonneg : 0 ≤ parsedArgs.inFileCount
  le_max : parsedArgs.inFileCount ≤ maxInFileCount
  names : ∀ j : Nat, j < parsedArgs.inFileCount →
    ∃ fileName, fileNames[j]? = some fileName ∧ parsedArgs.inFileNames[j]? = some (some fileName)

/-- The program is left with an error, or the names are there; nothing is undefined on the way. -/
def KeepsNames (args : List CString) (hasMsgSize : Bool) : Prop :=
  (∃ code message, parseArguments args hasMsgSize = .exit code message) ∨
    ∃ parsedArgs, parseArguments args hasMsgSize = .ok parsedArgs ∧
      NamesFiles (fileArguments args hasMsgSize) parsedArgs

/-- The message size is an int that is accepted, if there is to be one. -/
def MsgSizeAccepted (args : List CString) (hasMsgSize : Bool) : Prop :=
  hasMsgSize → ∃ msgSize, atoiAt args 1 = .ok msgSize ∧ msgSizeIsValid msgSize

/-- What the arguments have to be: too few of them, a message size that is refused, or a count that
the array has room for, or no more names than it has room for. -/
def ArrayKept (args : List CString) (hasMsgSize : Bool) : Prop :=
  args.length < 4 ∨
  (hasMsgSize ∧ ∃ msgSize, atoiAt args 1 = .ok msgSize ∧ ¬ msgSizeIsValid msgSize) ∨
  (MsgSizeAccepted args hasMsgSize ∧
    ∃ inFileCount, atoiAt args (outFileIndex hasMsgSize + 1) = .ok inFileCount ∧
      ((fileArguments args hasMsgSize).length ≤ maxInFileCount ∨
        (0 ≤ inFileCount ∧ inFileCount ≤ maxInFileCount)))

section Parsing

variable {args : List CString} {hasMsgSize : Bool}

theorem atoiAt_ne_exit {i code : Nat} {message : String} : atoiAt args i ≠ .exit code message := by
  unfold atoiAt Scanf.atoi Scanf.toInt
  cases args[i]? with
  | none => simp
  | some str =>
      rw [Outcome.ofOption_some, Outcome.ok_bind]
      split
      · split <;> simp
      · simp

theorem parseMsgSize_false : parseMsgSize args false = .ok (-1, 1) := rfl

theorem parseMsgSize_of_valid {msgSize : Int} (h : atoiAt args 1 = .ok msgSize)
    (hvalid : msgSizeIsValid msgSize) : parseMsgSize args true = .ok (msgSize, 2) := by
  rw [parseMsgSize, if_pos rfl, h, Outcome.ok_bind, if_pos hvalid]
  rfl

theorem parseMsgSize_of_not_valid {msgSize : Int} (h : atoiAt args 1 = .ok msgSize)
    (hvalid : ¬ msgSizeIsValid msgSize) :
    parseMsgSize args true = .exit 1 "msg_size was given an invalid value\n" := by
  rw [parseMsgSize, if_pos rfl, h, Outcome.ok_bind, if_neg hvalid]

theorem parseMsgSize_of_undefined (h : atoiAt args 1 = .undefined) :
    parseMsgSize args true = .undefined := by
  rw [parseMsgSize, if_pos rfl, h, Outcome.undefined_bind]

/-- The message size is accepted, refused or not defined. -/
theorem parseMsgSize_cases (args : List CString) (hasMsgSize : Bool) :
    (MsgSizeAccepted args hasMsgSize ∧
      ∃ msgSize, parseMsgSize args hasMsgSize = .ok (msgSize, outFileIndex hasMsgSize) ∧
        (hasMsgSize → msgSizeIsValid msgSize)) ∨
    ((hasMsgSize ∧ ∃ msgSize, atoiAt args 1 = .ok msgSize ∧ ¬ msgSizeIsValid msgSize) ∧
      ∃ code message, parseMsgSize args hasMsgSize = .exit code message) ∨
    (hasMsgSize ∧ atoiAt args 1 = .undefined ∧ parseMsgSize args hasMsgSize = .undefined) := by
  cases hasMsgSize with
  | false =>
      exact .inl ⟨fun h => absurd h (by simp), -1, parseMsgSize_false, fun h => absurd h (by simp)⟩
  | true =>
      cases h : atoiAt args 1 with
      | ok msgSize =>
          by_cases hvalid : msgSizeIsValid msgSize
          · exact .inl ⟨fun _ => ⟨msgSize, h, hvalid⟩, msgSize, parseMsgSize_of_valid h hvalid,
              fun _ => hvalid⟩
          · exact .inr (.inl ⟨⟨rfl, msgSize, rfl, hvalid⟩, _, _,
              parseMsgSize_of_not_valid h hvalid⟩)
      | exit code message => exact absurd h atoiAt_ne_exit
      | undefined => exact .inr (.inr ⟨rfl, rfl, parseMsgSize_of_undefined h⟩)

/-- The result for a message size that is accepted. -/
theorem parseArguments_of_accepted {msgSize : Int} (hlen : ¬ args.length < 4)
    (hmsg : parseMsgSize args hasMsgSize = .ok (msgSize, outFileIndex hasMsgSize)) :
    ∃ outFileName, args[outFileIndex hasMsgSize]? = some outFileName ∧
      parseArguments args hasMsgSize = do
        let inFileCount ← atoiAt args (outFileIndex hasMsgSize + 1)
        let inFileNames ←
          copyFileNames inFileCount (fileArguments args hasMsgSize) 0 (namesArray [])
        return { msgSize, outFileName, inFileCount, inFileNames } := by
  have hout : outFileIndex hasMsgSize < args.length := by
    rw [outFileIndex]
    split <;> omega
  refine ⟨args[outFileIndex hasMsgSize], List.getElem?_eq_getElem hout, ?_⟩
  rw [parseArguments, if_neg hlen, hmsg, Outcome.ok_bind]
  dsimp only
  rw [List.getElem?_eq_getElem hout, Outcome.ofOption_some, Outcome.ok_bind]
  rfl

theorem namesFiles_of_le {fileNames : List CString} {parsedArgs : ParsedArgs}
    (hnonneg : 0 ≤ parsedArgs.inFileCount) (hlength : parsedArgs.inFileCount ≤ fileNames.length)
    (hmax : parsedArgs.inFileCount ≤ maxInFileCount)
    (hnames : parsedArgs.inFileNames = namesArray (fileNames.take parsedArgs.inFileCount.toNat)) :
    NamesFiles fileNames parsedArgs := by
  refine ⟨hnonneg, hmax, fun j hj => ?_⟩
  have hlt : j < fileNames.length := by omega
  refine ⟨fileNames[j], List.getElem?_eq_getElem hlt, ?_⟩
  rw [hnames]
  apply getElem?_namesArray
  rw [List.getElem?_take_of_lt (by omega), List.getElem?_eq_getElem hlt]

/-- What becomes of the names, for a count that `atoi` has returned: they are all copied, or the
NULL pointer comes first, or the array ends first. -/
theorem parseArguments_of_count {msgSize inFileCount : Int} {outFileName : CString}
    (hparse : parseArguments args hasMsgSize = do
      let inFileNames ← copyFileNames inFileCount (fileArguments args hasMsgSize) 0 (namesArray [])
      return { msgSize, outFileName, inFileCount, inFileNames }) :
    (∃ inFileNames, parseArguments args hasMsgSize
          = .ok { msgSize, outFileName, inFileCount, inFileNames } ∧
        NamesFiles (fileArguments args hasMsgSize)
          { msgSize, outFileName, inFileCount, inFileNames }) ∨
    ((fileArguments args hasMsgSize).length ≤ maxInFileCount ∧
      ∃ code message, parseArguments args hasMsgSize = .exit code message) ∨
    (¬ ((fileArguments args hasMsgSize).length ≤ maxInFileCount ∨
        (0 ≤ inFileCount ∧ inFileCount ≤ maxInFileCount)) ∧
      parseArguments args hasMsgSize = .undefined) := by
  have hcopy := copyFileNames_eq inFileCount (fileArguments args hasMsgSize) []
    (Nat.zero_le _)
  rw [List.length_nil, Nat.cast_zero, zero_add, Nat.zero_add, Nat.sub_zero, List.nil_append]
    at hcopy
  rw [hcopy] at hparse
  by_cases hfits : 0 ≤ inFileCount ∧ inFileCount ≤ (fileArguments args hasMsgSize).length ∧
      inFileCount ≤ maxInFileCount
  · rw [if_pos hfits, Outcome.ok_bind] at hparse
    exact .inl ⟨_, hparse, namesFiles_of_le hfits.1 hfits.2.1 hfits.2.2 rfl⟩
  · rw [if_neg hfits] at hparse
    by_cases hroom : (fileArguments args hasMsgSize).length ≤ maxInFileCount
    · rw [if_pos hroom, Outcome.exit_bind] at hparse
      exact .inr (.inl ⟨hroom, _, _, hparse⟩)
    · rw [if_neg hroom, Outcome.undefined_bind] at hparse
      exact .inr (.inr ⟨by omega, hparse⟩)

/-- **The array of names**: it is kept exactly for these arguments. -/
theorem keepsNames_iff (args : List CString) (hasMsgSize : Bool) :
    KeepsNames args hasMsgSize ↔ ArrayKept args hasMsgSize := by
  by_cases hlen : args.length < 4
  · exact iff_of_true (.inl ⟨_, _, if_pos hlen⟩) (.inl hlen)
  rcases parseMsgSize_cases args hasMsgSize with
    ⟨haccepted, msgSize, hmsg, -⟩ | ⟨hrefused, code, message, hmsg⟩ | ⟨hmode, hatoi, hmsg⟩
  · have hnot : ¬ (hasMsgSize ∧ ∃ msgSize, atoiAt args 1 = .ok msgSize ∧
        ¬ msgSizeIsValid msgSize) := by
      rintro ⟨hmode, refused, hrefused, hinvalid⟩
      obtain ⟨accepted, hatoi, hvalid⟩ := haccepted hmode
      cases hrefused.symm.trans hatoi
      exact hinvalid hvalid
    obtain ⟨outFileName, -, hparse⟩ := parseArguments_of_accepted hlen hmsg
    rw [ArrayKept, or_iff_right hlen, or_iff_right hnot, and_iff_right haccepted]
    cases hcount : atoiAt args (outFileIndex hasMsgSize + 1) with
    | ok inFileCount =>
        rw [hcount, Outcome.ok_bind] at hparse
        simp only [Outcome.ok.injEq, exists_eq_left']
        rcases parseArguments_of_count hparse with
          ⟨inFileNames, hok, hnames⟩ | ⟨hroom, code, message, hexit⟩ | ⟨hnot, hundefined⟩
        · exact iff_of_true (.inr ⟨_, hok, hnames⟩) (.inr ⟨hnames.nonneg, hnames.le_max⟩)
        · exact iff_of_true (.inl ⟨code, message, hexit⟩) (.inl hroom)
        · refine iff_of_false ?_ hnot
          simp [KeepsNames, hundefined]
    | exit code message => exact absurd hcount atoiAt_ne_exit
    | undefined => simp [KeepsNames, hparse, hcount]
  · refine iff_of_true (.inl ⟨code, message, ?_⟩) (.inr (.inl hrefused))
    rw [parseArguments, if_neg hlen, hmsg, Outcome.exit_bind]
  · have hundefined : parseArguments args hasMsgSize = .undefined := by
      rw [parseArguments, if_neg hlen, hmsg, Outcome.undefined_bind]
    rw [KeepsNames, hundefined, ArrayKept, MsgSizeAccepted, hatoi]
    simp [hlen, hmode]

/-- Nine files: the ninth name is written behind the array. -/
def nineFiles : List CString :=
  [[112], [111], [57]].map CString.ofBytes ++ List.replicate 9 (CString.ofBytes [102])

theorem keepsNames_fails : ¬ KeepsNames nineFiles false := by
  have hundefined : parseArguments nineFiles false = .undefined := by rfl
  simp [KeepsNames, hundefined]

/-! ## What the programs get -/

theorem msgSizeIsValid_iff {msgSize : Int} :
    msgSizeIsValid msgSize ↔ ∃ size ∈ validMsgSizes, msgSize = size := by
  simp [msgSizeIsValid, List.any_eq_true]

/-- A result comes from a message size that is accepted, and has its names. -/
theorem parseArguments_ok {parsedArgs : ParsedArgs}
    (h : parseArguments args hasMsgSize = .ok parsedArgs) :
    NamesFiles (fileArguments args hasMsgSize) parsedArgs ∧
      (hasMsgSize → msgSizeIsValid parsedArgs.msgSize) := by
  have hlen : ¬ args.length < 4 := by
    intro hlen
    rw [parseArguments, if_pos hlen] at h
    cases h
  rcases parseMsgSize_cases args hasMsgSize with
    ⟨-, msgSize, hmsg, hvalid⟩ | ⟨-, code, message, hmsg⟩ | ⟨-, -, hmsg⟩
  · obtain ⟨outFileName, -, hparse⟩ := parseArguments_of_accepted hlen hmsg
    rw [hparse] at h
    obtain ⟨inFileCount, hcount, -⟩ := Outcome.bind_eq_ok.mp h
    rw [← hparse] at h
    rw [hcount, Outcome.ok_bind] at hparse
    rcases parseArguments_of_count hparse with
      ⟨inFileNames, hok, hnames⟩ | ⟨-, code, message, hexit⟩ | ⟨-, hundefined⟩
    · cases hok.symm.trans h
      exact ⟨hnames, hvalid⟩
    · cases hexit.symm.trans h
    · cases hundefined.symm.trans h
  · rw [parseArguments, if_neg hlen, hmsg, Outcome.exit_bind] at h
    cases h
  · rw [parseArguments, if_neg hlen, hmsg, Outcome.undefined_bind] at h
    cases h

/-- The result of the function, if it returns, is one that the programs are modelled with. -/
theorem commandLineArgs_of_parse {parsedArgs : ParsedArgs}
    (h : parseArguments args hasMsgSize = .ok parsedArgs) :
    ∃ cliArgs : CommandLineArgs,
      (cliArgs.inFileCount : Int) = parsedArgs.inFileCount ∧
      cliArgs.outFileName = parsedArgs.outFileName.text ∧
      (∀ j : Nat, j < parsedArgs.inFileCount → ∃ fileName,
        cliArgs.inFileNames[j]? = some fileName.text ∧
          parsedArgs.inFileNames[j]? = some (some fileName)) ∧
      (hasMsgSize → cliArgs.msgSize ∈ validMsgSizes ∧
        (cliArgs.msgSize : Int) = parsedArgs.msgSize) := by
  obtain ⟨hnames, hvalid⟩ := parseArguments_ok h
  have hnonneg := hnames.nonneg
  have hmax := hnames.le_max
  have hlength : parsedArgs.inFileCount ≤ (fileArguments args hasMsgSize).length := by
    by_contra hlt
    obtain ⟨fileName, hfile, -⟩ :=
      hnames.names (fileArguments args hasMsgSize).length (by omega)
    simp at hfile
  refine ⟨{
    msgSize := parsedArgs.msgSize.toNat
    outFileName := parsedArgs.outFileName.text
    inFileNames :=
      ((fileArguments args hasMsgSize).take parsedArgs.inFileCount.toNat).map CString.text
    count_le := ?_ }, ?_, rfl, fun j hj => ?_, fun hmode => ?_⟩
  · rw [List.length_map, List.length_take]
    omega
  · rw [CommandLineArgs.inFileCount, List.length_map, List.length_take]
    omega
  · obtain ⟨fileName, hfile, hentry⟩ := hnames.names j hj
    refine ⟨fileName, ?_, hentry⟩
    rw [List.getElem?_map, List.getElem?_take_of_lt (by omega), hfile]
    rfl
  · obtain ⟨size, hsize, heq⟩ := msgSizeIsValid_iff.mp (hvalid hmode)
    rw [heq, Int.toNat_natCast]
    exact ⟨hsize, rfl⟩

end Parsing

end Cs342.WordCount
