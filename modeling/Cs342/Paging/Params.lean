import Mathlib
import Cs342.Library.Strtol
import Cs342.Paging.Simulation

/-!
# Parameters of the simulator (`params.c`, `utility.c`)

With eight arguments the addresses are drawn at random from one region, and the last argument says
how many; otherwise the regions and the addresses stand in two files. Nothing that is a number is
refused. The lists of a file are chained behind a dummy node, whose pointer only the first record
sets, and the debug output of the parser follows it at once. An iterator hands out the addresses;
the values of `rand` are given from outside.
-/

namespace Cs342.Paging

open ByteBuffer (Bytes)

/-! ## `struct param_store` -/

/-- `enum input_method`. -/
inductive InputMethod where
  | file
  | random
  deriving DecidableEq

/-- The parameters with what only the iterator and the output read; `fileParams` holds the list of
addresses. -/
structure FullParamStore extends ParamStore where
  inputMethod : InputMethod
  outFileName : CString
  fileParams : Option (List (BitVec 32))

/-- An int as an `enum replacement_algorithm`. -/
def replacementAlgorithmOf (n : Int) : ReplacementAlgorithm :=
  if n = 1 then .lru else if n = 2 then .fifo else .unknown

/-! ## The input files -/

/-- What `fopen` finds: the contents of a file that can be read. -/
abbrev Files := CString → Option Bytes

/-- The size of `char address[11]`. -/
def addressSize : Nat := 11

/-- `" %s %s"`: a region. -/
def scanRegion (stream : Bytes) : Outcome (Option VirtualRegion × Bytes) := do
  match ← Scanf.scanWord addressSize stream with
  | (none, rest) => return (none, rest)
  | (some addressBase, rest) =>
    match ← Scanf.scanWord addressSize rest with
    | (none, rest) => return (none, rest)
    | (some addressPastEnd, rest) =>
      return (some ⟨Strtol.strtolInt addressBase, Strtol.strtolInt addressPastEnd⟩, rest)

/-- `" %s"`: an address. -/
def scanAddress (stream : Bytes) : Outcome (Option (BitVec 32) × Bytes) := do
  match ← Scanf.scanWord addressSize stream with
  | (none, rest) => return (none, rest)
  | (some address, rest) => return (some (Strtol.strtolInt address), rest)

theorem scanAddress_length {stream rest : Bytes} {address : BitVec 32}
    (h : scanAddress stream = .ok (some address, rest)) : rest.length < stream.length := by
  obtain ⟨⟨word, left⟩, hword, h⟩ := Outcome.bind_eq_ok.mp h
  cases word with
  | none => cases h
  | some word =>
      cases h
      exact Scanf.scanWord_length hword

theorem scanRegion_length {stream rest : Bytes} {region : VirtualRegion}
    (h : scanRegion stream = .ok (some region, rest)) : rest.length < stream.length := by
  obtain ⟨⟨base, left⟩, hbase, h⟩ := Outcome.bind_eq_ok.mp h
  cases base with
  | none => cases h
  | some base =>
      obtain ⟨⟨pastEnd, left'⟩, hpastEnd, h⟩ := Outcome.bind_eq_ok.mp h
      cases pastEnd with
      | none => cases h
      | some pastEnd =>
          cases h
          exact (Scanf.scanWord_length hpastEnd).trans (Scanf.scanWord_length hbase)

/-- The loops over the two files. -/
def regionReader : Scanf.Reader VirtualRegion where
  read := scanRegion
  length_lt := scanRegion_length

def addressReader : Scanf.Reader (BitVec 32) where
  read := scanAddress
  length_lt := scanAddress_length

def openInput (files : Files) (fname : CString) : Outcome Bytes :=
  match files fname with
  | some contents => .ok contents
  | none => .exit 1 ("failed to open file '" ++ fname.text ++ "'\n")

/-- What the dummy node points to. -/
def headOf {α : Type} (nodes : List α) : Outcome (List α) :=
  match nodes with
  | [] => .undefined
  | _ :: _ => .ok nodes

theorem headOf_eq_ok {α : Type} {nodes head : List α} :
    headOf nodes = .ok head ↔ nodes = head ∧ head ≠ [] := by
  cases nodes with
  | nil => simp +contextual [headOf, eq_comm]
  | cons node nodes =>
      constructor
      · rintro ⟨⟩
        exact ⟨rfl, List.cons_ne_nil _ _⟩
      · rintro ⟨rfl, -⟩
        rfl

def parseInputVirtualRegions (files : Files) (fname : CString) : Outcome (List VirtualRegion) := do
  let contents ← openInput files fname
  let nodes ← regionReader.readAll contents []
  headOf nodes

/-- The addresses, and their number. -/
def parseInputVirtualAddresses (files : Files) (fname : CString) :
    Outcome (List (BitVec 32) × Int) := do
  let contents ← openInput files fname
  let nodes ← addressReader.readAll contents []
  let totalAddresses ← Scanf.toInt nodes.length
  let virtualAddresses ← headOf nodes
  return (virtualAddresses, totalAddresses)

/-! ## `parse_arguments` -/

/-- `args[i]`, for a reader that needs a string. -/
def argAt (args : List CString) (i : Nat) : Outcome CString := Outcome.ofOption args[i]?

def parseRandomArguments (args : List CString) : Outcome FullParamStore := do
  let numOfFrames ← argAt args 1 >>= Scanf.atoi
  let outFileName ← argAt args 2
  let replacementAlgorithm ← argAt args 4 >>= Scanf.atoi
  let pastEnd ← argAt args 6
  let totalVirtualAddressInputLength ← argAt args 8 >>= Scanf.atoi
  return {
    replacementAlgorithm := replacementAlgorithmOf replacementAlgorithm
    numOfFrames
    totalVirtualAddressInputLength
    virtualRegions := [{ base := 0, pastEnd := Strtol.strtolInt pastEnd }]
    inputMethod := .random
    outFileName
    fileParams := none }

def parseFileArguments (files : Files) (args : List CString) : Outcome FullParamStore := do
  let virtualRegions ← argAt args 1 >>= parseInputVirtualRegions files
  let (virtualAddresses, totalAddresses) ← argAt args 2 >>= parseInputVirtualAddresses files
  let numOfFrames ← argAt args 3 >>= Scanf.atoi
  let outFileName ← argAt args 4
  let replacementAlgorithm ← argAt args 6 >>= Scanf.atoi
  return {
    replacementAlgorithm := replacementAlgorithmOf replacementAlgorithm
    numOfFrames
    totalVirtualAddressInputLength := totalAddresses
    virtualRegions
    inputMethod := .file
    outFileName
    fileParams := some virtualAddresses }

/-- `parse_arguments` on all arguments, the name of the program among them. -/
def parseArguments (files : Files) (args : List CString) : Outcome FullParamStore :=
  if args.length = 9 then parseRandomArguments args else parseFileArguments files args

/-! ## Random numbers -/

/-- The values of `rand`, call after call. -/
abbrev RandomValues := Nat → Fin (2 ^ 31)

/-- `RAND_MAX`. -/
def randMax : Int := 2 ^ 31 - 1

/-- A quotient of ints. -/
def intQuotient (n d : Int) : Outcome Int := if d = 0 then .undefined else Scanf.toInt (n.tdiv d)

/-- The number, and how often `rand` has been called. -/
def getRandomInRange (rand : RandomValues) (calls : Nat) (rangeStart rangeEnd : Int) :
    Outcome (Int × Nat) := do
  if rangeStart = rangeEnd then return (rangeStart, calls)
  else
    let difference ← Scanf.toInt (rangeEnd - rangeStart)
    let count ← Scanf.toInt (difference + 1)
    let quotient ← intQuotient randMax count
    let width ← Scanf.toInt (quotient + 1)
    let scaled ← intQuotient (rand calls).val width
    let n ← Scanf.toInt (rangeStart + scaled)
    return (n, calls + 1)

/-! ## The iterator -/

/-- `struct param_virtual_address_iterator`, with the calls of `rand` so far. -/
structure VirtualAddressIterator where
  nextVirtualAddress : List (BitVec 32)
  iterationCount : Int
  calls : Nat

def initParamsIterator (params : FullParamStore) : VirtualAddressIterator where
  nextVirtualAddress := params.fileParams.getD []
  iterationCount := 0
  calls := 0

def hasNextVirtualAddress (params : FullParamStore) (iterator : VirtualAddressIterator) : Bool :=
  (params.inputMethod = .random
    && iterator.iterationCount < params.totalVirtualAddressInputLength)
  || (params.inputMethod = .file && !iterator.nextVirtualAddress.isEmpty)

/-- The switch of `get_next_virtual_address`. -/
def takeVirtualAddress (params : FullParamStore) (rand : RandomValues)
    (iterator : VirtualAddressIterator) : Outcome (BitVec 32 × VirtualAddressIterator) :=
  match params.inputMethod with
  | .random => do
    let region ← Outcome.ofOption params.virtualRegions.head?
    let rangeEnd ← Scanf.toInt (region.pastEnd.toInt - 1)
    let (address, calls) ← getRandomInRange rand iterator.calls 0 rangeEnd
    return (BitVec.ofInt 32 address, { iterator with calls })
  | .file =>
    match iterator.nextVirtualAddress with
    | [] => .undefined
    | address :: nextVirtualAddress => .ok (address, { iterator with nextVirtualAddress })

def getNextVirtualAddress (params : FullParamStore) (rand : RandomValues)
    (iterator : VirtualAddressIterator) : Outcome (BitVec 32 × VirtualAddressIterator) := do
  let (address, iterator) ← takeVirtualAddress params rand iterator
  let iterationCount ← Scanf.toInt (iterator.iterationCount + 1)
  return (address, { iterator with iterationCount })

/-- The addresses that the loop of the simulation has taken from the iterator, and the iterator. -/
inductive Delivers (params : FullParamStore) (rand : RandomValues) :
    List (BitVec 32) → VirtualAddressIterator → Prop
  | init : Delivers params rand [] (initParamsIterator params)
  | next {addresses : List (BitVec 32)} {iterator iterator' : VirtualAddressIterator}
      {address : BitVec 32} : Delivers params rand addresses iterator →
      hasNextVirtualAddress params iterator = true →
      getNextVirtualAddress params rand iterator = .ok (address, iterator') →
      Delivers params rand (addresses ++ [address]) iterator'

/-! ## What is parsed, and handed out -/

section Parsed

variable {files : Files} {fname : CString} {regions : List VirtualRegion}
  {addresses : List (BitVec 32)} {total : Int}

theorem openInput_eq_ok {contents : Bytes} :
    openInput files fname = .ok contents ↔ files fname = some contents := by
  unfold openInput
  cases files fname <;> simp

/-- The regions of a file, if there are any. -/
theorem parseInputVirtualRegions_eq_ok :
    parseInputVirtualRegions files fname = .ok regions ↔ ∃ contents,
      files fname = some contents ∧ regionReader.readAll contents [] = .ok regions ∧
        regions ≠ [] := by
  simp only [parseInputVirtualRegions, Outcome.bind_eq_ok, openInput_eq_ok, headOf_eq_ok]
  constructor
  · rintro ⟨contents, hopen, nodes, hread, rfl, hne⟩
    exact ⟨contents, hopen, hread, hne⟩
  · rintro ⟨contents, hopen, hread, hne⟩
    exact ⟨contents, hopen, regions, hread, rfl, hne⟩

/-- The addresses of a file, if there are any and an int can count them. -/
theorem parseInputVirtualAddresses_eq_ok :
    parseInputVirtualAddresses files fname = .ok (addresses, total) ↔ ∃ contents,
      files fname = some contents ∧ addressReader.readAll contents [] = .ok addresses ∧
        addresses ≠ [] ∧ total = addresses.length ∧ (addresses.length : Int) < 2 ^ 31 := by
  simp only [parseInputVirtualAddresses, Outcome.bind_eq_ok, openInput_eq_ok, headOf_eq_ok,
    Scanf.toInt_eq_ok]
  constructor
  · rintro ⟨contents, hopen, nodes, hread, count, ⟨rfl, -, hlt⟩, head, ⟨rfl, hne⟩, ⟨⟩⟩
    exact ⟨contents, hopen, hread, hne, rfl, hlt⟩
  · rintro ⟨contents, hopen, hread, hne, rfl, hlt⟩
    exact ⟨contents, hopen, addresses, hread, addresses.length, ⟨rfl, by omega, hlt⟩, addresses,
      ⟨rfl, hne⟩, rfl⟩

variable {args : List CString} {params : FullParamStore} {rand : RandomValues}
  {iterator iterator' : VirtualAddressIterator} {address : BitVec 32}

/-- **The two input methods**: addresses from one region, which ends at the sixth argument, or the
addresses of a file, as many as were counted. -/
theorem parseArguments_cases (h : parseArguments files args = .ok params) :
    (args.length = 9 ∧ params.inputMethod = .random ∧
        params.totalVirtualAddressInputLength < 2 ^ 31 ∧ ∃ pastEnd, args[6]? = some pastEnd ∧
          params.virtualRegions = [{ base := 0, pastEnd := Strtol.strtolInt pastEnd }]) ∨
      (args.length ≠ 9 ∧ params.inputMethod = .file ∧ ∃ virtualAddresses,
        params.fileParams = some virtualAddresses ∧
        params.totalVirtualAddressInputLength = virtualAddresses.length) := by
  unfold parseArguments at h
  by_cases hargs : args.length = 9
  · rw [if_pos hargs] at h
    obtain ⟨numOfFrames, -, h⟩ := Outcome.bind_eq_ok.mp h
    obtain ⟨outFileName, -, h⟩ := Outcome.bind_eq_ok.mp h
    obtain ⟨replacementAlgorithm, -, h⟩ := Outcome.bind_eq_ok.mp h
    obtain ⟨pastEnd, hpastEnd, h⟩ := Outcome.bind_eq_ok.mp h
    obtain ⟨total, htotal, h⟩ := Outcome.bind_eq_ok.mp h
    obtain ⟨arg, -, harg⟩ := Outcome.bind_eq_ok.mp htotal
    cases h
    exact .inl ⟨hargs, rfl, (Scanf.atoi_range harg).2, pastEnd,
      Outcome.ofOption_eq_ok.mp hpastEnd, rfl⟩
  · rw [if_neg hargs] at h
    obtain ⟨virtualRegions, -, h⟩ := Outcome.bind_eq_ok.mp h
    obtain ⟨⟨virtualAddresses, total⟩, haddresses, h⟩ := Outcome.bind_eq_ok.mp h
    obtain ⟨fname, -, haddresses⟩ := Outcome.bind_eq_ok.mp haddresses
    obtain ⟨contents, -, -, -, htotal, -⟩ := parseInputVirtualAddresses_eq_ok.mp haddresses
    obtain ⟨numOfFrames, -, h⟩ := Outcome.bind_eq_ok.mp h
    obtain ⟨outFileName, -, h⟩ := Outcome.bind_eq_ok.mp h
    obtain ⟨replacementAlgorithm, -, h⟩ := Outcome.bind_eq_ok.mp h
    cases h
    exact .inr ⟨hargs, rfl, virtualAddresses, rfl, htotal⟩

theorem takeVirtualAddress_count
    (h : takeVirtualAddress params rand iterator = .ok (address, iterator')) :
    iterator'.iterationCount = iterator.iterationCount := by
  unfold takeVirtualAddress at h
  split at h
  · obtain ⟨region, -, h⟩ := Outcome.bind_eq_ok.mp h
    obtain ⟨rangeEnd, -, h⟩ := Outcome.bind_eq_ok.mp h
    obtain ⟨⟨n, calls⟩, -, h⟩ := Outcome.bind_eq_ok.mp h
    cases h
    rfl
  · split at h
    · cases h
    · cases h
      rfl

theorem getNextVirtualAddress_count
    (h : getNextVirtualAddress params rand iterator = .ok (address, iterator')) :
    iterator'.iterationCount = iterator.iterationCount + 1 := by
  obtain ⟨⟨taken, mid⟩, htake, h⟩ := Outcome.bind_eq_ok.mp h
  obtain ⟨count, hcount, h⟩ := Outcome.bind_eq_ok.mp h
  cases h
  rw [← takeVirtualAddress_count htake]
  exact (Scanf.toInt_eq_ok.mp hcount).1.symm

/-- From a file, the next address is the first one that is left. -/
theorem getNextVirtualAddress_file (hfile : params.inputMethod = .file)
    (h : getNextVirtualAddress params rand iterator = .ok (address, iterator')) :
    iterator.nextVirtualAddress = address :: iterator'.nextVirtualAddress := by
  obtain ⟨⟨taken, mid⟩, htake, h⟩ := Outcome.bind_eq_ok.mp h
  obtain ⟨count, -, h⟩ := Outcome.bind_eq_ok.mp h
  cases h
  rw [takeVirtualAddress, hfile] at htake
  dsimp only at htake
  split at htake
  · cases htake
  · next hnext =>
      cases htake
      exact hnext

theorem Delivers.count (h : Delivers params rand addresses iterator) :
    iterator.iterationCount = addresses.length := by
  induction h with
  | init => rfl
  | next _ _ hnext ih =>
      rw [getNextVirtualAddress_count hnext, ih, List.length_append, List.length_singleton]
      rfl

theorem Delivers.file (hfile : params.inputMethod = .file)
    (h : Delivers params rand addresses iterator) :
    addresses ++ iterator.nextVirtualAddress = params.fileParams.getD [] := by
  induction h with
  | init => rfl
  | next _ _ hnext ih =>
      rw [← ih, getNextVirtualAddress_file hfile hnext, List.append_assoc, List.singleton_append]

/-- **No more addresses than asked for**: where one is left, the store has a slot for its result. -/
theorem Delivers.lt_total (hparse : parseArguments files args = .ok params)
    (h : Delivers params rand addresses iterator)
    (hnext : hasNextVirtualAddress params iterator = true) :
    (addresses.length : Int) < params.totalVirtualAddressInputLength := by
  rcases parseArguments_cases hparse with
    ⟨-, hmethod, -⟩ | ⟨-, hmethod, virtualAddresses, hlist, htotal⟩
  · simp only [hasNextVirtualAddress, hmethod, decide_true, Bool.true_and, reduceCtorEq,
      decide_false, Bool.false_and, Bool.or_false, decide_eq_true_eq] at hnext
    rw [← h.count]
    exact hnext
  · have hsplit := congrArg List.length (h.file hmethod)
    have hleft : iterator.nextVirtualAddress ≠ [] := by
      rintro hnil
      simp [hasNextVirtualAddress, hmethod, hnil] at hnext
    have hpos := List.length_pos_iff.mpr hleft
    rw [hlist, Option.getD_some, List.length_append] at hsplit
    omega

end Parsed

/-! ## One random address -/

/-- One address below a bound, with so many frames. -/
def oneAddress (numOfFrames : Int) (pastEnd : BitVec 32) : FullParamStore where
  replacementAlgorithm := .lru
  numOfFrames := numOfFrames
  totalVirtualAddressInputLength := 1
  virtualRegions := [{ base := 0, pastEnd := pastEnd }]
  inputMethod := .random
  outFileName := CString.ofBytes [111]
  fileParams := none

/-- `p 1 o -a 1 -v 0x1 -n 1`, with a digit for the number of frames, and a word for the bound. -/
def oneAddressArgs (digit : UInt8) (bound : Bytes) : List CString :=
  [[112], [digit], [111], [45, 97], [49], [45, 118], bound, [45, 110], [49]].map CString.ofBytes

end Cs342.Paging
