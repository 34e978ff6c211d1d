import Mathlib
import Cs342.Library.Scanf
import Cs342.Cfs.Machine

/-!
# Workload parameters (`workload_params.c`)

`parse_arguments` takes the parameters from the command line and, in mode `F`, the processes from a
file. The parser of the command line walks over the arguments; `args[argc]` is a null pointer, which
none of its readers accepts. The processes of a file are the records of a loop over `fscanf`. A file
without a record leaves the head of the list uninitialised.
-/

namespace Cs342.Cfs

open ByteBuffer (Bytes)

/-! ## `struct workload_param_store` -/

inductive DistributionMethod where
  | fixed
  | uniform
  | exponential
  deriving DecidableEq

/-- `struct workload_common_params`. -/
structure CommonParams where
  maxRunqueueLength : Int
  totalProcessCount : Int
  debugOutputMode : Int
  outputFileName : Option CString
  deriving DecidableEq

/-- `struct workload_commandline_params`. -/
structure CommandlineParams where
  minPriority : Int
  maxPriority : Int
  processLengthDistribution : DistributionMethod
  averageProcessLength : Int
  minProcessLength : Int
  maxProcessLength : Int
  interarrivalTimeDistribution : DistributionMethod
  averageInterarrivalTime : Int
  minInterarrivalTime : Int
  maxInterarrivalTime : Int
  deriving DecidableEq

/-- A `struct process_params*`: the list it is the head of, or `none` for a pointer to no list. -/
abbrev ProcessList := Option (List ProcessParams)

/-- `param_mode` with the one of the two pointers that is not null. -/
inductive WorkloadParams where
  | commandline (params : CommandlineParams)
  | file (processes : ProcessList)
  deriving DecidableEq

/-- `struct workload_param_store`. -/
structure WorkloadParamStore where
  commonParams : CommonParams
  params : WorkloadParams
  deriving DecidableEq

/-! ## The command line -/

/-- Reading the arguments from `args[i]` on. -/
abbrev Parser := StateT (List CString) Outcome

/-- `args[(*i)++]`, for a reader that needs a string. -/
def nextArgument : Parser CString := fun args =>
  match args with
  | arg :: args => .ok (arg, args)
  | [] => .undefined

/-- `atoi(args[(*i)++])`. -/
def nextInt : Parser Int := do
  let arg ← nextArgument
  (Scanf.atoi arg : Outcome Int)

def parseDistributionMethod (str : CString) : Outcome DistributionMethod :=
  if str.text = "fixed" then .ok .fixed
  else if str.text = "uniform" then .ok .uniform
  else if str.text = "exponential" then .ok .exponential
  else .exit 1 ("Invalid distribution method string: '" ++ str.text ++ "'\n")

def parseCommonArguments : Parser CommonParams := do
  let maxRunqueueLength ← nextInt
  let totalProcessCount ← nextInt
  let debugOutputMode ← nextInt
  return { maxRunqueueLength, totalProcessCount, debugOutputMode, outputFileName := none }

/-- `parse_distribution_method(args[(*i)++])`. -/
def nextDistributionMethod : Parser DistributionMethod := do
  let arg ← nextArgument
  (parseDistributionMethod arg : Outcome DistributionMethod)

def parseCommandlineArguments : Parser WorkloadParamStore := do
  let minPriority ← nextInt
  let maxPriority ← nextInt
  let processLengthDistribution ← nextDistributionMethod
  let averageProcessLength ← nextInt
  let minProcessLength ← nextInt
  let maxProcessLength ← nextInt
  let interarrivalTimeDistribution ← nextDistributionMethod
  let averageInterarrivalTime ← nextInt
  let minInterarrivalTime ← nextInt
  let maxInterarrivalTime ← nextInt
  let commonParams ← parseCommonArguments
  return {
    commonParams
    params := .commandline {
      minPriority, maxPriority, processLengthDistribution, averageProcessLength, minProcessLength,
      maxProcessLength, interarrivalTimeDistribution, averageInterarrivalTime, minInterarrivalTime,
      maxInterarrivalTime } }

/-! ## The workload file -/

/-- `" PL %d %d"`. -/
def processFormat : List Scanf.Directive :=
  [.space, .literal 80, .literal 76, .space, .int, .space, .int]

/-- `" IAT %d"`. -/
def interarrivalFormat : List Scanf.Directive :=
  [.space, .literal 73, .literal 65, .literal 84, .space, .int]

/-- The time of a record, which is zero where the second scan fails. -/
def scanInterarrivalTime (stream : Bytes) : Outcome (Int × Bytes) := do
  let (values, stream) ← Scanf.scan interarrivalFormat stream
  match values with
  | [interarrivalTime] => return (interarrivalTime, stream)
  | _ => return (0, stream)

/-- One round of the loop: a record, if there is one, and what is left of the file. -/
def scanProcess (stream : Bytes) : Outcome (Option ProcessParams × Bytes) := do
  let (values, stream) ← Scanf.scan processFormat stream
  match values with
  | [processLength, processPriority] =>
    let (interarrivalTime, stream) ← scanInterarrivalTime stream
    return (some ⟨processLength, processPriority, interarrivalTime⟩, stream)
  | _ => return (none, stream)

theorem scanInterarrivalTime_length {stream rest : Bytes} {interarrivalTime : Int}
    (h : scanInterarrivalTime stream = .ok (interarrivalTime, rest)) :
    rest.length ≤ stream.length := by
  obtain ⟨⟨values, left⟩, hscan, h⟩ := Outcome.bind_eq_ok.mp h
  have hleft := (Scanf.scan_length hscan).1
  dsimp only at h
  split at h <;> cases h <;> exact hleft

/-- A record takes something of the file. -/
theorem scanProcess_length {stream rest : Bytes} {process : ProcessParams}
    (h : scanProcess stream = .ok (some process, rest)) : rest.length < stream.length := by
  obtain ⟨⟨values, left⟩, hscan, h⟩ := Outcome.bind_eq_ok.mp h
  have hleft := (Scanf.scan_length hscan).2
  dsimp only at h
  split at h
  · obtain ⟨⟨interarrivalTime, left'⟩, htime, h⟩ := Outcome.bind_eq_ok.mp h
    cases h
    exact (scanInterarrivalTime_length htime).trans_lt (hleft (List.cons_ne_nil _ _))
  · cases h

/-- `while (fscanf(fp, " PL %d %d", &process_length, &process_priority) == 2)`, with the nodes that
follow `dummy_node` so far. -/
def parseProcesses (stream : Bytes) (nodes : List ProcessParams) : Outcome (List ProcessParams) :=
  match _h : scanProcess stream with
  | .ok (some process, rest) => parseProcesses rest (nodes ++ [process])
  | .ok (none, _) => .ok nodes
  | .exit code message => .exit code message
  | .undefined => .undefined
termination_by stream.length
decreasing_by exact scanProcess_length _h

theorem parseProcesses_some {stream rest : Bytes} {process : ProcessParams}
    (h : scanProcess stream = .ok (some process, rest)) (nodes : List ProcessParams) :
    parseProcesses stream nodes = parseProcesses rest (nodes ++ [process]) := by
  rw [parseProcesses]
  split
  · next heq =>
      cases h.symm.trans heq
      rfl
  all_goals
    next heq => cases h.symm.trans heq

theorem parseProcesses_none {stream rest : Bytes} (h : scanProcess stream = .ok (none, rest))
    (nodes : List ProcessParams) : parseProcesses stream nodes = .ok nodes := by
  rw [parseProcesses]
  split
  · next heq => cases h.symm.trans heq
  · rfl
  all_goals
    next heq => cases h.symm.trans heq

/-- `dummy_node.next_process`, which only a record initialises. -/
def headOf (uninitialised : ProcessList) (nodes : List ProcessParams) : ProcessList :=
  if nodes = [] then uninitialised else some nodes

/-- What `fopen` finds: the contents of a file that can be read. -/
abbrev Files := CString → Option Bytes

def parseFileArguments (files : Files) (uninitialised : ProcessList) :
    Parser WorkloadParamStore := do
  let commonParams ← parseCommonArguments
  let inputFileName ← nextArgument
  match files inputFileName with
  | none => (Outcome.exit 1 ("Failed to open input file '" ++ inputFileName.text ++ "'\n") :
      Outcome WorkloadParamStore)
  | some contents =>
    let nodes ← (parseProcesses contents [] : Outcome (List ProcessParams))
    return { commonParams, params := .file (headOf uninitialised nodes) }

/-! ## `parse_arguments` -/

/-- The switch over `args[1][0]`. -/
def parseMode (files : Files) (uninitialised : ProcessList) : Parser WorkloadParamStore := do
  let mode ← nextArgument
  if mode.stored.head? = some 67 then parseCommandlineArguments
  else if mode.stored.head? = some 70 then parseFileArguments files uninitialised
  else (Outcome.exit 1 "Invalid parameter mode given\n" : Outcome WorkloadParamStore)

/-- `parse_arguments` on the arguments behind the name of the program. One more argument is the name
of the output file. -/
def parseArguments (files : Files) (uninitialised : ProcessList) (args : List CString) :
    Outcome WorkloadParamStore := do
  let (paramStore, rest) ← parseMode files uninitialised args
  let commonParams := { paramStore.commonParams with outputFileName := rest.head? }
  return { commonParams, params := paramStore.params }

/-! ## What is parsed -/

section Parsing

variable {α β : Type} {files : Files} {uninitialised : ProcessList} {args rest : List CString}

theorem parser_bind_eq_ok {x : Parser α} {f : α → Parser β} {r : β × List CString} :
    (x >>= f) args = .ok r ↔ ∃ a rest, x args = .ok (a, rest) ∧ f a rest = .ok r := by
  constructor
  · intro h
    obtain ⟨⟨a, rest⟩, hx, hf⟩ := Outcome.bind_eq_ok.mp h
    exact ⟨a, rest, hx, hf⟩
  · rintro ⟨a, rest, hx, hf⟩
    exact Outcome.bind_eq_ok.mpr ⟨(a, rest), hx, hf⟩

/-- A statement of the parser that reads no argument. -/
theorem parser_lift_eq_ok {x : Outcome α} {a : α} :
    (liftM x : Parser α) args = .ok (a, rest) ↔ x = .ok a ∧ args = rest := by
  constructor
  · intro h
    obtain ⟨b, hx, h⟩ := Outcome.bind_eq_ok.mp h
    cases h
    exact ⟨hx, rfl⟩
  · rintro ⟨hx, rfl⟩
    exact Outcome.bind_eq_ok.mpr ⟨a, hx, rfl⟩

theorem nextArgument_eq_ok {arg : CString} :
    nextArgument args = .ok (arg, rest) ↔ args = arg :: rest := by
  cases args <;> simp [nextArgument]

theorem nextInt_eq_ok {n : Int} :
    nextInt args = .ok (n, rest) ↔ ∃ arg, args = arg :: rest ∧ Scanf.atoi arg = .ok n := by
  constructor
  · intro h
    obtain ⟨arg, left, harg, h⟩ := parser_bind_eq_ok.mp h
    obtain ⟨hn, rfl⟩ := parser_lift_eq_ok.mp h
    exact ⟨arg, nextArgument_eq_ok.mp harg, hn⟩
  · rintro ⟨arg, rfl, hn⟩
    exact parser_bind_eq_ok.mpr
      ⟨arg, rest, nextArgument_eq_ok.mpr rfl, parser_lift_eq_ok.mpr ⟨hn, rfl⟩⟩

theorem parseCommonArguments_eq_ok {commonParams : CommonParams} :
    parseCommonArguments args = .ok (commonParams, rest) ↔
      ∃ rqLen allp outMode, args = rqLen :: allp :: outMode :: rest ∧
        Scanf.atoi rqLen = .ok commonParams.maxRunqueueLength ∧
        Scanf.atoi allp = .ok commonParams.totalProcessCount ∧
        Scanf.atoi outMode = .ok commonParams.debugOutputMode ∧
        commonParams.outputFileName = none := by
  constructor
  · intro h
    obtain ⟨n₁, rest₁, h₁, h⟩ := parser_bind_eq_ok.mp h
    obtain ⟨n₂, rest₂, h₂, h⟩ := parser_bind_eq_ok.mp h
    obtain ⟨n₃, rest₃, h₃, h⟩ := parser_bind_eq_ok.mp h
    cases h
    obtain ⟨rqLen, rfl, hrqLen⟩ := nextInt_eq_ok.mp h₁
    obtain ⟨allp, rfl, hallp⟩ := nextInt_eq_ok.mp h₂
    obtain ⟨outMode, rfl, houtMode⟩ := nextInt_eq_ok.mp h₃
    exact ⟨rqLen, allp, outMode, rfl, hrqLen, hallp, houtMode, rfl⟩
  · rintro ⟨rqLen, allp, outMode, rfl, hrqLen, hallp, houtMode, hnone⟩
    refine parser_bind_eq_ok.mpr ⟨_, _, nextInt_eq_ok.mpr ⟨rqLen, rfl, hrqLen⟩, ?_⟩
    refine parser_bind_eq_ok.mpr ⟨_, _, nextInt_eq_ok.mpr ⟨allp, rfl, hallp⟩, ?_⟩
    refine parser_bind_eq_ok.mpr ⟨_, _, nextInt_eq_ok.mpr ⟨outMode, rfl, houtMode⟩, ?_⟩
    cases commonParams
    cases hnone
    rfl

/-- In mode `F` the name of the workload file comes behind the common arguments. -/
theorem parseFileArguments_eq_ok {paramStore : WorkloadParamStore} :
    parseFileArguments files uninitialised args = .ok (paramStore, rest) ↔
      ∃ inputFileName contents nodes,
        parseCommonArguments args = .ok (paramStore.commonParams, inputFileName :: rest) ∧
        files inputFileName = some contents ∧ parseProcesses contents [] = .ok nodes ∧
        paramStore.params = .file (headOf uninitialised nodes) := by
  constructor
  · intro h
    obtain ⟨commonParams, rest₁, hcommon, hname⟩ := parser_bind_eq_ok.mp h
    obtain ⟨inputFileName, rest₂, harg, hopen⟩ := parser_bind_eq_ok.mp hname
    obtain rfl := nextArgument_eq_ok.mp harg
    cases hfile : files inputFileName with
    | none =>
        rw [hfile] at hopen
        cases hopen
    | some contents =>
        rw [hfile] at hopen
        obtain ⟨nodes, rest₃, hparse, hstore⟩ := parser_bind_eq_ok.mp hopen
        obtain ⟨hnodes, rfl⟩ := parser_lift_eq_ok.mp hparse
        cases hstore
        exact ⟨inputFileName, contents, nodes, hcommon, hfile, hnodes, rfl⟩
  · rintro ⟨inputFileName, contents, nodes, hcommon, hfile, hnodes, hparams⟩
    refine parser_bind_eq_ok.mpr ⟨_, _, hcommon, ?_⟩
    refine parser_bind_eq_ok.mpr ⟨_, _, nextArgument_eq_ok.mpr rfl, ?_⟩
    rw [hfile]
    refine parser_bind_eq_ok.mpr ⟨_, _, parser_lift_eq_ok.mpr ⟨hnodes, rfl⟩, ?_⟩
    cases paramStore
    cases hparams
    rfl

/-- Arguments in mode `F`. -/
theorem parseArguments_file {mode : CString} {paramStore : WorkloadParamStore}
    (hmode : mode.stored.head? = some 70)
    (h : parseFileArguments files uninitialised args = .ok (paramStore, rest)) :
    parseArguments files uninitialised (mode :: args) = .ok
      { commonParams := { paramStore.commonParams with outputFileName := rest.head? }
        params := paramStore.params } := by
  have hswitch : parseMode files uninitialised (mode :: args) = .ok (paramStore, rest) := by
    refine parser_bind_eq_ok.mpr ⟨mode, args, nextArgument_eq_ok.mpr rfl, ?_⟩
    rw [hmode, if_neg (by decide), if_pos rfl]
    exact h
  rw [parseArguments, hswitch]
  rfl

theorem parseCommandlineArguments_params {paramStore : WorkloadParamStore}
    (h : parseCommandlineArguments args = .ok (paramStore, rest)) :
    ∃ params, paramStore.params = .commandline params := by
  unfold parseCommandlineArguments at h
  iterate 11
    obtain ⟨_, _, -, h⟩ := parser_bind_eq_ok.mp h
  cases h
  exact ⟨_, rfl⟩

/-- **The two modes**: parameters for random processes, or the records of the file named behind the
mode and the common arguments. -/
theorem parseArguments_cases {paramStore : WorkloadParamStore}
    (h : parseArguments files uninitialised args = .ok paramStore) :
    (∃ params, paramStore.params = .commandline params) ∨
      ∃ inputFileName contents nodes, args[4]? = some inputFileName ∧
        files inputFileName = some contents ∧ parseProcesses contents [] = .ok nodes ∧
        paramStore.params = .file (headOf uninitialised nodes) := by
  obtain ⟨⟨parsed, rest⟩, hmode, hstore⟩ := Outcome.bind_eq_ok.mp h
  cases hstore
  obtain ⟨mode, left, hargs, hswitch⟩ := parser_bind_eq_ok.mp hmode
  obtain rfl := nextArgument_eq_ok.mp hargs
  split at hswitch
  · obtain ⟨params, hparams⟩ := parseCommandlineArguments_params hswitch
    exact .inl ⟨params, hparams⟩
  · split at hswitch
    · obtain ⟨inputFileName, contents, nodes, hcommon, hfile, hnodes, hparams⟩ :=
        parseFileArguments_eq_ok.mp hswitch
      obtain ⟨rqLen, allp, outMode, rfl, -⟩ := parseCommonArguments_eq_ok.mp hcommon
      exact .inr ⟨inputFileName, contents, nodes, rfl, hfile, hnodes, hparams⟩
    · cases hswitch

end Parsing

end Cs342.Cfs
