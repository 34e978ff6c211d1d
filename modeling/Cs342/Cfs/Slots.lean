import Mathlib
import Cs342.Cfs.Iterator
import Cs342.Cfs.Publishing

/-!
# Statistics slots

The statistics of the processes lie in an array with `total_process_count` places, and a process
writes the place before its pid. How many processes there are is decided by the iterator: in mode
`C` by that same number, in mode `F` by the records of the file, and nothing compares the two
(`slots_match_iff`, `not_slots_match_twoRecords`).
-/

namespace Cs342.Cfs

open Threads (Label)

/-! ## Slots and processes -/

/-- The processes that are created are as many as there are slots, and have the pids of these. -/
structure SlotsMatch (workload : Workload) : Prop where
  created_le : ∀ s, (cfs workload).Reachable s →
    (s.shared.created : Int) ≤ workload.totalProcessCount
  created : ∃ s, (cfs workload).Reachable s ∧
    (s.shared.created : Int) = workload.totalProcessCount
  exited : ∀ s, (cfs workload).Reachable s → s.pc .generator = .exited →
    (s.shared.created : Int) = workload.totalProcessCount
  pids : ∀ s, (cfs workload).Reachable s → ∀ k, k < s.shared.created →
    (s.shared.pcbs k).pid = (k : Int) + 1
  /-- Every write of `send_process_stats` is one to the array. -/
  sends : ∀ s, (cfs workload).Reachable s → ∀ k departureTime,
    s.pc (.process k) = .sendStats departureTime →
      sendProcessStats (processStatistics (s.shared.pcbs k) (s.shared.locals k) departureTime)
        s.shared ≠ none
  /-- Every slot that `print_table` reads is that of one created process. -/
  prints : ∀ s, (cfs workload).Reachable s → s.pc .main = .printTable →
    ∀ i : Nat, (i : Int) < workload.totalProcessCount →
      ∃! k, k < s.shared.created ∧ (s.shared.pcbs k).pid = (i : Int) + 1

/-! ## The end of the generator -/

section Slots

variable {workload : Workload} {s s' : State} {l : Label Thread}

/-- Main has waited for the generator before it prints. -/
structure WaitedInv (s : State) : Prop where
  joined : (s.pc .main).Joined → s.shared.generatorExited = true
  exited : s.shared.generatorExited = true → s.pc .generator = .exited

theorem generator_exits {shared shared' : Shared} {p next : GeneratorPC}
    (h : (generatorInstr workload p).advance shared = some (shared', next)) :
    p ≠ .exited ∧
      (shared'.generatorExited = true → shared.generatorExited = true ∨ next = .exited) := by
  cases p with
  | exited => cases h
  | whileNext =>
      simp only [generatorInstr, Threads.Instr.advance] at h
      split at h <;> cases h <;> exact ⟨by simp, Or.inl⟩
  | pthreadExit =>
      cases h
      exact ⟨by simp, fun _ => Or.inr rfl⟩
  | _ =>
      cases h
      exact ⟨by simp, Or.inl⟩

theorem main_waited {shared shared' : Shared} {p next : MainPC}
    (h : (mainInstr p).advance shared = some (shared', next)) :
    next.Joined → shared.generatorExited = true ∨ p.Joined := by
  cases p with
  | joinScheduler =>
      simp only [mainInstr, Threads.Instr.advance] at h
      split at h <;> cases h
      exact fun hjoined => absurd hjoined id
  | joinGenerator =>
      simp only [mainInstr, Threads.Instr.advance] at h
      split at h
      · next hexited => exact fun _ => Or.inl hexited
      · cases h
  | _ => exact fun _ => Or.inr trivial

theorem process_generatorExited {k : Nat} {shared shared' : Shared} {p next : ProcessPC}
    (h : (processInstr k p).advance shared = some (shared', next)) :
    shared'.generatorExited = shared.generatorExited := by
  cases p with
  | run =>
      obtain ⟨rfl, hslice⟩ := advance_run h
      obtain ⟨rq, timeslice, cpuTime, vruntime, -, -, -, -, rfl⟩ := runSlice_spec hslice
      rfl
  | sendStats departureTime =>
      obtain ⟨rfl, -, statsArray, rfl⟩ := advance_sendStats h
      rfl
  | _ =>
      simp only [processInstr, Threads.Instr.advance] at h
      grind [Shared.setState, Shared.setPcb]

theorem scheduler_generatorExited {shared shared' : Shared} {p next : SchedulerPC}
    (h : (schedulerInstr workload p).advance shared = some (shared', next)) :
    shared'.generatorExited = shared.generatorExited := by
  cases p with
  | select =>
      simp only [schedulerInstr, Threads.Instr.advance] at h
      split at h <;> cases h
      rfl
  | unlockRq pcb => cases pcb <;> cases h <;> rfl
  | exited => cases h
  | _ => cases h; rfl

theorem WaitedInv.step (hinv : WaitedInv s) (hstep : (cfs workload).step l s = some s') :
    WaitedInv s' := by
  have hframe : s'.pc .main = s.pc .main → s'.pc .generator = s.pc .generator →
      s'.shared.generatorExited = s.shared.generatorExited → WaitedInv s' := by
    intro hmain hgenerator hexited
    refine ⟨?_, ?_⟩
    · rw [hmain, hexited]
      exact hinv.joined
    · rw [hgenerator, hexited]
      exact hinv.exited
  rcases Threads.step_advance hstep with ⟨hshared, hpc⟩ | ⟨t, next, -, hadvance, hpc⟩
  · exact hframe (by rw [hpc]) (by rw [hpc]) (by rw [hshared])
  · have hother : ∀ u, u ≠ t → s'.pc u = s.pc u := by
      intro u hu
      rw [hpc, Function.update_of_ne hu]
    cases t with
    | process k =>
        exact hframe (hother _ (by simp)) (hother _ (by simp)) (process_generatorExited hadvance)
    | scheduler =>
        exact hframe (hother _ (by simp)) (hother _ (by simp)) (scheduler_generatorExited hadvance)
    | generator =>
        obtain ⟨halive, hexits⟩ := generator_exits hadvance
        -- a generator that takes a step has not ended, so main still waits for it
        have hnot : s.shared.generatorExited ≠ true := fun h => halive (hinv.exited h)
        refine ⟨fun h => ?_, fun h => ?_⟩
        · rw [hother _ (by simp)] at h
          exact absurd (hinv.joined h) hnot
        · rw [hpc, Function.update_self]
          exact (hexits h).resolve_left hnot
    | main =>
        obtain ⟨printed, statsFreed, argumentsFreed, hshared⟩ := main_frame hadvance
        refine ⟨fun h => ?_, ?_⟩
        · rw [hpc, Function.update_self] at h
          rw [hshared]
          rcases main_waited hadvance h with h | h
          · exact h
          · exact hinv.joined h
        · rw [hother _ (by simp), hshared]
          exact hinv.exited
    | clock =>
        have hshared := clock_frame (p := s.pc .clock) hadvance
        exact hframe (hother _ (by simp)) (hother _ (by simp)) (by rw [hshared])

theorem WaitedInv.reachable (hs : (cfs workload).Reachable s) : WaitedInv s := by
  apply hs.invariant
  · exact ⟨fun h => absurd h id, fun h => (by cases h)⟩
  · exact fun s l s' hinv hstep => hinv.step hstep

/-! ## Counting the created processes -/

theorem created_le_creatable (hs : (cfs workload).Reachable s) :
    s.shared.created ≤ workload.creatable.length := by
  by_contra h
  obtain ⟨params, hparams, -⟩ := (CreationInv.reachable hs).creatable (not_le.mp h)
  rw [List.getElem?_eq_none le_rfl] at hparams
  cases hparams

/-- As many processes as can be created are created. -/
theorem exists_created (workload : Workload) :
    ∃ s, (cfs workload).Reachable s ∧ s.shared.created = workload.creatable.length := by
  cases h : workload.creatable.length with
  | zero => exact ⟨_, ⟨[], rfl⟩, rfl⟩
  | succ k =>
      have hk : k < workload.creatable.length := by omega
      obtain ⟨ls, s, hrun, harrived⟩ := exists_arrived_creatable hk
      exact ⟨s, ⟨ls, hrun⟩, harrived.created⟩

/-- When the generator ends, all that can be created have been. -/
theorem created_of_exited (hs : (cfs workload).Reachable s) (hexited : s.pc .generator = .exited) :
    s.shared.created = workload.creatable.length := by
  have hle : workload.creatable.length ≤ workload.processes.length := by
    unfold Workload.creatable
    split
    · rw [List.length_take]
      omega
    · exact le_rfl
  have hexits := (CreationInv.reachable hs).exits (Or.inr hexited)
  exact le_antisymm (created_le_creatable hs) (hle.trans hexits)

theorem pid_of_created (hs : (cfs workload).Reachable s) {k : Nat} (hk : k < s.shared.created) :
    (s.shared.pcbs k).pid = (k : Int) + 1 := by
  obtain ⟨params, -, hidentity⟩ := (CreationInv.reachable hs).pcb k hk
  exact congrArg Prod.fst hidentity

/-- **The slots match** exactly if there are as many processes to create as slots. -/
theorem slotsMatch_iff :
    SlotsMatch workload ↔ workload.totalProcessCount = workload.creatable.length := by
  constructor
  · intro h
    obtain ⟨s, hs, hcreated⟩ := h.created
    obtain ⟨s', hs', hcreated'⟩ := exists_created workload
    have hle := h.created_le s' hs'
    have hle' := created_le_creatable hs
    omega
  · intro htotal
    refine ⟨?_, ?_, ?_, fun s hs k hk => pid_of_created hs hk, ?_, ?_⟩
    · intro s hs
      have hle := created_le_creatable hs
      omega
    · obtain ⟨s, hs, hcreated⟩ := exists_created workload
      exact ⟨s, hs, by omega⟩
    · intro s hs hexited
      rw [created_of_exited hs hexited, htotal]
    · intro s hs k departureTime hp
      have hk : k < s.shared.created := by
        by_contra h
        rw [(PlaceInv.reachable hs).fresh k (not_lt.mp h)] at hp
        cases hp
      have hle := created_le_creatable hs
      have hslots := (JoinInv.reachable hs).slots
      have hpid := pid_of_created hs hk
      rw [sendProcessStats, if_pos]
      · simp
      · simp only [processStatistics, hpid, hslots]
        omega
    · intro s hs hprint i hi
      have hwaited := WaitedInv.reachable hs
      have hcreated := created_of_exited hs (hwaited.exited (hwaited.joined (by rw [hprint]; trivial)))
      have hlt : i < s.shared.created := by omega
      refine ⟨i, ⟨hlt, pid_of_created hs hlt⟩, ?_⟩
      rintro k ⟨hk, hpid⟩
      rw [pid_of_created hs hk] at hpid
      omega

end Slots

/-! ## Slots and arguments -/

/-- What the generator runs on, if the iterator yields these processes. -/
def WorkloadParamStore.workload (paramStore : WorkloadParamStore)
    (processes : List ProcessParams) : Workload where
  processes := processes
  totalProcessCount := paramStore.commonParams.totalProcessCount
  maxRunqueueLength := paramStore.commonParams.maxRunqueueLength

/-- The iterator yields processes without undefined behaviour, and they match the slots. -/
def SlotsMatchProcesses (source : RandomSource) (paramStore : WorkloadParamStore) : Prop :=
  ∃ processes, Yields source paramStore processes ∧ SlotsMatch (paramStore.workload processes)

/-- The number of processes that the arguments and the file ask for. -/
inductive AskedFor (files : Files) (uninitialised : ProcessList) (source : RandomSource)
    (args : List CString) (paramStore : WorkloadParamStore) : Nat → Prop
  /-- In mode `C`, the number on the command line, provided that the processes can be drawn. -/
  | drawn {params : CommandlineParams} {fuel : Nat}
      (hparams : paramStore.params = .commandline params)
      (hdrawable : Drawable source fuel params
        paramStore.commonParams.totalProcessCount.toNat 0) :
      AskedFor files uninitialised source args paramStore
        paramStore.commonParams.totalProcessCount.toNat
  /-- In mode `F`, the number of records in the file. -/
  | records {list : ProcessList} {inputFileName : CString} {contents : ByteBuffer.Bytes}
      {nodes : List ProcessParams} (hparams : paramStore.params = .file list)
      (hname : args[4]? = some inputFileName) (hfile : files inputFileName = some contents)
      (hnodes : parseProcesses contents [] = .ok nodes) (hne : nodes ≠ []) :
      AskedFor files uninitialised source args paramStore nodes.length
  /-- A file without a record leaves it to the uninitialised head of the list. -/
  | uninitialised {list : ProcessList} {inputFileName : CString} {contents : ByteBuffer.Bytes}
      {found : List ProcessParams} (hparams : paramStore.params = .file list)
      (hname : args[4]? = some inputFileName) (hfile : files inputFileName = some contents)
      (hnodes : parseProcesses contents [] = .ok []) (hfound : uninitialised = some found) :
      AskedFor files uninitialised source args paramStore found.length

section Arguments

variable {files : Files} {uninitialised : ProcessList} {source : RandomSource}
  {args : List CString} {paramStore : WorkloadParamStore}

/-- The iterator yields as many processes as are asked for. -/
theorem exists_yields_iff (h : parseArguments files uninitialised args = .ok paramStore) (n : Nat) :
    (∃ processes, Yields source paramStore processes ∧ processes.length = n) ↔
      AskedFor files uninitialised source args paramStore n := by
  rcases parseArguments_cases h with
    ⟨params, hparams⟩ | ⟨inputFileName, contents, nodes, hname, hfile, hnodes, hparams⟩
  · rw [yields_commandline_iff hparams]
    constructor
    · rintro ⟨rfl, fuel, hdrawable⟩
      exact .drawn hparams hdrawable
    · intro hasked
      cases hasked with
      | drawn hparams' hdrawable =>
          rw [hparams] at hparams'
          cases hparams'
          exact ⟨rfl, _, hdrawable⟩
      | records hparams' =>
          rw [hparams] at hparams'
          cases hparams'
      | uninitialised hparams' =>
          rw [hparams] at hparams'
          cases hparams'
  · simp only [yields_file_iff hparams]
    constructor
    · rintro ⟨processes, hhead, rfl⟩
      unfold headOf at hhead
      split at hhead
      · next hnil => exact .uninitialised hparams hname hfile (hnil ▸ hnodes) hhead
      · next hne =>
          cases hhead
          exact .records hparams hname hfile hnodes hne
    · intro hasked
      cases hasked with
      | drawn hparams' =>
          rw [hparams] at hparams'
          cases hparams'
      | records _ hname' hfile' hnodes' hne =>
          rw [hname] at hname'
          cases hname'
          rw [hfile] at hfile'
          cases hfile'
          rw [hnodes] at hnodes'
          cases hnodes'
          exact ⟨nodes, if_neg hne, rfl⟩
      | uninitialised _ hname' hfile' hnodes' hfound =>
          rw [hname] at hname'
          cases hname'
          rw [hfile] at hfile'
          cases hfile'
          rw [hnodes] at hnodes'
          cases hnodes'
          exact ⟨_, (if_pos rfl).trans hfound, rfl⟩

/-- With a limit of zero, one process at most can be created. -/
theorem length_creatable (workload : Workload) :
    workload.creatable.length =
      if workload.maxRunqueueLength = 0 then min 1 workload.processes.length
      else workload.processes.length := by
  unfold Workload.creatable
  split
  · exact List.length_take
  · rfl

end Arguments

/-- **Slots match processes** exactly if the number of processes that is asked for, or one of them
with a `max_runqueue_length` of zero, is `total_process_count`. -/
theorem slots_match_iff {files : Files} {uninitialised : ProcessList} {args : List CString}
    {paramStore : WorkloadParamStore}
    (h : parseArguments files uninitialised args = .ok paramStore) (source : RandomSource) :
    SlotsMatchProcesses source paramStore ↔
      ∃ n : Nat, AskedFor files uninitialised source args paramStore n ∧
        paramStore.commonParams.totalProcessCount =
          (if paramStore.commonParams.maxRunqueueLength = 0 then min 1 n else n : Nat) := by
  constructor
  · rintro ⟨processes, hyields, hmatch⟩
    refine ⟨processes.length, (exists_yields_iff h _).mp ⟨processes, hyields, rfl⟩, ?_⟩
    have htotal := slotsMatch_iff.mp hmatch
    rw [length_creatable] at htotal
    exact htotal
  · rintro ⟨n, hasked, htotal⟩
    obtain ⟨processes, hyields, rfl⟩ := (exists_yields_iff h n).mpr hasked
    refine ⟨processes, hyields, slotsMatch_iff.mpr ?_⟩
    rw [length_creatable]
    exact htotal

/-- A file with two records, `PL 1 0` each. -/
def twoRecords : ByteBuffer.Bytes := [80, 76, 32, 49, 32, 48, 10, 80, 76, 32, 49, 32, 48, 10]

/-- The arguments `F 10 n 1 i`, for a digit `n`. -/
def recordArgs (digit : UInt8) : List CString :=
  [[70], [49, 48], [digit], [49], [105]].map CString.ofBytes

/-- What is parsed of them. -/
def recordStore (totalProcessCount : Int) : WorkloadParamStore where
  commonParams :=
    { maxRunqueueLength := 10, totalProcessCount, debugOutputMode := 1, outputFileName := none }
  params := .file (some [⟨1, 0, 0⟩, ⟨1, 0, 0⟩])

theorem parse_twoRecords :
    parseProcesses twoRecords [] = .ok [⟨1, 0, 0⟩, ⟨1, 0, 0⟩] := by
  have hfirst : scanProcess twoRecords
      = .ok (some ⟨1, 0, 0⟩, [80, 76, 32, 49, 32, 48, 10]) := by decide
  have hsecond : scanProcess [80, 76, 32, 49, 32, 48, 10] = .ok (some ⟨1, 0, 0⟩, []) := by decide
  have hend : scanProcess [] = .ok (none, []) := by decide
  rw [parseProcesses_some hfirst, parseProcesses_some hsecond, parseProcesses_none hend]
  rfl

theorem parse_recordArgs (digit : UInt8) {totalProcessCount : Int}
    (hdigit : Scanf.atoi (CString.ofBytes [digit]) = .ok totalProcessCount) :
    parseArguments (fun _ => some twoRecords) none (recordArgs digit)
      = .ok (recordStore totalProcessCount) := by
  have hten : Scanf.atoi (CString.ofBytes [49, 48]) = .ok 10 := by decide
  have hone : Scanf.atoi (CString.ofBytes [49]) = .ok 1 := by decide
  have hcommon : parseCommonArguments
      ([[49, 48], [digit], [49], [105]].map CString.ofBytes)
        = .ok ((recordStore totalProcessCount).commonParams, [CString.ofBytes [105]]) :=
    parseCommonArguments_eq_ok.mpr ⟨_, _, _, rfl, hten, hdigit, hone, rfl⟩
  exact parseArguments_file (by decide)
    (parseFileArguments_eq_ok.mpr ⟨_, twoRecords, _, hcommon, rfl, parse_twoRecords, rfl⟩)

/-- Two records and two slots match. -/
theorem slots_match_twoRecords : SlotsMatchProcesses zeros (recordStore 2) :=
  (slots_match_iff (parse_recordArgs 50 (by decide)) zeros).mpr
    ⟨2, .records rfl rfl rfl parse_twoRecords (by simp), rfl⟩

/-- Two records and one slot do not. -/
theorem not_slots_match_twoRecords :
    parseArguments (fun _ => some twoRecords) none (recordArgs 49) = .ok (recordStore 1) ∧
      ∀ source, ¬ SlotsMatchProcesses source (recordStore 1) := by
  refine ⟨parse_recordArgs 49 (by decide), ?_⟩
  rintro source ⟨processes, hyields, hmatch⟩
  cases (yields_file_iff rfl).mp hyields
  exact absurd (slotsMatch_iff.mp hmatch) (by decide)

end Cs342.Cfs
