import Mathlib
import Cs342.Cfs.Weights

/-!
# Priorities from the arguments (`get_next_process`)

The priorities of the simulator come from the records of a file or from random draws. Which of them
can arrive is a matter of the arguments (`canArrive_iff`): of a file all records can, or the first
one only; and of a range all numbers that `get_random_in_range` returns for some value of `rand`.
With the runs of the simulator, this says when the table of weights is never left
(`priorities_index_table_iff`).
-/

namespace Cs342.Cfs

/-! ## Possible results of draws -/

namespace Draw

variable {α β : Type}

/-- `rand` returns these numbers from call `i` on. -/
def Returns (rand : Nat → Fin (2 ^ 31)) (i : Nat) (numbers : List (Fin (2 ^ 31))) : Prop :=
  ∀ k raw, numbers[k]? = some raw → rand (i + k) = raw

theorem returns_append {rand : Nat → Fin (2 ^ 31)} {i : Nat} {first rest : List (Fin (2 ^ 31))}
    (h : Returns rand i (first ++ rest)) :
    Returns rand i first ∧ Returns rand (i + first.length) rest := by
  constructor
  · intro k raw hk
    apply h k raw
    rw [List.getElem?_append_left (List.getElem?_eq_some_iff.mp hk).1]
    exact hk
  · intro k raw hk
    rw [Nat.add_assoc]
    apply h
    rw [List.getElem?_append_right (Nat.le_add_right _ _), Nat.add_sub_cancel_left]
    exact hk

theorem exists_returns (numbers : List (Fin (2 ^ 31))) : ∃ rand, Returns rand 0 numbers := by
  refine ⟨fun k => numbers.getD k 0, ?_⟩
  intro k raw hk
  show numbers.getD (0 + k) 0 = raw
  rw [Nat.zero_add, List.getD_eq_getElem?_getD, hk]
  rfl

/-- Some numbers lead to the result, whichever call is the first. -/
def Possible (x : (Nat → Fin (2 ^ 31)) → Draw α) (a : α) : Prop :=
  ∃ numbers, ∀ rand i, Returns rand i numbers → x rand i = .ok (some (a, i + numbers.length))

theorem possible_pure (a : α) : Possible (fun _ => (pure a : Draw α)) a :=
  ⟨[], fun _ _ _ => rfl⟩

/-- **Rule of composition**: the numbers of two draws can be chosen one after the other. -/
theorem Possible.bind {x : (Nat → Fin (2 ^ 31)) → Draw α}
    {f : (Nat → Fin (2 ^ 31)) → α → Draw β} {a : α} {b : β} (hx : Possible x a)
    (hf : Possible (fun rand => f rand a) b) : Possible (fun rand => x rand >>= f rand) b := by
  obtain ⟨first, hfirst⟩ := hx
  obtain ⟨rest, hrest⟩ := hf
  refine ⟨first ++ rest, fun rand i h => ?_⟩
  obtain ⟨hleft, hright⟩ := returns_append h
  have hlast := hrest rand _ hright
  rw [Nat.add_assoc, ← List.length_append] at hlast
  exact bind_eq_some.mpr ⟨a, _, hfirst rand i hleft, hlast⟩

end Draw

/-! ## The processes that can be drawn -/

/-- The values that a distribution draws for some values of `rand`. -/
def DistributionMethod.Draws (sample : Int → Fin (2 ^ 31) → Double)
    (distribution : DistributionMethod) (average rangeStart rangeEnd x : Int) : Prop :=
  match distribution with
  | .fixed => x = average
  | .uniform => RangeDraws rangeStart rangeEnd x
  | .exponential => ∃ raw, ((sample average raw).ltInt rangeStart
      || (sample average raw).gtInt rangeEnd) = false ∧ (sample average raw).toInt = .ok x

/-- The processes that parameters draw for some values of `rand`. -/
structure CommandlineParams.Draws (sample : Int → Fin (2 ^ 31) → Double)
    (params : CommandlineParams) (process : ProcessParams) : Prop where
  priority : RangeDraws params.minPriority params.maxPriority process.priority
  length : params.processLengthDistribution.Draws sample params.averageProcessLength
    params.minProcessLength params.maxProcessLength process.length
  interarrivalTime : params.interarrivalTimeDistribution.Draws sample
    params.averageInterarrivalTime params.minInterarrivalTime params.maxInterarrivalTime
    process.interarrivalTime

section Draws

variable {source : RandomSource} {sample : Int → Fin (2 ^ 31) → Double} {fuel i j : Nat}
  {rangeStart rangeEnd average x : Int} {distribution : DistributionMethod}
  {params : CommandlineParams} {process : ProcessParams}

theorem rangeDraws_of_draw
    (h : getRandomInRange source rangeStart rangeEnd i = .ok (some (x, j))) :
    RangeDraws rangeStart rangeEnd x := by
  rw [getRandomInRange_copies_eq_some] at h
  by_cases heq : rangeStart = rangeEnd
  · subst heq
    rw [Paging.getRandomInRange_self] at h
    cases h
    rw [RangeDraws, if_pos rfl]
  · obtain ⟨hscalable, hx, hvalue, -⟩ := (getRandomInRange_eq_ok heq).mp h
    exact (rangeDraws_iff heq).mpr ⟨hscalable, hx, source.rand i, hvalue⟩

theorem possible_of_rangeDraws (h : RangeDraws rangeStart rangeEnd x) :
    Draw.Possible (fun rand => getRandomInRange ⟨rand, sample⟩ rangeStart rangeEnd) x := by
  by_cases heq : rangeStart = rangeEnd
  · subst heq
    rw [RangeDraws, if_pos rfl] at h
    subst h
    refine ⟨[], fun rand i _ => ?_⟩
    rw [getRandomInRange_copies_eq_some]
    exact Paging.getRandomInRange_self rand i x
  · obtain ⟨hscalable, hx, raw, hvalue⟩ := (rangeDraws_iff heq).mp h
    refine ⟨[raw], fun rand i hrand => ?_⟩
    rw [getRandomInRange_copies_eq_some, getRandomInRange_eq_ok heq]
    refine ⟨hscalable, hx, ?_, rfl⟩
    have hraw : rand i = raw := hrand 0 raw rfl
    dsimp only
    rw [hraw]
    exact hvalue

/-- What the rejection loop returns comes from a number that is accepted. -/
theorem draws_of_exponential
    (h : getExponentialRandom source average rangeStart rangeEnd fuel i = .ok (some (x, j))) :
    DistributionMethod.exponential.Draws source.sample average rangeStart rangeEnd x := by
  induction fuel generalizing i with
  | zero => cases h
  | succ fuel ih =>
      cases hrejects : source.rejects average rangeStart rangeEnd (source.rand i) with
      | true =>
          rw [getExponentialRandom_rejected hrejects] at h
          exact ih h
      | false =>
          rw [getExponentialRandom_rounded hrejects] at h
          obtain ⟨a, ha, h⟩ := Outcome.bind_eq_ok.mp h
          cases h
          exact ⟨source.rand i, hrejects, ha⟩

theorem draws_of_distributed
    (h : getDistributed source fuel distribution average rangeStart rangeEnd i
      = .ok (some (x, j))) :
    distribution.Draws source.sample average rangeStart rangeEnd x := by
  cases distribution with
  | fixed =>
      cases h
      rfl
  | uniform => exact rangeDraws_of_draw h
  | exponential => exact draws_of_exponential h

/-- One round of the rejection loop is enough, with the right number. -/
theorem possible_of_draws (h : distribution.Draws sample average rangeStart rangeEnd x) :
    Draw.Possible (fun rand =>
      getDistributed ⟨rand, sample⟩ 1 distribution average rangeStart rangeEnd) x := by
  cases distribution with
  | fixed =>
      cases h
      exact Draw.possible_pure average
  | uniform => exact possible_of_rangeDraws h
  | exponential =>
      obtain ⟨raw, haccepted, hx⟩ := h
      refine ⟨[raw], fun rand i hrand => ?_⟩
      obtain rfl : rand i = raw := hrand 0 raw rfl
      have hrejects : RandomSource.rejects ⟨rand, sample⟩ average rangeStart rangeEnd (rand i)
          = false := haccepted
      refine (getExponentialRandom_rounded hrejects).trans ?_
      rw [Draw.lift, hx]
      rfl

theorem draws_of_randomProcess (h : randomProcess source fuel params i = .ok (some (process, j))) :
    params.Draws source.sample process := by
  obtain ⟨length, i₁, hlength, h⟩ := Draw.bind_eq_some.mp h
  obtain ⟨priority, i₂, hpriority, h⟩ := Draw.bind_eq_some.mp h
  obtain ⟨time, i₃, htime, h⟩ := Draw.bind_eq_some.mp h
  cases h
  exact ⟨rangeDraws_of_draw hpriority, draws_of_distributed hlength, draws_of_distributed htime⟩

theorem possible_randomProcess (h : params.Draws sample process) :
    Draw.Possible (fun rand => randomProcess ⟨rand, sample⟩ 1 params) process := by
  refine (possible_of_draws h.length).bind ?_
  refine (possible_of_rangeDraws h.priority).bind ?_
  refine (possible_of_draws h.interarrivalTime).bind ?_
  exact Draw.possible_pure process

end Draws

/-! ## What the iterator hands out -/

/-- The generator gets these processes one after the other, and may ask for more. -/
inductive HandsOut (source : RandomSource) : ParamsIterator → Nat → List ProcessParams → Prop
  | done (iterator : ParamsIterator) (i : Nat) : HandsOut source iterator i []
  | next {iterator iterator' : ParamsIterator} {fuel i j : Nat} {process : ProcessParams}
      {processes : List ProcessParams} (hnext : hasNextProcess iterator = true)
      (hprocess : getNextProcess source fuel iterator i = .ok (some ((process, iterator'), j)))
      (hrest : HandsOut source iterator' j processes) :
      HandsOut source iterator i (process :: processes)

section HandsOut

variable {source : RandomSource} {iterator : ParamsIterator} {i : Nat}
  {processes : List ProcessParams}

/-- What the iterator yields in the end, it hands out. -/
theorem handsOut_of_iterate {fuel rounds j : Nat}
    (h : iterate source fuel rounds iterator i = .ok (some (processes, j))) :
    HandsOut source iterator i processes := by
  induction rounds generalizing iterator i processes with
  | zero => cases h
  | succ rounds ih =>
      rw [iterate] at h
      split at h
      · next hnext =>
          obtain ⟨⟨process, iterator'⟩, k, hprocess, h⟩ := Draw.bind_eq_some.mp h
          obtain ⟨rest, k', hrest, h⟩ := Draw.bind_eq_some.mp h
          cases h
          exact .next hnext hprocess (ih hrest)
      · cases h
        exact .done _ _

/-- In mode `F`, it walks over the list. -/
theorem HandsOut.file {list : ProcessList} (hparams : iterator.paramStore.params = .file list)
    (h : HandsOut source iterator i processes) :
    processes = [] ∨ ∃ nodes, iterator.nextProcessParams = some nodes ∧ processes <+: nodes := by
  induction h with
  | done => exact .inl rfl
  | @next iterator iterator' fuel i j process processes hnext hprocess hrest ih =>
      right
      rw [getNextProcess, hparams] at hprocess
      dsimp only at hprocess
      cases hlist : iterator.nextProcessParams with
      | none =>
          rw [hlist] at hprocess
          cases hprocess
      | some nodes =>
          rw [hlist] at hprocess
          cases nodes with
          | nil => cases hprocess
          | cons node nodes =>
              cases hprocess
              refine ⟨_, rfl, List.cons_prefix_cons.mpr ⟨rfl, ?_⟩⟩
              rcases ih hparams with rfl | ⟨nodes', hnodes', hprefix⟩
              · exact List.nil_prefix
              · cases hnodes'
                exact hprefix

/-- In mode `C`, it draws, and only if there is something to draw. -/
theorem HandsOut.commandline {params : CommandlineParams}
    (hparams : iterator.paramStore.params = .commandline params)
    (hcount : 0 ≤ iterator.iterationCount) (h : HandsOut source iterator i processes) :
    ∀ process ∈ processes, 0 < iterator.paramStore.commonParams.totalProcessCount ∧
      params.Draws source.sample process := by
  induction h with
  | done =>
      intro process hprocess
      cases hprocess
  | @next iterator iterator' fuel i j first processes hnext hfirst hrest ih =>
      rw [getNextProcess, hparams] at hfirst
      obtain ⟨drawn, k, hdrawn, hfirst⟩ := Draw.bind_eq_some.mp hfirst
      cases hfirst
      simp only [hasNextProcess, hparams, decide_eq_true_eq] at hnext
      intro process hprocess
      rcases List.mem_cons.mp hprocess with rfl | hprocess
      · exact ⟨by omega, draws_of_randomProcess hdrawn⟩
      · exact ih hparams (by dsimp only; omega) process hprocess

end HandsOut

/-! ## The processes that can arrive -/

/-- The processes that the arguments and the file let the generator create. -/
inductive CanArrive (files : Files) (uninitialised : ProcessList)
    (sample : Int → Fin (2 ^ 31) → Double) (args : List CString) (paramStore : WorkloadParamStore)
    (process : ProcessParams) : Prop
  /-- In mode `C`, those that the parameters draw, if there is one to draw. -/
  | drawn {params : CommandlineParams} (hparams : paramStore.params = .commandline params)
      (htotal : 0 < paramStore.commonParams.totalProcessCount)
      (hdraws : params.Draws sample process)
  /-- In mode `F`, the records of the file, or the first one only. -/
  | record {list : ProcessList} {inputFileName : CString} {contents : ByteBuffer.Bytes}
      {nodes : List ProcessParams} (hparams : paramStore.params = .file list)
      (hname : args[4]? = some inputFileName) (hfile : files inputFileName = some contents)
      (hnodes : parseProcesses contents [] = .ok nodes)
      (hmem : process ∈ (paramStore.workload nodes).creatable)
  /-- Without a record, the nodes at the uninitialised head of the list. -/
  | uninitialised {list : ProcessList} {inputFileName : CString} {contents : ByteBuffer.Bytes}
      {found : List ProcessParams} (hparams : paramStore.params = .file list)
      (hname : args[4]? = some inputFileName) (hfile : files inputFileName = some contents)
      (hnodes : parseProcesses contents [] = .ok []) (hfound : uninitialised = some found)
      (hmem : process ∈ (paramStore.workload found).creatable)

section Arrivals

variable {files : Files} {uninitialised : ProcessList} {sample : Int → Fin (2 ^ 31) → Double}
  {args : List CString} {paramStore : WorkloadParamStore} {process : ProcessParams}

theorem creatable_workload (processes : List ProcessParams) :
    (paramStore.workload processes).creatable =
      if paramStore.commonParams.maxRunqueueLength = 0 then processes.take 1 else processes := rfl

theorem creatable_subset {processes : List ProcessParams} :
    (paramStore.workload processes).creatable ⊆ processes := by
  rw [creatable_workload]
  split
  · exact List.take_subset _ _
  · exact fun _ h => h

theorem creatable_prefix {processes nodes : List ProcessParams} (h : processes <+: nodes) :
    (paramStore.workload processes).creatable ⊆ (paramStore.workload nodes).creatable := by
  rw [creatable_workload, creatable_workload]
  split
  · exact (h.take 1).subset
  · exact h.subset

/-- The first process is created in any case. -/
theorem mem_creatable_singleton : process ∈ (paramStore.workload [process]).creatable := by
  rw [creatable_workload]
  split <;> exact List.mem_singleton_self process

/-- In mode `F`, the processes that can be created of the list. -/
theorem exists_handsOut_file {source : RandomSource} {list : ProcessList}
    (hparams : paramStore.params = .file list) :
    (∃ processes, HandsOut source (initParamsIterator paramStore) 0 processes ∧
        process ∈ (paramStore.workload processes).creatable) ↔
      ∃ nodes, list = some nodes ∧ process ∈ (paramStore.workload nodes).creatable := by
  have hfirst : (initParamsIterator paramStore).nextProcessParams = list := by
    simp only [initParamsIterator, hparams]
  constructor
  · rintro ⟨processes, hhands, hprocess⟩
    rcases hhands.file hparams with rfl | ⟨nodes, hnodes, hprefix⟩
    · exact absurd (creatable_subset hprocess) List.not_mem_nil
    · exact ⟨nodes, hfirst.symm.trans hnodes, creatable_prefix hprefix hprocess⟩
  · rintro ⟨nodes, hlist, hprocess⟩
    have hiterate : iterate source 0 (nodes.length + 1) (initParamsIterator paramStore) 0
        = .ok (some (nodes, 0)) := exists_iterate_file hparams (hfirst.trans hlist) 0
    exact ⟨nodes, handsOut_of_iterate hiterate, hprocess⟩

/-- In mode `C`, the first process can be any of those that the parameters draw. -/
theorem exists_handsOut_commandline {params : CommandlineParams}
    (hparams : paramStore.params = .commandline params) :
    (∃ rand processes, HandsOut ⟨rand, sample⟩ (initParamsIterator paramStore) 0 processes ∧
        process ∈ (paramStore.workload processes).creatable) ↔
      0 < paramStore.commonParams.totalProcessCount ∧ params.Draws sample process := by
  constructor
  · rintro ⟨rand, processes, hhands, hprocess⟩
    exact hhands.commandline hparams le_rfl process (creatable_subset hprocess)
  · rintro ⟨htotal, hdraws⟩
    obtain ⟨numbers, hdrawn⟩ := possible_randomProcess hdraws
    obtain ⟨rand, hrand⟩ := Draw.exists_returns numbers
    have hmode : (initParamsIterator paramStore).paramStore.params = .commandline params := hparams
    have hnext : hasNextProcess (initParamsIterator paramStore) = true := by
      rw [hasNextProcess, hmode]
      exact decide_eq_true htotal
    obtain ⟨iterator', j, hprocess⟩ : ∃ iterator' j,
        getNextProcess ⟨rand, sample⟩ 1 (initParamsIterator paramStore) 0
          = .ok (some ((process, iterator'), j)) := by
      rw [getNextProcess, hmode]
      exact ⟨_, _, Draw.bind_eq_some.mpr ⟨process, _, hdrawn rand 0 hrand, rfl⟩⟩
    exact ⟨rand, [process], .next hnext hprocess (.done _ _), mem_creatable_singleton⟩

/-- **What can arrive** is what the iterator can hand out. -/
theorem canArrive_iff (h : parseArguments files uninitialised args = .ok paramStore) :
    CanArrive files uninitialised sample args paramStore process ↔
      ∃ rand processes, HandsOut ⟨rand, sample⟩ (initParamsIterator paramStore) 0 processes ∧
        process ∈ (paramStore.workload processes).creatable := by
  rcases parseArguments_cases h with
    ⟨params, hparams⟩ | ⟨inputFileName, contents, nodes, hname, hfile, hnodes, hparams⟩
  · rw [exists_handsOut_commandline hparams]
    constructor
    · intro harrive
      cases harrive with
      | drawn hparams' htotal hdraws =>
          rw [hparams] at hparams'
          cases hparams'
          exact ⟨htotal, hdraws⟩
      | record hparams' => cases hparams.symm.trans hparams'
      | uninitialised hparams' => cases hparams.symm.trans hparams'
    · rintro ⟨htotal, hdraws⟩
      exact .drawn hparams htotal hdraws
  · simp only [exists_handsOut_file hparams, exists_const]
    constructor
    · intro harrive
      cases harrive with
      | drawn hparams' => cases hparams.symm.trans hparams'
      | record _ hname' hfile' hnodes' hmem =>
          cases hname.symm.trans hname'
          cases hfile.symm.trans hfile'
          cases hnodes.symm.trans hnodes'
          by_cases hnil : nodes = []
          · subst hnil
            exact absurd (creatable_subset hmem) List.not_mem_nil
          · exact ⟨nodes, if_neg hnil, hmem⟩
      | uninitialised _ hname' hfile' hnodes' hfound hmem =>
          cases hname.symm.trans hname'
          cases hfile.symm.trans hfile'
          cases hnodes.symm.trans hnodes'
          exact ⟨_, (if_pos rfl).trans hfound, hmem⟩
    · rintro ⟨found, hhead, hmem⟩
      unfold headOf at hhead
      split at hhead
      · next hnil => exact .uninitialised hparams hname hfile (hnil ▸ hnodes) hhead hmem
      · cases hhead
        exact .record hparams hname hfile hnodes hmem

end Arrivals

/-! ## Weights and arguments -/

/-- Whatever the generator has got so far, the calls stay in the table. -/
def WeightsKept (source : RandomSource) (paramStore : WorkloadParamStore) : Prop :=
  ∀ processes, HandsOut source (initParamsIterator paramStore) 0 processes →
    WeightsInTable (paramStore.workload processes)

/-- **Enough in mode `C`**: a range of priorities in the table, with its ends in order. -/
theorem WeightsKept.of_range {paramStore : WorkloadParamStore} {params : CommandlineParams}
    (hparams : paramStore.params = .commandline params) (hmin : -20 ≤ params.minPriority)
    (hle : params.minPriority ≤ params.maxPriority) (hmax : params.maxPriority ≤ 19)
    (source : RandomSource) : WeightsKept source paramStore := by
  intro processes hhands
  rw [weightsInTable_iff]
  right
  intro process hprocess _
  have hdraws := (hhands.commandline hparams le_rfl process (creatable_subset hprocess)).2
  have hrange := hdraws.priority.mem hle
  exact ⟨by omega, by omega⟩

/-- **Priorities index the table of weights**, for every random draw, if and only if the scheduler
is told that there is no process, or all processes with a length that can arrive have priorities
from -20 to 19. -/
theorem priorities_index_table_iff {files : Files} {uninitialised : ProcessList}
    {args : List CString} {paramStore : WorkloadParamStore}
    (h : parseArguments files uninitialised args = .ok paramStore)
    (sample : Int → Fin (2 ^ 31) → Double) :
    (∀ rand, WeightsKept ⟨rand, sample⟩ paramStore) ↔
      paramStore.commonParams.totalProcessCount = 0 ∨
        ∀ process, CanArrive files uninitialised sample args paramStore process →
          0 < process.length → -20 ≤ process.priority ∧ process.priority ≤ 19 := by
  constructor
  · intro hkept
    by_cases htotal : paramStore.commonParams.totalProcessCount = 0
    · exact .inl htotal
    · right
      intro process harrive hlength
      obtain ⟨rand, processes, hhands, hprocess⟩ := (canArrive_iff h).mp harrive
      have hvalid := (weightsInTable_iff.mp (hkept rand processes hhands)).resolve_left htotal
      exact hvalid process hprocess hlength
  · intro hcondition rand processes hhands
    rw [weightsInTable_iff]
    rcases hcondition with htotal | hvalid
    · exact .inl htotal
    · right
      intro process hprocess hlength
      exact hvalid process ((canArrive_iff h).mpr ⟨rand, processes, hhands, hprocess⟩) hlength

/-- Of two records of priority zero, nothing else can arrive. -/
theorem canArrive_twoRecords {sample : Int → Fin (2 ^ 31) → Double} {process : ProcessParams}
    (h : CanArrive (fun _ => some twoRecords) none sample (recordArgs 50) (recordStore 2) process) :
    process = ⟨1, 0, 0⟩ := by
  obtain ⟨rand, hhands⟩ := (canArrive_iff (parse_recordArgs 50 (by decide))).mp h
  obtain ⟨nodes, hnodes, hprocess⟩ := (exists_handsOut_file rfl).mp hhands
  cases hnodes
  have hmem := creatable_subset hprocess
  simpa using hmem

theorem priorities_index_table_twoRecords : WeightsKept zeros (recordStore 2) := by
  have h := parse_recordArgs 50 (show Scanf.atoi (CString.ofBytes [50]) = .ok 2 by decide)
  refine (priorities_index_table_iff h zeros.sample).mpr (.inr ?_) zeros.rand
  intro process harrive _
  rw [canArrive_twoRecords harrive]
  decide

/-- A file with the record `PL 10 20`. -/
def lightRecord : ByteBuffer.Bytes := [80, 76, 32, 49, 48, 32, 50, 48, 10]

/-- What is parsed of it. -/
def lightStore : WorkloadParamStore where
  commonParams := ⟨10, 1, 1, none⟩
  params := .file (some [⟨10, 20, 0⟩])

theorem parse_lightRecord : parseArguments (fun _ => some lightRecord) none (recordArgs 49)
    = .ok lightStore := by
  have hten : Scanf.atoi (CString.ofBytes [49, 48]) = .ok 10 := by decide
  have hone : Scanf.atoi (CString.ofBytes [49]) = .ok 1 := by decide
  have hcommon : parseCommonArguments ([[49, 48], [49], [49], [105]].map CString.ofBytes)
      = .ok (lightStore.commonParams, [CString.ofBytes [105]]) :=
    parseCommonArguments_eq_ok.mpr ⟨_, _, _, rfl, hten, hone, hone, rfl⟩
  have hfirst : scanProcess lightRecord = .ok (some ⟨10, 20, 0⟩, []) := by decide
  have hend : scanProcess [] = .ok (none, []) := by decide
  have hnodes : parseProcesses lightRecord [] = .ok [⟨10, 20, 0⟩] := by
    rw [parseProcesses_some hfirst, parseProcesses_none hend]
    rfl
  exact parseArguments_file (by decide)
    (parseFileArguments_eq_ok.mpr ⟨_, lightRecord, _, hcommon, rfl, hnodes, rfl⟩)

/-- Its priority is 20, which is behind the last entry. -/
theorem priorities_not_in_table :
    parseArguments (fun _ => some lightRecord) none (recordArgs 49) = .ok lightStore ∧
      ∀ source, ¬ WeightsKept source lightStore := by
  refine ⟨parse_lightRecord, ?_⟩
  intro source hkept
  have hmem : (⟨10, 20, 0⟩ : ProcessParams) ∈ (lightStore.workload [⟨10, 20, 0⟩]).creatable :=
    mem_creatable_singleton
  obtain ⟨processes, hhands, hprocess⟩ := (exists_handsOut_file rfl).mpr ⟨_, rfl, hmem⟩
  have htotal : lightStore.commonParams.totalProcessCount ≠ 0 := by decide
  have hvalid := (weightsInTable_iff.mp (hkept processes hhands)).resolve_left htotal
  exact absurd (hvalid _ hprocess (by decide)) (by decide)

end Cs342.Cfs
