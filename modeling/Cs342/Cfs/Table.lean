import Mathlib
import Cs342.Library.PrintedText
import Cs342.Cfs.Slots
import Cs342.Cfs.WorkloadFile
import Cs342.Cfs.Lines
import Cs342.Cfs.Lifetime

/-!
# From a workload file to the table (`print_table`)

The table has a row for every slot, with the statistics in columns of a fixed width. When main comes
to print it and no process is late, the rows are those of the workload file, in its order: pid,
priority and length are the written ones. The numbers of the table can be told apart exactly if all
of them but the last of each row are narrower than their columns (`workload_table`).
-/

namespace Cs342.Cfs

open ByteBuffer (Bytes)
open PrintedText (ascii newline row column Narrow)
open Scanf (Words decimalText)
open Threads (Label)

/-! ## The functions -/

/-- `"%-6s%-7s%-7s%-6s%-7s%-7s%-7s%-4s\n"`. -/
def heading : Bytes :=
  row [(6, ascii "pid"), (7, ascii "arv"), (7, ascii "dept"), (6, ascii "prio"), (7, ascii "cpu"),
    (7, ascii "waitr"), (7, ascii "turna"), (4, ascii "cs")]

/-- The numbers of a row with the widths of their columns. -/
def columns (current : ProcessStatistics) : List (Nat × Int) :=
  [(6, current.pid), (7, current.arrivalTime), (7, current.departureTime), (6, current.priority),
    (7, current.cpuTime), (7, current.waitingTime), (7, current.turnaroundTime),
    (4, current.contextSwitchCount)]

/-- Their texts, `"%-<width>d"`. -/
def columnTexts (current : ProcessStatistics) : List (Nat × Bytes) :=
  (columns current).map fun c => (c.1, decimalText c.2)

/-- The statistics that the loop of `print_table` reads from `i` on, given the slots from there on.
A slot that has not been written holds no defined values. -/
def readSlots (totalProcessCount : Int) : Int → List (Option ProcessStatistics) →
    Outcome (List ProcessStatistics)
  | i, [] => if i ≠ totalProcessCount then .undefined else .ok []
  | i, slot :: slots =>
    if i ≠ totalProcessCount then do
      let current ← Outcome.ofOption slot
      let rest ← readSlots totalProcessCount (i + 1) slots
      return current :: rest
    else .ok []

/-- What `print_table` prints; the text of the average, a double, is given. -/
def printTable (average : List Int → Bytes) (totalProcessCount : Int)
    (statsArray : List (Option ProcessStatistics)) : Outcome Bytes := do
  let stats ← readSlots totalProcessCount 0 statsArray
  return heading ++ (stats.map columnTexts).flatMap row ++
    (ascii "avg waiting time: " ++ average (stats.map ProcessStatistics.waitingTime) ++ [newline])

example : (printTable (fun _ => ascii "0.000000") 1 [some ⟨1, 0, 20, -5, 20, 0, 20, 2⟩]).toOption
    = some (heading ++ ascii "1     0      20     -5    20     0      20     2   \n" ++
      ascii "avg waiting time: 0.000000\n") := by decide

/-! ## The rows -/

theorem readSlots_eq {totalProcessCount : Int} (stats : List ProcessStatistics) {i : Int}
    (h : i + stats.length = totalProcessCount) :
    readSlots totalProcessCount i (stats.map some) = .ok stats := by
  induction stats generalizing i with
  | nil =>
      rw [List.length_nil, Nat.cast_zero, add_zero] at h
      rw [List.map_nil, readSlots, if_neg (not_not_intro h)]
  | cons current stats ih =>
      rw [List.length_cons] at h
      have hne : i ≠ totalProcessCount := by omega
      rw [List.map_cons, readSlots, if_pos hne, Outcome.ofOption_some, Outcome.ok_bind,
        ih (by omega)]
      rfl

/-- The eight numbers of a row. -/
def numbers (current : ProcessStatistics) : List Bytes :=
  [decimalText current.pid, decimalText current.arrivalTime, decimalText current.departureTime,
    decimalText current.priority, decimalText current.cpuTime, decimalText current.waitingTime,
    decimalText current.turnaroundTime, decimalText current.contextSwitchCount]

/-- Each of them but the last leaves room for a blank. -/
structure Roomy (current : ProcessStatistics) : Prop where
  pid : (decimalText current.pid).length < 6
  arrivalTime : (decimalText current.arrivalTime).length < 7
  departureTime : (decimalText current.departureTime).length < 7
  priority : (decimalText current.priority).length < 6
  cpuTime : (decimalText current.cpuTime).length < 7
  waitingTime : (decimalText current.waitingTime).length < 7
  turnaroundTime : (decimalText current.turnaroundTime).length < 7

/-- A row as it is to be read: the numbers, filled up with blanks. -/
def tableLine (current : ProcessStatistics) : Bytes :=
  column 6 (decimalText current.pid) ++ column 7 (decimalText current.arrivalTime) ++
    column 7 (decimalText current.departureTime) ++ column 6 (decimalText current.priority) ++
    column 7 (decimalText current.cpuTime) ++ column 7 (decimalText current.waitingTime) ++
    column 7 (decimalText current.turnaroundTime) ++
    column 4 (decimalText current.contextSwitchCount) ++ [newline]

theorem row_columnTexts (current : ProcessStatistics) :
    row (columnTexts current) = tableLine current := by
  simp [row, columnTexts, columns, tableLine]

theorem snd_columnTexts (current : ProcessStatistics) :
    (columnTexts current).map Prod.snd = numbers current := rfl

theorem narrow_columnTexts (current : ProcessStatistics) :
    Narrow (columnTexts current) ↔ Roomy current := by
  have hdrop : (columnTexts current).dropLast = [(6, decimalText current.pid),
      (7, decimalText current.arrivalTime), (7, decimalText current.departureTime),
      (6, decimalText current.priority), (7, decimalText current.cpuTime),
      (7, decimalText current.waitingTime), (7, decimalText current.turnaroundTime)] := rfl
  rw [Narrow, hdrop]
  constructor
  · intro h
    simp only [List.forall_mem_cons] at h
    obtain ⟨hpid, harrival, hdeparture, hpriority, hcpu, hwaiting, hturnaround, -⟩ := h
    exact ⟨hpid, harrival, hdeparture, hpriority, hcpu, hwaiting, hturnaround⟩
  · intro h
    simp only [List.forall_mem_cons]
    exact ⟨h.pid, h.arrivalTime, h.departureTime, h.priority, h.cpuTime, h.waitingTime,
      h.turnaroundTime, fun c hc => absurd hc List.not_mem_nil⟩

/-- **The rows** consist of their numbers exactly if there is room. -/
theorem words_table (stats : List ProcessStatistics) :
    Words (stats.flatMap numbers) (stats.flatMap tableLine) ↔
      ∀ current ∈ stats, Roomy current := by
  have hwords : ∀ cs ∈ stats.map columnTexts, ∀ c ∈ cs, Scanf.IsWord c.2 := by
    intro cs hcs c hc
    obtain ⟨current, -, rfl⟩ := List.mem_map.mp hcs
    obtain ⟨column, -, rfl⟩ := List.mem_map.mp hc
    exact Scanf.isWord_decimalText _
  have hnil : Words [] [] := .nil fun b hb => absurd hb List.not_mem_nil
  have hrows := (PrintedText.words_rows hwords).trans (and_iff_left hnil)
  simpa only [List.append_nil, List.flatMap_map, List.forall_mem_map, snd_columnTexts,
    row_columnTexts, narrow_columnTexts] using hrows

theorem heading_eq :
    heading = ascii "pid   arv    dept   prio  cpu    waitr  turna  cs  \n" := by
  decide

/-! ## The table of a run -/

/-- The row of a process. -/
structure RowOf (k : Nat) (params : ProcessParams) (current : ProcessStatistics) : Prop where
  pid : current.pid = k + 1
  priority : current.priority = params.priority
  cpuTime : current.cpuTime = max 0 params.length
  turnaroundTime : current.turnaroundTime = current.departureTime - current.arrivalTime
  waitingTime : current.waitingTime = current.turnaroundTime - current.cpuTime

section Runs

variable {workload : Workload} {s : State} {ls : List (Label Thread)} {k : Nat}

/-- What a process has sent is its row. -/
theorem rowOf_of_sent {current : ProcessStatistics} (hsent : Sent workload ls k current) :
    ∃ params, workload.processes[k]? = some params ∧ RowOf k params current := by
  obtain ⟨before, l, after, u, v, -, hu, -, -, departureTime, hpc, rfl⟩ := hsent
  have hu : (cfs workload).Reachable u := ⟨before, hu⟩
  have hcreated : k < u.shared.created := by
    by_contra hge
    rw [(PlaceInv.reachable hu).fresh k (not_lt.mp hge)] at hpc
    cases hpc
  obtain ⟨params, hparams, hidentity⟩ := (CreationInv.reachable hu).pcb k hcreated
  obtain ⟨hpid, hpriority, hlength⟩ : _ ∧ _ ∧ _ := by simpa [Pcb.identity] using hidentity
  refine ⟨params, hparams, hpid, hpriority, ?_, rfl, rfl⟩
  have hcharged := (AccountInv.reachable hu).charged k
  have hmax := cpuTime_le hu k
  rw [hpc] at hcharged
  obtain ⟨hnonneg, hge⟩ := hcharged
  rw [hlength] at hge hmax
  exact le_antisymm hmax (max_le hnonneg hge)

/-- **The slots that main finds**, if no process is late. -/
theorem slots_of_printTable (htotal : workload.totalProcessCount = workload.processes.length)
    (hs : (cfs workload).Reachable s) (hprint : s.pc .main = .printTable)
    (htail : ∀ k, ¬ InTail s k) :
    ∃ stats : List ProcessStatistics, s.shared.statsArray = stats.map some ∧
      stats.length = workload.processes.length ∧
      ∀ k params current, workload.processes[k]? = some params → stats[k]? = some current →
        RowOf k params current := by
  have hjoin := JoinInv.reachable hs
  have hexited : s.pc .scheduler = .exited := hjoin.exited (hjoin.joined (by rw [hprint]; simp))
  have hnotified := notified_of_shutDown htotal hs (by rw [hexited]; trivial)
  have hlength : s.shared.statsArray.length = workload.processes.length := by
    rw [hjoin.slots, htotal, Int.toNat_natCast]
  have hslot : ∀ k < workload.processes.length, ∃ current params,
      s.shared.statsArray[k]? = some (some current) ∧ workload.processes[k]? = some params ∧
        RowOf k params current := by
    intro k hk
    have hdone : s.pc (.process k) = .exited := by
      by_contra h
      exact htail k ⟨hnotified k hk, h⟩
    obtain ⟨ls, hrun⟩ := hs
    obtain ⟨current, hsent, -, hslot⟩ := slot_of_exited hrun hdone
    obtain ⟨params, hparams, hrow⟩ := rowOf_of_sent hsent
    exact ⟨current, params, hslot, hparams, hrow⟩
  have hwritten : s.shared.statsArray ∈ Set.range (List.map (some (α := ProcessStatistics))) := by
    rw [Set.range_list_map]
    intro slot hmem
    obtain ⟨k, hk, rfl⟩ := List.getElem_of_mem hmem
    obtain ⟨current, -, hcurrent, -⟩ := hslot k (hlength ▸ hk)
    rw [List.getElem?_eq_getElem hk, Option.some_inj] at hcurrent
    exact ⟨current, hcurrent.symm⟩
  obtain ⟨stats, hstats⟩ := hwritten
  rw [← hstats] at hlength hslot ⊢
  rw [List.length_map] at hlength
  refine ⟨stats, rfl, hlength, fun k params current hparams hcurrent => ?_⟩
  obtain ⟨found, params', hfound, hparams', hrow⟩ :=
    hslot k (List.getElem?_eq_some_iff.mp hparams).1
  rw [List.getElem?_map, hcurrent] at hfound
  cases hfound
  cases hparams.symm.trans hparams'
  exact hrow

end Runs

/-- The arguments and the workload file: the records, in mode `F`, and as many slots. -/
structure WorkloadFileArguments (files : Files) (mode : CString) (args : List CString)
    (records : List WorkloadRecord) : Prop where
  ne_nil : records ≠ []
  mode : mode.stored.head? = some 70
  file : ∃ commonParams inputFileName rest contents,
    parseCommonArguments args = .ok (commonParams, inputFileName :: rest) ∧
    files inputFileName = some contents ∧ Words (WorkloadRecord.fileWords records) contents ∧
    commonParams.totalProcessCount = records.length

/-- The arguments are parsed, and the iterator yields the processes of the file. -/
theorem WorkloadFileArguments.parse {files : Files} {mode : CString} {args : List CString}
    {records : List WorkloadRecord} (h : WorkloadFileArguments files mode args records)
    (uninitialised : ProcessList) :
    ∃ paramStore, parseArguments files uninitialised (mode :: args) = .ok paramStore ∧
      paramStore.commonParams.totalProcessCount = records.length ∧
      ∀ source processes, Yields source paramStore processes →
        processes = records.map WorkloadRecord.process := by
  obtain ⟨commonParams, inputFileName, rest, contents, hcommon, hfile, hcontents, hcount⟩ := h.file
  have hnodes := WorkloadRecord.parseProcesses_eq hcontents []
  have hparse : parseFileArguments files uninitialised args = .ok
      ({ commonParams
         params := .file (headOf uninitialised (records.map WorkloadRecord.process)) }, rest) :=
    parseFileArguments_eq_ok.mpr ⟨inputFileName, contents, _, hcommon, hfile, hnodes, rfl⟩
  refine ⟨_, parseArguments_file h.mode hparse, hcount, fun source processes hyields => ?_⟩
  rw [yields_file_iff rfl, headOf, if_neg (by simpa using h.ne_nil), Option.some.injEq] at hyields
  exact hyields.symm

/-- **From the workload file to the table.** Whatever the threads do, when main comes to print the
table and no process is late, the table is defined and has one row for each record of the file, in
its order, with the written priority and the written length as CPU time, or zero for one below. Its
numbers can be told apart if and only if there is room behind all but the last of each row. -/
theorem workload_table (files : Files) (uninitialised : ProcessList) (mode : CString)
    (args : List CString) (records : List WorkloadRecord)
    (hargs : WorkloadFileArguments files mode args records) (average : List Int → Bytes) :
    ∃ paramStore, parseArguments files uninitialised (mode :: args) = .ok paramStore ∧
      ∀ source processes, Yields source paramStore processes →
      ∀ s, (cfs (paramStore.workload processes)).Reachable s → s.pc .main = .printTable →
        (∀ k, ¬ InTail s k) → ∃ stats : List ProcessStatistics,
          printTable average paramStore.commonParams.totalProcessCount s.shared.statsArray
            = .ok (ascii "pid   arv    dept   prio  cpu    waitr  turna  cs  \n" ++
                stats.flatMap tableLine ++ ascii "avg waiting time: " ++
                average (stats.map ProcessStatistics.waitingTime) ++ [newline]) ∧
          stats.length = records.length ∧
          (∀ k record current, records[k]? = some record → stats[k]? = some current →
            RowOf k record.process current) ∧
          (Words (stats.flatMap numbers) (stats.flatMap tableLine) ↔
            ∀ current ∈ stats, Roomy current) := by
  obtain ⟨paramStore, hparse, hcount, hyield⟩ := hargs.parse uninitialised
  refine ⟨paramStore, hparse, fun source processes hyields s hs hprint htail => ?_⟩
  obtain rfl := hyield source processes hyields
  have htotal : paramStore.commonParams.totalProcessCount
      = (records.map WorkloadRecord.process).length := by
    rw [hcount, List.length_map]
  obtain ⟨stats, hslots, hlength, hrows⟩ := slots_of_printTable htotal hs hprint htail
  have hlength : stats.length = records.length := hlength.trans (List.length_map _)
  refine ⟨stats, ?_, hlength, fun k record current hrecord hcurrent => ?_, words_table stats⟩
  · rw [printTable, hslots, readSlots_eq stats (by rw [hcount, hlength]; omega), Outcome.ok_bind,
      heading_eq, List.flatMap_map]
    simp only [row_columnTexts, Outcome.pure_eq, List.append_assoc]
  · refine hrows k _ current ?_ hcurrent
    show (records.map WorkloadRecord.process)[k]? = _
    rw [List.getElem?_map, hrecord]
    rfl

/-- The only process has ended before main prints. -/
def tableRun : List (Label Thread) :=
  endedRun ++ turns .scheduler 4 ++ turns .generator 6 ++ turns .main 2

theorem tableRun_prints : ∃ s, (cfs oneProcess).Reachable s ∧ s.pc .main = .printTable ∧
    ∀ k, ¬ InTail s k := by
  have hrun : ((cfs oneProcess).run tableRun (cfs oneProcess).init).map
      (fun s => (s.pc .main, s.pc (.process 0), s.shared.created))
      = some (.printTable, .exited, 1) := by decide +kernel
  obtain ⟨s, hs, heq⟩ := Option.map_eq_some_iff.mp hrun
  obtain ⟨hprint, hexited, hcreated⟩ : _ ∧ _ ∧ _ := by simpa using heq
  have hs : (cfs oneProcess).Reachable s := ⟨tableRun, hs⟩
  refine ⟨s, hs, hprint, ?_⟩
  rintro k ⟨hnotified, hrunning⟩
  cases k with
  | zero => exact hrunning hexited
  | succ k =>
      unfold Notified at hnotified
      rw [(PlaceInv.reachable hs).fresh (k + 1) (by omega)] at hnotified
      exact hnotified

theorem ten_inRange : (-2 ^ 31 : Int) ≤ 10 ∧ (10 : Int) < 2 ^ 31 := by decide

theorem zero_inRange : (-2 ^ 31 : Int) ≤ 0 ∧ (0 : Int) < 2 ^ 31 := by decide

/-- The file `PL 10 0 IAT 0`. -/
def oneRecord : List WorkloadRecord :=
  [⟨⟨10, ten_inRange⟩, ⟨0, zero_inRange⟩, some ⟨0, zero_inRange⟩⟩]

def oneRecordFiles : Files := fun _ => some (spaced (WorkloadRecord.fileWords oneRecord))

/-- The arguments `10 1 1 i` behind the mode. -/
def oneRecordArgs : List CString :=
  [CString.ofBytes [49, 48], CString.ofBytes [49], CString.ofBytes [49], CString.ofBytes [105]]

theorem parse_oneRecord : parseCommonArguments oneRecordArgs
    = .ok (⟨10, 1, 1, none⟩, [CString.ofBytes [105]]) :=
  parseCommonArguments_eq_ok.mpr ⟨_, _, _, rfl, by decide, by decide, by decide, rfl⟩

theorem workload_table_oneRecord : ∃ (s : State) (stats : List ProcessStatistics),
    (cfs oneProcess).Reachable s ∧ stats.length = 1 ∧
      printTable (fun _ => ascii "0.000000") 1 s.shared.statsArray
        = .ok (ascii "pid   arv    dept   prio  cpu    waitr  turna  cs  \n" ++
            stats.flatMap tableLine ++ ascii "avg waiting time: 0.000000\n") := by
  have hwords := WorkloadRecord.words_contents oneRecord
  obtain ⟨paramStore, hparse, h⟩ := workload_table oneRecordFiles none (CString.ofBytes [70])
    oneRecordArgs oneRecord ⟨by decide, by decide, _, _, [], _, parse_oneRecord, rfl, hwords, rfl⟩
    fun _ => ascii "0.000000"
  have hfile : parseFileArguments oneRecordFiles none oneRecordArgs = .ok
      ({ commonParams := ⟨10, 1, 1, none⟩
         params := .file (some (oneRecord.map WorkloadRecord.process)) }, []) :=
    parseFileArguments_eq_ok.mpr ⟨_, _, _, parse_oneRecord, rfl,
      WorkloadRecord.parseProcesses_eq hwords [], rfl⟩
  cases hparse.symm.trans (parseArguments_file (by decide) hfile)
  obtain ⟨s, hs, hprint, htail⟩ := tableRun_prints
  obtain ⟨stats, htable, hlength, -⟩ := h zeros _ ((yields_file_iff rfl).mpr rfl) s hs hprint htail
  refine ⟨s, stats, hs, hlength, htable.trans ?_⟩
  simp only [List.append_assoc]
  rfl

end Cs342.Cfs
