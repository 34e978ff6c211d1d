import Mathlib
import Cs342.Library.Numerals
import Cs342.Cfs.Iterator

/-!
# Writing and reading a workload (`parse_file_arguments`)

A workload file has a record `PL length priority` for every process, and behind it a record
`IAT time` unless the time is left out. A time that is left out is noticed by a scan that fails at
the next `PL` or at the end of the file, and nothing of the next record is lost with it. So the
parser and the iterator give back what was written (`workload_file_round_trip`).
-/

namespace Cs342.Cfs

open ByteBuffer (Bytes)
open Scanf (Words decimalText)

/-- The values of an `int`. -/
abbrev CInt := {n : Int // -2 ^ 31 ≤ n ∧ n < 2 ^ 31}

/-- A process as it is written to a workload file. -/
structure WorkloadRecord where
  length : CInt
  priority : CInt
  interarrivalTime : Option CInt

namespace WorkloadRecord

/-- `IAT time`, if there is one. -/
def interarrivalWords : Option CInt → List Bytes
  | some interarrivalTime => [[73, 65, 84], decimalText interarrivalTime]
  | none => []

/-- `PL length priority`, and the other record. -/
def words (record : WorkloadRecord) : List Bytes :=
  [[80, 76], decimalText record.length, decimalText record.priority] ++
    interarrivalWords record.interarrivalTime

/-- The process that is meant. -/
def process (record : WorkloadRecord) : ProcessParams where
  length := record.length
  priority := record.priority
  interarrivalTime := (record.interarrivalTime.map Subtype.val).getD 0

/-- The words of a workload file, one record after the other. -/
def fileWords (records : List WorkloadRecord) : List Bytes := records.flatMap words

@[simp] theorem fileWords_cons (record : WorkloadRecord) (records : List WorkloadRecord) :
    fileWords (record :: records) = record.words ++ fileWords records := List.flatMap_cons

/-! ## Reading one record -/

section Reading

variable {stream : Bytes} {records : List WorkloadRecord}

/-- Where the time is left out, the file goes on with `PL` or ends. -/
theorem scanInterarrivalTime_none (h : Words (fileWords records) stream) :
    ∃ rest, scanInterarrivalTime stream = .ok (0, rest) ∧ Words (fileWords records) rest := by
  cases records with
  | nil =>
      refine ⟨[], ?_, .nil fun b hb => absurd hb List.not_mem_nil⟩
      rw [scanInterarrivalTime, interarrivalFormat, Scanf.scan_end h]
      rfl
  | cons record records =>
      rw [fileWords_cons, words, List.append_assoc, List.cons_append] at h ⊢
      obtain ⟨rest, hrest, hscan⟩ := Scanf.scan_mismatch h (show (80 : UInt8) ≠ 73 by decide)
      refine ⟨rest, ?_, hrest⟩
      rw [scanInterarrivalTime, interarrivalFormat, hscan]
      rfl

theorem scanInterarrivalTime_some {interarrivalTime : CInt}
    (h : Words ([73, 65, 84] :: decimalText interarrivalTime :: fileWords records) stream) :
    ∃ rest, scanInterarrivalTime stream = .ok (interarrivalTime.val, rest) ∧
      Words (fileWords records) rest := by
  obtain ⟨behind, hbehind, hword⟩ := Scanf.scan_word h
  obtain ⟨rest, hrest, hnumber⟩ := Scanf.scan_number hbehind interarrivalTime.property
  have hscan : Scanf.scan interarrivalFormat stream = .ok ([interarrivalTime.val], rest) :=
    (hword [.space, .int]).trans (hnumber [])
  refine ⟨rest, ?_, hrest⟩
  rw [scanInterarrivalTime, hscan]
  rfl

/-- The time of a record, given or not. -/
theorem scanInterarrivalTime_eq {interarrivalTime : Option CInt}
    (h : Words (interarrivalWords interarrivalTime ++ fileWords records) stream) :
    ∃ rest, scanInterarrivalTime stream
        = .ok ((interarrivalTime.map Subtype.val).getD 0, rest) ∧
      Words (fileWords records) rest := by
  cases interarrivalTime with
  | none => exact scanInterarrivalTime_none h
  | some interarrivalTime => exact scanInterarrivalTime_some h

/-- **One round of the loop** reads the first record and leaves the others. -/
theorem scanProcess_eq {record : WorkloadRecord}
    (h : Words (fileWords (record :: records)) stream) :
    ∃ rest, scanProcess stream = .ok (some record.process, rest) ∧
      Words (fileWords records) rest := by
  rw [fileWords_cons, words, List.append_assoc, List.cons_append] at h
  obtain ⟨behind, hbehind, hword⟩ := Scanf.scan_word h
  obtain ⟨behind', hbehind', hlength⟩ := Scanf.scan_number hbehind record.length.property
  obtain ⟨behind'', hbehind'', hpriority⟩ := Scanf.scan_number hbehind' record.priority.property
  have hscan : Scanf.scan processFormat stream
      = .ok ([record.length.val, record.priority.val], behind'') := by
    calc Scanf.scan processFormat stream
        = Scanf.scan [.space, .int, .space, .int] behind := hword _
      _ = Scanf.scan [.space, .int] behind' >>= fun p => .ok (record.length.val :: p.1, p.2) :=
        hlength _
      _ = _ := by
        rw [hpriority []]
        rfl
  obtain ⟨rest, htime, hrest⟩ := scanInterarrivalTime_eq hbehind''
  refine ⟨rest, ?_, hrest⟩
  rw [scanProcess, hscan, Outcome.ok_bind]
  dsimp only
  rw [htime]
  rfl

theorem scanProcess_end (h : Words (fileWords []) stream) :
    scanProcess stream = .ok (none, []) := by
  rw [scanProcess, processFormat, Scanf.scan_end h]
  rfl

/-- **The loop** reads all records, in order. -/
theorem parseProcesses_eq (h : Words (fileWords records) stream) (nodes : List ProcessParams) :
    parseProcesses stream nodes = .ok (nodes ++ records.map process) := by
  induction records generalizing stream nodes with
  | nil => rw [parseProcesses_none (scanProcess_end h), List.map_nil, List.append_nil]
  | cons record records ih =>
      obtain ⟨rest, hscan, hrest⟩ := scanProcess_eq h
      rw [parseProcesses_some hscan, ih hrest, List.map_cons, List.append_assoc,
        List.singleton_append]

end Reading

end WorkloadRecord

/-! ## The round trip -/

/-- **Workload round trip.** If a file consists of the records of some processes, with any
whitespace between the words, then it is parsed in mode `F`, and the iterator yields exactly these
processes, in order, with the time 0 where none is written. -/
theorem workload_file_round_trip (files : Files) (uninitialised : ProcessList)
    (records : List WorkloadRecord) (hne : records ≠ []) (contents : Bytes)
    (hcontents : Words (WorkloadRecord.fileWords records) contents)
    (mode inputFileName : CString) (args rest : List CString) (commonParams : CommonParams)
    (hmode : mode.stored.head? = some 70)
    (hcommon : parseCommonArguments args = .ok (commonParams, inputFileName :: rest))
    (hfile : files inputFileName = some contents) :
    ∃ paramStore, parseArguments files uninitialised (mode :: args) = .ok paramStore ∧
      ∀ (source : RandomSource) (processes : List ProcessParams),
        Yields source paramStore processes ↔ processes = records.map WorkloadRecord.process := by
  have hnodes : parseProcesses contents [] = .ok (records.map WorkloadRecord.process) :=
    WorkloadRecord.parseProcesses_eq hcontents []
  have hparse : parseFileArguments files uninitialised args = .ok
      ({ commonParams
         params := .file (headOf uninitialised (records.map WorkloadRecord.process)) }, rest) :=
    parseFileArguments_eq_ok.mpr ⟨inputFileName, contents, _, hcommon, hfile, hnodes, rfl⟩
  refine ⟨_, parseArguments_file hmode hparse, fun source processes => ?_⟩
  rw [yields_file_iff rfl, headOf, if_neg (by simpa using hne), Option.some.injEq]
  exact eq_comm

/-- A text with a blank behind every word. -/
def spaced (words : List Bytes) : Bytes := words.flatMap fun word => word ++ [32]

theorem words_spaced {words : List Bytes} (h : ∀ word ∈ words, Scanf.IsWord word)
    (space : Bytes) (hspace : ∀ b ∈ space, Scanf.isspace b) :
    Words words (space ++ spaced words) := by
  induction words generalizing space with
  | nil =>
      rw [spaced, List.flatMap_nil, List.append_nil]
      exact .nil hspace
  | cons word words ih =>
      have hblank : ∀ b ∈ ([32] : Bytes), Scanf.isspace b :=
        List.forall_mem_singleton.mpr (by decide)
      have hrest := ih (fun w hw => h w (List.mem_cons_of_mem _ hw)) [32] hblank
      rw [spaced, List.flatMap_cons, List.append_assoc]
      exact .cons hspace (h word List.mem_cons_self) (fun b hb => by cases hb; rfl) hrest

theorem WorkloadRecord.isWord_fileWords {records : List WorkloadRecord} :
    ∀ word ∈ fileWords records, Scanf.IsWord word := by
  have hpl : Scanf.IsWord [80, 76] := ⟨by simp, by simp [Scanf.isspace], by decide⟩
  have hiat : Scanf.IsWord [73, 65, 84] := ⟨by simp, by simp [Scanf.isspace], by decide⟩
  intro word hword
  obtain ⟨record, -, hmem⟩ := List.mem_flatMap.mp hword
  rcases List.mem_append.mp hmem with hmem | hmem
  · simp only [List.mem_cons, List.not_mem_nil, or_false] at hmem
    rcases hmem with rfl | rfl | rfl
    · exact hpl
    · exact Scanf.isWord_decimalText _
    · exact Scanf.isWord_decimalText _
  · cases htime : record.interarrivalTime with
    | none =>
        rw [htime] at hmem
        exact absurd hmem List.not_mem_nil
    | some time =>
        rw [htime] at hmem
        simp only [interarrivalWords, List.mem_cons, List.not_mem_nil, or_false] at hmem
        rcases hmem with rfl | rfl
        · exact hiat
        · exact Scanf.isWord_decimalText _

/-- Every list of processes can be written to a file. -/
theorem WorkloadRecord.words_contents (records : List WorkloadRecord) :
    Words (fileWords records) (spaced (fileWords records)) :=
  words_spaced isWord_fileWords [] fun _ hb => absurd hb List.not_mem_nil

/-- A process with a time, one without, and one with a time again. -/
def threeRecords : List WorkloadRecord :=
  [⟨⟨1000, by decide⟩, ⟨2, by decide⟩, some ⟨30, by decide⟩⟩,
    ⟨⟨7, by decide⟩, ⟨-10, by decide⟩, none⟩,
    ⟨⟨-1, by decide⟩, ⟨0, by decide⟩, some ⟨0, by decide⟩⟩]

/-- The arguments `F 10 3 1 i`. -/
theorem workload_file_round_trip_three :
    ∃ paramStore, parseArguments (fun _ => some (spaced (WorkloadRecord.fileWords threeRecords)))
        none (CString.ofBytes [70] ::
          [CString.ofBytes [49, 48], CString.ofBytes [51], CString.ofBytes [49],
            CString.ofBytes [105]]) = .ok paramStore ∧
      ∀ (source : RandomSource) (processes : List ProcessParams),
        Yields source paramStore processes ↔
          processes = threeRecords.map WorkloadRecord.process :=
  workload_file_round_trip _ none threeRecords (by decide) _
    (WorkloadRecord.words_contents threeRecords) (CString.ofBytes [70]) (CString.ofBytes [105]) _ []
    ⟨10, 3, 1, none⟩ (by decide)
    (parseCommonArguments_eq_ok.mpr
      ⟨CString.ofBytes [49, 48], CString.ofBytes [51], CString.ofBytes [49], rfl, by decide,
        by decide, by decide, rfl⟩) rfl

end Cs342.Cfs
