import Mathlib
import Cs342.Library.System
import Cs342.WordCount.Arguments
import Cs342.WordCount.Output

/-!
# `tword`: one thread per file (`proj01/src/tword.c`)

`main` creates a worker for every input file, joins them in order, adds their tables up in file
order and writes the output file. A worker works on its own table only and publishes it once, in
its own slot of `sub_arrays`, so a worker is one step of the system; when that step happens,
between its creation and its join, is up to the schedule.
-/

namespace Cs342.WordCount

open ByteBuffer

/-- Where `main` is: in one of its three loops, at the value of the loop's `i`, or done. -/
inductive TwordMain where
  | creating (i : Nat)
  | joining (i : Nat)
  | adding (i : Nat)
  | exited (result : Outcome Bytes)

structure TwordState where
  main : TwordMain
  created : Nat → Bool
  finished : Nat → Bool
  subArrays : Nat → Option WordCountArray
  pairArray : WordCountArray

inductive TwordLabel where
  | main
  | worker (i : Nat)

namespace TwordState

variable (fs : FileSystem) (cliArgs : CommandLineArgs)

def start : TwordState where
  main := .creating 0
  created := fun _ => false
  finished := fun _ => false
  subArrays := fun _ => none
  pairArray := initWordCountArray

/-- The whole process ends, with what `main` returned or a thread called `exit` with. -/
def exit (s : TwordState) (result : Outcome Bytes) : TwordState :=
  { s with main := .exited result }

/-- One step of `main` together with `await_worker_threads`. -/
def stepMain (s : TwordState) : Option TwordState :=
  match s.main with
  | .creating i =>
    if i ≠ cliArgs.inFileCount then
      some { s with created := Function.update s.created i true, main := .creating (i + 1) }
    else
      some { s with main := .joining 0 }
  | .joining i =>
    if i ≠ cliArgs.inFileCount then
      if s.finished i then some { s with main := .joining (i + 1) } else none
    else
      some { s with main := .adding 0 }
  | .adding i =>
    if i ≠ cliArgs.inFileCount then
      match s.subArrays i with
      | none => some (s.exit .undefined)
      | some subArray =>
        match addArrayToArray s.pairArray subArray with
        | .ok pairArray => some { s with pairArray := pairArray, main := .adding (i + 1) }
        | .exit code message => some (s.exit (.exit code message))
        | .undefined => some (s.exit .undefined)
    else
      some (s.exit (writeOutputFile fs s.pairArray cliArgs.outFileName))
  | .exited _ => none

/-- `run_child_actions` of worker `i`: parse the file, publish the table, finish. -/
def stepWorker (i : Nat) (s : TwordState) : Option TwordState :=
  match s.main with
  | .exited _ => none
  | _ =>
    if s.created i && !s.finished i then
      match cliArgs.inFileNames[i]? with
      | none => some (s.exit .undefined)
      | some name =>
        match parseInFile fs name with
        | .ok subArray =>
          some { s with
            subArrays := Function.update s.subArrays i (some subArray)
            finished := Function.update s.finished i true }
        | .exit code message => some (s.exit (.exit code message))
        | .undefined => some (s.exit .undefined)
    else
      none

end TwordState

/-- The program on a file system and a command line. -/
def tword (fs : FileSystem) (cliArgs : CommandLineArgs) : System TwordState TwordLabel where
  init := TwordState.start
  step
    | .main => TwordState.stepMain fs cliArgs
    | .worker i => TwordState.stepWorker fs cliArgs i

/-! ## The merged tally -/

/-- Every input file can be opened and has the listed contents. -/
def Readable (fs : FileSystem) (cliArgs : CommandLineArgs) (files : List Bytes) : Prop :=
  cliArgs.inFileNames.map fs.read = files.map some

/-- The tables of the files added up in file order. -/
def mergedTally (files : List Bytes) : List (CString × BitVec 32) :=
  files.foldl (fun t stream => Tally.bumpAll t (fileTally stream)) []

theorem mergedTally_snoc (files : List Bytes) (stream : Bytes) :
    mergedTally (files ++ [stream]) = Tally.bumpAll (mergedTally files) (fileTally stream) := by
  simp [mergedTally, List.foldl_append]

theorem mergedTally_nodup (files : List Bytes) : (Tally.keys (mergedTally files)).Nodup := by
  induction files using List.reverseRecOn with
  | nil => exact List.nodup_nil
  | append_singleton files stream ih =>
      rw [mergedTally_snoc]
      exact Tally.nodup_keys_bumpAll ih

/-- Counting file by file counts all the files' words. -/
theorem total_mergedTally (files : List Bytes) (w : CString) :
    Tally.total (mergedTally files) w = Tally.total (files.flatMap occurrences) w := by
  induction files using List.reverseRecOn with
  | nil => rfl
  | append_singleton files stream ih =>
      rw [mergedTally_snoc, Tally.total_bumpAll, ih, total_fileTally, List.flatMap_append,
        Tally.total_append, List.flatMap_singleton]

theorem total_flatMap_fileTally (files : List Bytes) (w : CString) :
    Tally.total (files.flatMap fileTally) w = Tally.total (mergedTally files) w := by
  rw [total_mergedTally, List.flatMap_def, List.flatMap_def, Tally.total_flatten,
    Tally.total_flatten, List.map_map, List.map_map]
  congr 1
  exact List.map_congr_left fun stream _ => total_fileTally stream w

theorem mem_keys_mergedTally {files : List Bytes} {w : CString} :
    w ∈ Tally.keys (mergedTally files) ↔ w ∈ files.flatMap tableWords := by
  induction files using List.reverseRecOn with
  | nil => simp [mergedTally]
  | append_singleton files stream ih =>
      rw [mergedTally_snoc, Tally.mem_keys_bumpAll, ih, mem_keys_fileTally, List.flatMap_append,
        List.mem_append, List.flatMap_singleton]

theorem Readable.length_eq {fs : FileSystem} {cliArgs : CommandLineArgs} {files : List Bytes}
    (h : Readable fs cliArgs files) : cliArgs.inFileCount = files.length := by
  have := congrArg List.length h
  simpa [CommandLineArgs.inFileCount] using this

/-- The table of a readable file is the tally of its words. -/
theorem Readable.parse {fs : FileSystem} {cliArgs : CommandLineArgs} {files : List Bytes}
    (h : Readable fs cliArgs files) {i : Nat} (hi : i < cliArgs.inFileCount) :
    ∃ name stream a, cliArgs.inFileNames[i]? = some name ∧ files[i]? = some stream ∧
      parseInFile fs name = .ok a ∧ entries a.pairs = fileTally stream := by
  have hlt : i < files.length := h.length_eq ▸ hi
  obtain ⟨name, hname⟩ : ∃ name, cliArgs.inFileNames[i]? = some name :=
    ⟨_, List.getElem?_eq_getElem hi⟩
  have hread : fs.read name = some files[i] := by
    have := congrArg (·[i]?) h
    simpa [hname, hlt] using this
  obtain ⟨a, ha, hent, _⟩ := parseInFile_ok hread
  exact ⟨name, files[i], a, hname, List.getElem?_eq_getElem hlt, ha, hent⟩

/-! ## What holds on every schedule -/

/-- How far `main` is: every loop has done its work for the indices below its own. -/
def TwordPhase (fs : FileSystem) (cliArgs : CommandLineArgs) (files : List Bytes)
    (s : TwordState) : Prop :=
  match s.main with
  | .creating i =>
    i ≤ cliArgs.inFileCount ∧ (∀ j, s.created j = true ↔ j < i) ∧ Represents s.pairArray []
  | .joining i =>
    i ≤ cliArgs.inFileCount ∧ (∀ j, s.created j = true ↔ j < cliArgs.inFileCount) ∧
      Represents s.pairArray [] ∧ ∀ j < i, s.finished j = true
  | .adding i =>
    i ≤ cliArgs.inFileCount ∧ (∀ j, s.created j = true ↔ j < cliArgs.inFileCount) ∧
      Represents s.pairArray (mergedTally (files.take i)) ∧
      ∀ j < cliArgs.inFileCount, s.finished j = true
  | .exited result =>
    ∃ a, Represents a (mergedTally files) ∧
      result = writeOutputFile fs a cliArgs.outFileName

/-- The invariant of `tword`: a finished worker has published the table of its file. -/
structure TwordInv (fs : FileSystem) (cliArgs : CommandLineArgs) (files : List Bytes)
    (s : TwordState) : Prop where
  phase : TwordPhase fs cliArgs files s
  slots : ∀ j, s.finished j = true → ∃ a stream,
    s.subArrays j = some a ∧ files[j]? = some stream ∧ entries a.pairs = fileTally stream

/-- The workers that still have to finish. -/
def TwordState.unfinished (n : Nat) (s : TwordState) : Nat :=
  ((Finset.range n).filter fun j => s.finished j = false).card

/-- What is left of `main` at each point of its three loops over `n` files. -/
def TwordMain.rank (n : Nat) : TwordMain → Nat
  | .creating i => (n - i) + 2 * n + 3
  | .joining i => (n - i) + n + 2
  | .adding i => (n - i) + 1
  | .exited _ => 0

/-- The steps that are left at most. -/
def TwordState.remaining (n : Nat) (s : TwordState) : Nat := s.main.rank n + s.unfinished n

theorem tword_start_inv (fs : FileSystem) (cliArgs : CommandLineArgs) (files : List Bytes) :
    TwordInv fs cliArgs files (tword fs cliArgs).init where
  phase := ⟨Nat.zero_le _, by simp [TwordState.start, tword], initWordCountArray_represents⟩
  slots := by simp [TwordState.start, tword]

/-- A worker that finishes is one less to wait for. -/
theorem card_unfinished_update_lt {f : Nat → Bool} {n i : Nat} (hi : i < n) (hf : f i = false) :
    ((Finset.range n).filter fun j => Function.update f i true j = false).card
      < ((Finset.range n).filter fun j => f j = false).card := by
  apply Finset.card_lt_card
  rw [Finset.ssubset_iff_of_subset]
  · exact ⟨i, by simp [hi, hf], by simp⟩
  · intro j hj
    rw [Finset.mem_filter] at hj ⊢
    refine ⟨hj.1, ?_⟩
    by_cases hji : j = i
    · rw [hji]; exact hf
    · rw [← hj.2, Function.update_of_ne hji]

section Schedules

variable {fs : FileSystem} {cliArgs : CommandLineArgs} {files : List Bytes} {s s' : TwordState}

/-- A step of `main` keeps the invariant and gets `main` ahead. -/
theorem stepMain_inv (hinv : TwordInv fs cliArgs files s) (hread : Readable fs cliArgs files)
    (h : s.stepMain fs cliArgs = some s') :
    TwordInv fs cliArgs files s' ∧
      s'.remaining cliArgs.inFileCount < s.remaining cliArgs.inFileCount := by
  have hphase := hinv.phase
  unfold TwordPhase at hphase
  unfold TwordState.stepMain at h
  cases hmain : s.main with
  | creating i =>
      rw [hmain] at h hphase
      obtain ⟨hle, hcreated, hrep⟩ := hphase
      dsimp only at h
      split at h
      · next hne =>
          cases h
          refine ⟨⟨⟨by omega, fun j => ?_, hrep⟩, hinv.slots⟩, ?_⟩
          · show Function.update s.created i true j = true ↔ j < i + 1
            by_cases hj : j = i
            · subst hj; simp
            · rw [Function.update_of_ne hj, hcreated]; omega
          · simp only [TwordState.remaining, TwordState.unfinished, TwordMain.rank, hmain]
            omega
      · next hne =>
          have hi : i = cliArgs.inFileCount := not_not.mp hne
          cases h
          refine ⟨⟨⟨Nat.zero_le _, fun j => by rw [hcreated, hi], hrep, by simp⟩, hinv.slots⟩, ?_⟩
          simp only [TwordState.remaining, TwordState.unfinished, TwordMain.rank, hmain]
          omega
  | joining i =>
      rw [hmain] at h hphase
      obtain ⟨hle, hcreated, hrep, hjoined⟩ := hphase
      dsimp only at h
      split at h
      · next hne =>
          -- `pthread_join` returns when the worker has finished
          split at h
          · next hfin =>
              cases h
              refine ⟨⟨⟨by omega, hcreated, hrep, fun j hj => ?_⟩, hinv.slots⟩, ?_⟩
              · rcases Nat.lt_succ_iff_lt_or_eq.mp hj with hj | rfl
                · exact hjoined j hj
                · exact hfin
              · simp only [TwordState.remaining, TwordState.unfinished, TwordMain.rank, hmain]
                omega
          · cases h
      · next hne =>
          have hi : i = cliArgs.inFileCount := not_not.mp hne
          cases h
          refine ⟨⟨⟨Nat.zero_le _, hcreated, hrep, fun j hj => hjoined j (hi ▸ hj)⟩,
            hinv.slots⟩, ?_⟩
          simp only [TwordState.remaining, TwordState.unfinished, TwordMain.rank, hmain]
          omega
  | adding i =>
      rw [hmain] at h hphase
      obtain ⟨hle, hcreated, hrep, hjoined⟩ := hphase
      dsimp only at h
      split at h
      · next hne =>
          -- the worker has been joined, so its slot holds the table of its file
          obtain ⟨a, stream, hslot, hfile, hent⟩ := hinv.slots i (hjoined i (by omega))
          obtain ⟨total, htotal, hrep'⟩ := addArrayToArray_represents hrep a
          rw [hslot] at h
          dsimp only at h
          rw [htotal] at h
          cases h
          refine ⟨⟨⟨by omega, hcreated, ?_, hjoined⟩, hinv.slots⟩, ?_⟩
          · rw [List.take_add_one, hfile, Option.toList_some, mergedTally_snoc, ← hent]
            exact hrep'
          · simp only [TwordState.remaining, TwordState.unfinished, TwordMain.rank, hmain]
            omega
      · next hne =>
          have hi : i = files.length := (not_not.mp hne).trans hread.length_eq
          cases h
          refine ⟨⟨⟨s.pairArray, ?_, rfl⟩, hinv.slots⟩, ?_⟩
          · rwa [hi, List.take_length] at hrep
          · show 0 + s.unfinished _ < s.main.rank _ + s.unfinished _
            rw [hmain, TwordMain.rank]
            omega
  | exited result =>
      rw [hmain] at h
      cases h

/-- Only a created worker finishes, so its index is that of a file. -/
theorem TwordInv.lt_of_created (hinv : TwordInv fs cliArgs files s)
    (hmain : ∀ result, s.main ≠ .exited result) {j : Nat} (h : s.created j = true) :
    j < cliArgs.inFileCount := by
  have hphase := hinv.phase
  unfold TwordPhase at hphase
  cases hm : s.main with
  | creating i =>
      rw [hm] at hphase
      have := (hphase.2.1 j).mp h
      omega
  | joining i => rw [hm] at hphase; exact (hphase.2.1 j).mp h
  | adding i => rw [hm] at hphase; exact (hphase.2.1 j).mp h
  | exited result => exact absurd hm (hmain result)

/-- A finishing worker keeps the phase of `main`: it only raises its own flag and fills its own
slot. -/
theorem TwordPhase.finish {i : Nat} {a : WordCountArray} (h : TwordPhase fs cliArgs files s) :
    TwordPhase fs cliArgs files { s with
      subArrays := Function.update s.subArrays i (some a)
      finished := Function.update s.finished i true } := by
  have hmono : ∀ j, s.finished j = true → Function.update s.finished i true j = true := by
    intro j hj
    by_cases hji : j = i
    · subst hji; simp
    · rwa [Function.update_of_ne hji]
  unfold TwordPhase at h ⊢
  cases hm : s.main with
  | creating k => rw [hm] at h; exact h
  | joining k =>
      rw [hm] at h
      exact ⟨h.1, h.2.1, h.2.2.1, fun j hj => hmono j (h.2.2.2 j hj)⟩
  | adding k =>
      rw [hm] at h
      exact ⟨h.1, h.2.1, h.2.2.1, fun j hj => hmono j (h.2.2.2 j hj)⟩
  | exited result => rw [hm] at h; exact h

/-- A step of a worker keeps the invariant and leaves one worker less to wait for. -/
theorem stepWorker_inv (hinv : TwordInv fs cliArgs files s) (hread : Readable fs cliArgs files)
    {i : Nat} (h : s.stepWorker fs cliArgs i = some s') :
    TwordInv fs cliArgs files s' ∧
      s'.remaining cliArgs.inFileCount < s.remaining cliArgs.inFileCount := by
  have hmain : ∀ result, s.main ≠ .exited result := by
    intro result hm
    simp [TwordState.stepWorker, hm] at h
  have hguard : (s.created i && !s.finished i) = true := by
    by_contra hg
    unfold TwordState.stepWorker at h
    split at h
    · cases h
    · rw [if_neg hg] at h; cases h
  have hg := hguard
  rw [Bool.and_eq_true, Bool.not_eq_true'] at hg
  have hi := hinv.lt_of_created hmain hg.1
  obtain ⟨name, stream, a, hname, hfile, hparse, hent⟩ := hread.parse hi
  have hs' : s' = { s with
      subArrays := Function.update s.subArrays i (some a)
      finished := Function.update s.finished i true } := by
    unfold TwordState.stepWorker at h
    split at h
    · cases h
    · rw [if_pos hguard, hname] at h
      simp only [hparse, Option.some.injEq] at h
      exact h.symm
  subst hs'
  refine ⟨⟨hinv.phase.finish, fun j hj => ?_⟩, ?_⟩
  · by_cases hji : j = i
    · subst hji
      exact ⟨a, stream, by simp, hfile, hent⟩
    · dsimp only at hj ⊢
      rw [Function.update_of_ne hji] at hj ⊢
      exact hinv.slots j hj
  · have := card_unfinished_update_lt hi hg.2
    simp only [TwordState.remaining, TwordState.unfinished]
    omega

/-- A step on any schedule. -/
theorem tword_step_inv (hread : Readable fs cliArgs files) (s : TwordState) (l : TwordLabel)
    (s' : TwordState) (hinv : TwordInv fs cliArgs files s)
    (h : (tword fs cliArgs).step l s = some s') :
    TwordInv fs cliArgs files s' ∧
      s'.remaining cliArgs.inFileCount < s.remaining cliArgs.inFileCount := by
  cases l with
  | main => exact stepMain_inv hinv hread h
  | worker i => exact stepWorker_inv hinv hread h

/-- As long as `main` has not exited, it or the worker it waits for can take a step. -/
theorem exited_of_stuck (hinv : TwordInv fs cliArgs files s) (hread : Readable fs cliArgs files)
    (hstuck : (tword fs cliArgs).Stuck s) : ∃ result, s.main = .exited result := by
  have hphase := hinv.phase
  have hsm : s.stepMain fs cliArgs = none := hstuck .main
  unfold TwordPhase at hphase
  unfold TwordState.stepMain at hsm
  cases hmain : s.main with
  | creating i => rw [hmain] at hsm; dsimp only at hsm; split at hsm <;> cases hsm
  | joining i =>
      rw [hmain] at hsm hphase
      dsimp only at hsm
      split at hsm
      · next hne =>
          split at hsm
          · cases hsm
          · next hfin =>
              -- worker `i` is created and has not finished, so it can do its step
              have hi : i < cliArgs.inFileCount := by have := hphase.1; omega
              obtain ⟨name, stream, a, hname, _, hparse, _⟩ := hread.parse hi
              have hsw : s.stepWorker fs cliArgs i = none := hstuck (.worker i)
              have hcr : s.created i = true := (hphase.2.1 i).mpr hi
              simp [TwordState.stepWorker, hmain, hcr, hfin, hname, hparse] at hsw
      · cases hsm
  | adding i =>
      rw [hmain] at hsm hphase
      dsimp only at hsm
      split at hsm
      · next hne =>
          obtain ⟨a, stream, hslot, _, _⟩ :=
            hinv.slots i (hphase.2.2.2 i (by have := hphase.1; omega))
          obtain ⟨total, htotal, _⟩ := addArrayToArray_represents hphase.2.2.1 a
          rw [hslot] at hsm
          dsimp only at hsm
          rw [htotal] at hsm
          cases hsm
      · cases hsm
  | exited result => exact ⟨result, rfl⟩

end Schedules

/-- When `main` has exited it has written the output of the merged tally. -/
theorem tword_finished {fs : FileSystem} {cliArgs : CommandLineArgs} {files : List Bytes}
    (hread : Readable fs cliArgs files) {schedule : List TwordLabel} {s : TwordState}
    (hrun : (tword fs cliArgs).run schedule (tword fs cliArgs).init = some s)
    {result : Outcome Bytes} (hresult : s.main = .exited result) :
    ∃ a, Represents a (mergedTally files) ∧
      result = writeOutputFile fs a cliArgs.outFileName := by
  have hinv := System.run_induction (P := TwordInv fs cliArgs files)
    (fun s l s' hs h => (tword_step_inv hread s l s' hs h).1) (tword_start_inv fs cliArgs files) hrun
  have hphase := hinv.phase
  unfold TwordPhase at hphase
  rw [hresult] at hphase
  exact hphase

/-- Some schedule of `tword` ends. -/
theorem exists_tword_finished {fs : FileSystem} {cliArgs : CommandLineArgs} {files : List Bytes}
    (hread : Readable fs cliArgs files) :
    ∃ schedule s result, (tword fs cliArgs).run schedule (tword fs cliArgs).init = some s ∧
      s.main = .exited result := by
  obtain ⟨schedule, s, hrun, result, hresult⟩ := System.exists_run
    (S := tword fs cliArgs) (P := TwordInv fs cliArgs files)
    (m := TwordState.remaining cliArgs.inFileCount)
    (fun s l s' hs h => (tword_step_inv hread s l s' hs h).1)
    (fun s l s' hs h => (tword_step_inv hread s l s' hs h).2) (by
      intro s hinv hend
      by_contra hmove
      push Not at hmove
      refine hend (exited_of_stuck hinv hread fun l => ?_)
      exact Option.eq_none_iff_forall_ne_some.mpr (hmove l))
    (tword_start_inv fs cliArgs files)
  exact ⟨schedule, s, result, hrun, hresult⟩

/-- A command line with one input file. -/
def oneFileArgs (msgSize : Nat) : CommandLineArgs where
  msgSize := msgSize
  outFileName := "out"
  inFileNames := ["in"]
  count_le := by decide

theorem readable_oneFileArgs (msgSize : Nat) (contents : Bytes) :
    Readable (sameFile contents) (oneFileArgs msgSize) [contents] := rfl

end Cs342.WordCount
