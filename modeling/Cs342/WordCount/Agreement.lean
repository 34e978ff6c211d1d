import Mathlib
import Cs342.WordCount.PwordProgress

/-!
# `pword` against `tword`

Both programs write the sorted merged tally of the files; `pword` has added the resent pairs to
its counts. So they agree exactly when `pword` cannot finish, when there is no file to compare, or
when the resent counts cancel. Counts that add up to less than `2 ^ 32` cancel only where nothing is
resent, that is where every table fits into one message.
-/

namespace Cs342.WordCount

open ByteBuffer

/-- Whenever both programs finish, they have done the same. -/
def AgreesWithTword (fs : FileSystem) (cliArgs : CommandLineArgs) (attr : MqAttr) (buf : Bytes) :
    Prop :=
  ∀ schedule s result schedule' s' result',
    (pword fs cliArgs attr buf).run schedule (pword fs cliArgs attr buf).init = some s →
    s.main = .exited result →
    (tword fs cliArgs).run schedule' (tword fs cliArgs).init = some s' →
    s'.main = .exited result' →
    result = result'

section

variable {fs : FileSystem} {cliArgs : CommandLineArgs} {attr : MqAttr} {buf : Bytes}
  {files : List Bytes}

/-- Two finished runs have done the same exactly when there is no output file or the resent counts
cancel. -/
theorem result_eq_iff (setup : PwordSetup fs cliArgs attr buf files)
    {schedule : List PwordLabel} {s : PwordState} {result : Outcome Bytes}
    (hrun : (pword fs cliArgs attr buf).run schedule (pword fs cliArgs attr buf).init = some s)
    (hresult : s.main = .exited result) {schedule' : List TwordLabel} {s' : TwordState}
    {result' : Outcome Bytes}
    (hrun' : (tword fs cliArgs).run schedule' (tword fs cliArgs).init = some s')
    (hresult' : s'.main = .exited result') :
    result = result' ↔ fs.writable cliArgs.outFileName = false ∨
      ∀ w, Tally.total (resentEntries cliArgs files) w = 0 := by
  have hinv := System.run_induction (P := PwordInv cliArgs attr buf files fs)
    (fun s l s' => pword_step_inv setup l) pword_start_inv hrun
  obtain ⟨-, a, t, rfl, hrep, hnodup, hkeys, htotal⟩ := pword_finished setup hinv hresult
  obtain ⟨a', hrep', rfl⟩ := tword_finished setup.readable hrun' hresult'
  by_cases hout : fs.writable cliArgs.outFileName = true
  · rw [writeOutputFile_eq_iff (hrep.entries_eq ▸ hnodup)
      (hrep'.entries_eq ▸ mergedTally_nodup files) (fun w => ?_) hout, hrep.entries_eq,
      hrep'.entries_eq]
    · simp only [htotal, add_eq_left, hout, Bool.true_eq_false, false_or]
    · rw [hrep.entries_eq, hrep'.entries_eq, hkeys, mem_keys_mergedTally]
  · simp [writeOutputFile, hout]

/-- The exact condition, with the counts as the ints they are. -/
theorem agrees_iff (setup : PwordSetup fs cliArgs attr buf files) :
    AgreesWithTword fs cliArgs attr buf ↔
      fs.writable cliArgs.outFileName = false ∨
      (∃ stream ∈ files, ¬ NeighboursFit (cliArgs.msgSize - intSize) (filePairs stream)) ∨
      ∀ w, Tally.total (resentEntries cliArgs files) w = 0 := by
  constructor
  · intro hagrees
    by_cases hneigh : ∃ stream ∈ files,
        ¬ NeighboursFit (cliArgs.msgSize - intSize) (filePairs stream)
    · exact Or.inr (Or.inl hneigh)
    · push Not at hneigh
      obtain ⟨schedule, s, result, hrun, hresult⟩ := exists_pword_finished setup hneigh
      obtain ⟨schedule', s', result', hrun', hresult'⟩ := exists_tword_finished setup.readable
      have := (result_eq_iff setup hrun hresult hrun' hresult').mp
        (hagrees _ _ _ _ _ _ hrun hresult hrun' hresult')
      exact this.imp_right Or.inr
  · intro hcond schedule s result schedule' s' result' hrun hresult hrun' hresult'
    rw [result_eq_iff setup hrun hresult hrun' hresult']
    refine hcond.imp_right fun h => h.resolve_left ?_
    rintro ⟨stream, hstream, hneigh⟩
    have hinv := System.run_induction (P := PwordInv cliArgs attr buf files fs)
      (fun s l s' => pword_step_inv setup l) pword_start_inv hrun
    exact hneigh ((pword_finished setup hinv hresult).1 stream hstream)

/-! ## Counts below `2 ^ 32` -/

theorem resentEntries_cons (cliArgs : CommandLineArgs) (stream : Bytes) (files : List Bytes) :
    resentEntries cliArgs (stream :: files)
      = entries (resent (cliArgs.msgSize - intSize) (filePairs stream)) ++
        resentEntries cliArgs files := List.flatMap_cons

/-- The resent count of a word is at most the number of its occurrences, and it is not zero if one
of the files resends the word. -/
theorem total_resentEntries_eq (cliArgs : CommandLineArgs) (w : CString) (files : List Bytes) :
    ∃ n ≤ (files.flatMap tableWords).count w,
      Tally.total (resentEntries cliArgs files) w = BitVec.ofNat 32 n ∧
      (n = 0 → ∀ stream ∈ files, ∀ p ∈ resent (cliArgs.msgSize - intSize) (filePairs stream),
        p.word ≠ w) := by
  induction files with
  | nil => exact ⟨0, Nat.zero_le _, rfl, by simp⟩
  | cons stream files ih =>
      obtain ⟨n, hn, htotal, hzero⟩ := ih
      have hsub := (resent_sublist (cliArgs.msgSize - intSize) (filePairs stream)).trans
        (List.tail_sublist _)
      have hnodup : (Tally.keys (entries (resent (cliArgs.msgSize - intSize)
          (filePairs stream)))).Nodup := by
        have := fileTally_nodup stream
        rw [← entries_filePairs, keys_entries] at this
        rw [keys_entries]
        exact this.sublist (hsub.map _)
      rw [resentEntries_cons, Tally.total_append, htotal, List.flatMap_cons, List.count_append]
      by_cases hw : ∃ p ∈ resent (cliArgs.msgSize - intSize) (filePairs stream), p.word = w
      · -- the file resends the word once, with all of its occurrences
        obtain ⟨p, hp, rfl⟩ := hw
        have hentry : p.entry ∈ entries (filePairs stream) := List.mem_map_of_mem (hsub.subset hp)
        have hcount : p.count = BitVec.ofNat 32 ((tableWords stream).count p.word) := by
          have := Tally.total_eq_of_mem (entries_filePairs stream ▸ fileTally_nodup stream) hentry
          rw [entries_filePairs, total_fileTally] at this
          exact this.symm.trans (total_ones _ _)
        have hocc : 0 < (tableWords stream).count p.word := by
          rw [List.count_pos_iff, ← mem_words_filePairs]
          exact List.mem_map_of_mem (hsub.subset hp)
        refine ⟨(tableWords stream).count p.word + n, by omega, ?_, fun h => by omega⟩
        have hfirst : Tally.total (entries (resent (cliArgs.msgSize - intSize)
            (filePairs stream))) p.word = p.count :=
          Tally.total_eq_of_mem hnodup (List.mem_map_of_mem hp)
        rw [hfirst, hcount, BitVec.ofNat_add]
      · push Not at hw
        refine ⟨n, by omega, ?_, fun h => List.forall_mem_cons.mpr ⟨hw, hzero h⟩⟩
        rw [Tally.total_eq_zero, zero_add]
        rw [keys_entries, List.mem_map]
        rintro ⟨p, hp, hpw⟩
        exact hw p hp hpw

/-- With fewer than `2 ^ 32` words the resent counts cancel only if every table fits into one
message. -/
theorem resent_cancels_iff (setup : PwordSetup fs cliArgs attr buf files)
    (hcount : (files.flatMap tableWords).length < 2 ^ 32)
    (hneigh : ∀ stream ∈ files, NeighboursFit (cliArgs.msgSize - intSize) (filePairs stream)) :
    (∀ w, Tally.total (resentEntries cliArgs files) w = 0) ↔
      ∀ stream ∈ files, payload (filePairs stream) ≤ cliArgs.msgSize - intSize := by
  constructor
  · intro hcancel stream hstream
    rw [← resent_eq_nil_iff (filePairs_eachFits setup.size_valid stream) (hneigh stream hstream)]
    by_contra hne
    obtain ⟨p, hp⟩ := List.exists_mem_of_ne_nil _ hne
    obtain ⟨n, hn, htotal, hzero⟩ := total_resentEntries_eq cliArgs p.word files
    have hle := List.count_le_length (a := p.word) (l := files.flatMap tableWords)
    rw [hcancel, eq_comm] at htotal
    -- a count below `2 ^ 32` is zero only where nothing was counted
    have hn0 : n = 0 := by
      have := congrArg BitVec.toNat htotal
      rw [BitVec.toNat_ofNat, Nat.mod_eq_of_lt (by omega)] at this
      exact this
    exact hzero hn0 stream hstream p hp rfl
  · intro hall w
    have hnil : resentEntries cliArgs files = [] := by
      rw [resentEntries, List.flatMap_eq_nil_iff]
      intro stream hstream
      rw [resent_of_fit (fit_eq_length_iff.mpr (hall stream hstream))]
      rfl
    rw [hnil]
    rfl

/-- **When `pword` and `tword` agree**: exactly if the output file cannot be opened, some table has
neighbouring pairs that do not fit into one message, so that `pword` does not finish, or the counts
of the resent pairs cancel; with fewer than `2 ^ 32` words the latter is that every table fits into
one message. -/
theorem pword_agrees_iff (setup : PwordSetup fs cliArgs attr buf files) :
    (AgreesWithTword fs cliArgs attr buf ↔
      fs.writable cliArgs.outFileName = false ∨
      (∃ stream ∈ files, ¬ NeighboursFit (cliArgs.msgSize - intSize) (filePairs stream)) ∨
      ∀ w, Tally.total (resentEntries cliArgs files) w = 0) ∧
    ((files.flatMap tableWords).length < 2 ^ 32 →
      (AgreesWithTword fs cliArgs attr buf ↔
        fs.writable cliArgs.outFileName = false ∨
        (∃ stream ∈ files, ¬ NeighboursFit (cliArgs.msgSize - intSize) (filePairs stream)) ∨
        ∀ stream ∈ files, payload (filePairs stream) ≤ cliArgs.msgSize - intSize)) := by
  refine ⟨agrees_iff setup, fun hcount => ?_⟩
  rw [agrees_iff setup]
  by_cases hneigh : ∃ stream ∈ files,
      ¬ NeighboursFit (cliArgs.msgSize - intSize) (filePairs stream)
  · simp only [hneigh, true_or, or_true]
  · have hall := hneigh
    push Not at hall
    simp only [hneigh, false_or, resent_cancels_iff setup hcount hall]

end

/-- A run on one file, with the usual limits of a message queue. -/
theorem oneFile_setup {msgSize : Nat} (contents : Bytes) (hsize : msgSize ∈ validMsgSizes)
    (hle : msgSize ≤ 8192) :
    PwordSetup (sameFile contents) (oneFileArgs msgSize) { maxmsg := 10, msgsize := 8192 }
      (List.replicate 8192 0) [contents] where
  readable := readable_oneFileArgs msgSize contents
  size_valid := hsize
  size_le := hle
  maxmsg_pos := by decide
  buf_length := List.length_replicate

/-- The three words of 40 bytes in a file. -/
def threeLongWords : Bytes :=
  List.replicate 40 65 ++ [32] ++ List.replicate 40 66 ++ [32] ++ List.replicate 40 67

theorem pword_agrees_iff_one_file :
    AgreesWithTword (sameFile threeLongWords) (oneFileArgs 256)
        { maxmsg := 10, msgsize := 8192 } (List.replicate 8192 0) ↔
      (sameFile threeLongWords).writable "out" = false ∨
      (∃ stream ∈ [threeLongWords], ¬ NeighboursFit (256 - intSize) (filePairs stream)) ∨
      ∀ w, Tally.total (resentEntries (oneFileArgs 256) [threeLongWords]) w = 0 :=
  (pword_agrees_iff (oneFile_setup threeLongWords (by decide) (by decide))).1

theorem filePairs_threeLongWords : filePairs threeLongWords = threeLongPairs := by
  have h₁ : scanWord threeLongWords = some (List.replicate 40 65,
      [32] ++ List.replicate 40 66 ++ [32] ++ List.replicate 40 67) := by decide +kernel
  have h₂ : scanWord ([32] ++ List.replicate 40 66 ++ [32] ++ List.replicate 40 67)
      = some (List.replicate 40 66, [32] ++ List.replicate 40 67) := by decide +kernel
  have h₃ : scanWord ([32] ++ List.replicate 40 67) = some (List.replicate 40 67, []) := by
    decide +kernel
  have h₄ : scanWord [] = none := rfl
  rw [filePairs, fileTally, occurrences_some h₁, occurrences_some h₂, occurrences_some h₃,
    occurrences_none h₄]
  decide +kernel

/-- On the three words with messages of 128 bytes `pword` counts the second word twice. -/
theorem pword_disagrees :
    128 ∈ validMsgSizes ∧
      ¬ AgreesWithTword (sameFile threeLongWords) (oneFileArgs 128)
        { maxmsg := 10, msgsize := 8192 } (List.replicate 8192 0) := by
  refine ⟨by decide, fun hagrees => ?_⟩
  have hresent : resent (128 - intSize) threeLongPairs = [repeatedPair 40 66] := by
    have hleft : leftover (128 - intSize) threeLongPairs
        = [repeatedPair 40 66, repeatedPair 40 67] := by decide +kernel
    rw [resent, if_pos (by decide +kernel), hleft, resent_of_fit (by decide +kernel)]
    rfl
  rcases (agrees_iff (oneFile_setup threeLongWords (by decide) (by decide))).mp hagrees with
    h | ⟨stream, hstream, h⟩ | h
  · cases h
  · rw [List.mem_singleton.mp hstream, filePairs_threeLongWords] at h
    exact h (by decide +kernel)
  · have hone := h (repeatedPair 40 66).word
    rw [resentEntries_cons, filePairs_threeLongWords] at hone
    change Tally.total (entries (resent (128 - intSize) threeLongPairs) ++ []) _ = _ at hone
    rw [hresent] at hone
    exact absurd hone (by decide +kernel)

end Cs342.WordCount
