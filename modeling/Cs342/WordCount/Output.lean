import Mathlib
import Cs342.Library.Numerals
import Cs342.Library.Qsort
import Cs342.WordCount.Input

/-!
# Writing the output file (`write_output_file`)

The table is sorted by `strcmp` on the words and printed one `WORD COUNT` line per pair. Since the
words are distinct the sorted order is unique, so the file depends on the table only as a tally
(`writeOutputFile_eq_of_total_eq`), and it can be read back: two files over the same words are
equal exactly when the counts are (`writeOutputFile_eq_iff`).
-/

namespace Cs342.WordCount

open ByteBuffer Qsort

/-- `fprintf(fp, "%s %d\n", word, count)`. -/
def outputLine (word : Bytes) (count : Int) : Bytes :=
  word ++ [32] ++ Scanf.decimalText count ++ [10]

def wordCountPairComparer (a b : WordCountPair) : Int := CString.strcmp a.word b.word

def sortWordCountArray (pairArray : WordCountArray) : WordCountArray :=
  { pairArray with pairs := qsort wordCountPairComparer pairArray.pairs }

/-- The contents of the output file after `write_output_file`. -/
def writeOutputFile (fs : FileSystem) (pairArray : WordCountArray) (outFileName : String) :
    Outcome Bytes :=
  let pairArray := sortWordCountArray pairArray
  if fs.writable outFileName then
    .ok (pairArray.pairs.flatMap fun pair => outputLine pair.word.bytes pair.count.toInt)
  else
    .exit 3 ("Failed to open output file '" ++ outFileName ++ "'\n")

/-! ## The file as a list of lines -/

/-- Strictly increasing `strcmp` order. -/
def Increasing (words : List CString) : Prop := words.Pairwise fun v w => CString.strcmp v w < 0

/-- An increasing list is determined by what it lists. -/
theorem Increasing.ext {vs ws : List CString} (hv : Increasing vs) (hw : Increasing ws)
    (h : ∀ w, w ∈ vs ↔ w ∈ ws) : vs = ws := by
  have hne : ∀ {v w : CString}, CString.strcmp v w < 0 → v ≠ w := by
    rintro v w hlt rfl
    rw [CString.strcmp_eq_zero.mpr rfl] at hlt
    omega
  have hperm : vs.Perm ws :=
    (List.perm_ext_iff_of_nodup (hv.imp hne) (hw.imp hne)).mpr h
  refine hperm.eq_of_pairwise ?_ hv hw
  intro v w _ _ h₁ h₂
  exact CString.strcmp_antisymm h₁.le h₂.le

theorem comparer_trans (a b c : WordCountPair) (h₁ : wordCountPairComparer a b ≤ 0)
    (h₂ : wordCountPairComparer b c ≤ 0) : wordCountPairComparer a c ≤ 0 :=
  CString.strcmp_trans h₁ h₂

theorem comparer_total (a b : WordCountPair) :
    wordCountPairComparer a b ≤ 0 ∨ wordCountPairComparer b a ≤ 0 :=
  CString.strcmp_total a.word b.word

/-- The file of a tally: one line per word, in increasing order. -/
def tallyFile (t : List (CString × BitVec 32)) (words : List CString) : Bytes :=
  words.flatMap fun w => outputLine w.bytes (Tally.total t w).toInt

/-- The words of a tally can be listed in increasing order. -/
theorem exists_increasing {t : List (CString × BitVec 32)} (hn : (Tally.keys t).Nodup) :
    ∃ words, Increasing words ∧ ∀ w, w ∈ words ↔ w ∈ Tally.keys t := by
  have hperm : (qsort CString.strcmp (Tally.keys t)).Perm (Tally.keys t) := qsort_perm _
  refine ⟨qsort CString.strcmp (Tally.keys t), ?_, fun w => hperm.mem_iff⟩
  have hsorted : (qsort CString.strcmp (Tally.keys t)).Pairwise
      fun v w => CString.strcmp v w ≤ 0 := by
    apply qsort_pairwise
    · intro u v w
      exact CString.strcmp_trans
    · exact CString.strcmp_total
  have hne : (qsort CString.strcmp (Tally.keys t)).Pairwise (· ≠ ·) := hperm.nodup_iff.mpr hn
  refine (hsorted.and hne).imp ?_
  rintro v w ⟨hle, hne⟩
  have : CString.strcmp v w ≠ 0 := fun h => hne (CString.strcmp_eq_zero.mp h)
  omega

/-- The words of the sorted table are the increasing list of the table's words. -/
theorem sortWordCountArray_words {pairArray : WordCountArray} {words : List CString}
    (hn : (Tally.keys (entries pairArray.pairs)).Nodup) (hinc : Increasing words)
    (hmem : ∀ w, w ∈ words ↔ w ∈ Tally.keys (entries pairArray.pairs)) :
    (sortWordCountArray pairArray).pairs.map (·.word) = words := by
  have hperm : (sortWordCountArray pairArray).pairs.Perm pairArray.pairs := qsort_perm _
  have hkeys : ((sortWordCountArray pairArray).pairs.map (·.word)).Perm
      (Tally.keys (entries pairArray.pairs)) := by
    rw [keys_entries]
    exact hperm.map _
  have hsorted : (sortWordCountArray pairArray).pairs.Pairwise
      fun a b => wordCountPairComparer a b ≤ 0 :=
    qsort_pairwise comparer_trans comparer_total pairArray.pairs
  have hne : (sortWordCountArray pairArray).pairs.Pairwise fun a b => a.word ≠ b.word :=
    List.pairwise_map.mp (hkeys.nodup_iff.mpr hn)
  refine Increasing.ext (List.pairwise_map.mpr ((hsorted.and hne).imp ?_)) hinc fun w => ?_
  · rintro a b ⟨hle, hne⟩
    have : CString.strcmp a.word b.word ≠ 0 := fun h => hne (CString.strcmp_eq_zero.mp h)
    unfold wordCountPairComparer at hle
    omega
  · rw [hkeys.mem_iff, hmem]

/-- **Whatever sort `qsort` is, the sorted table is this one**, since the words of a table are
distinct. -/
theorem eq_sortWordCountArray {pairArray : WordCountArray} {pairs : List WordCountPair}
    (hn : (Tally.keys (entries pairArray.pairs)).Nodup) (hperm : pairs.Perm pairArray.pairs)
    (hsorted : pairs.Pairwise fun a b => wordCountPairComparer a b ≤ 0) :
    pairs = (sortWordCountArray pairArray).pairs := by
  refine eq_qsort comparer_trans comparer_total ?_ hperm hsorted
  intro a ha b hb h₁ h₂
  rw [keys_entries] at hn
  exact List.inj_on_of_nodup_map hn ha hb (CString.strcmp_antisymm h₁ h₂)

/-- **The shape of the output**: the words of the table in strictly increasing order, each with
its count. -/
theorem writeOutputFile_eq {pairArray : WordCountArray} {t : List (CString × BitVec 32)}
    {words : List CString} (ht : entries pairArray.pairs = t) (hn : (Tally.keys t).Nodup)
    (hinc : Increasing words) (hmem : ∀ w, w ∈ words ↔ w ∈ Tally.keys t) (fs : FileSystem)
    (outFileName : String) :
    writeOutputFile fs pairArray outFileName =
      if fs.writable outFileName then .ok (tallyFile t words)
      else .exit 3 ("Failed to open output file '" ++ outFileName ++ "'\n") := by
  subst ht
  have hfile : (sortWordCountArray pairArray).pairs.flatMap
        (fun pair => outputLine pair.word.bytes pair.count.toInt)
      = tallyFile (entries pairArray.pairs) words := by
    rw [← sortWordCountArray_words hn hinc hmem, tallyFile, List.flatMap_map]
    apply List.flatMap_congr
    intro pair hpair
    have hentry : pair.entry ∈ entries pairArray.pairs :=
      List.mem_map_of_mem ((qsort_perm pairArray.pairs).subset hpair)
    rw [show Tally.total (entries pairArray.pairs) pair.word = pair.count
      from Tally.total_eq_of_mem hn hentry]
  simp only [writeOutputFile, hfile]

/-- **The output depends on the table only as a tally**: tables with the same words and the same
counts, in whatever order, give the same file. -/
theorem writeOutputFile_eq_of_total_eq {a b : WordCountArray}
    (ha : (Tally.keys (entries a.pairs)).Nodup) (hb : (Tally.keys (entries b.pairs)).Nodup)
    (hkeys : ∀ w, w ∈ Tally.keys (entries a.pairs) ↔ w ∈ Tally.keys (entries b.pairs))
    (htotal : ∀ w, Tally.total (entries a.pairs) w = Tally.total (entries b.pairs) w)
    (fs : FileSystem) (outFileName : String) :
    writeOutputFile fs a outFileName = writeOutputFile fs b outFileName := by
  obtain ⟨words, hinc, hmem⟩ := exists_increasing ha
  have hfile : tallyFile (entries a.pairs) words = tallyFile (entries b.pairs) words := by
    unfold tallyFile
    simp only [htotal]
  rw [writeOutputFile_eq rfl ha hinc hmem,
    writeOutputFile_eq rfl hb hinc (fun w => (hmem w).trans (hkeys w)), hfile]

/-! ## Reading the file back -/

/-- A line over a known word gives its count back. -/
theorem outputLine_append_inj {w rest rest' : Bytes} {x y : Int}
    (h : outputLine w x ++ rest = outputLine w y ++ rest') : x = y ∧ rest = rest' := by
  simp only [outputLine, List.append_assoc, List.append_cancel_left_eq] at h
  -- neither count prints a newline, so the lines end at the same place
  have hsplit : ∀ {d e r s : Bytes}, (10 : UInt8) ∉ d → (10 : UInt8) ∉ e →
      d ++ ([10] ++ r) = e ++ ([10] ++ s) → d = e ∧ r = s := by
    intro d
    induction d with
    | nil =>
        intro e r s _ he h
        cases e with
        | nil => exact ⟨rfl, by simpa using h⟩
        | cons b e =>
            have : b = 10 := by simpa using (List.cons.inj h).1.symm
            exact absurd (this ▸ List.mem_cons_self) he
    | cons c d ih =>
        intro e r s hd he h
        cases e with
        | nil =>
            have : c = 10 := by simpa using (List.cons.inj h).1
            exact absurd (this ▸ List.mem_cons_self) hd
        | cons b e =>
            obtain ⟨hcb, htl⟩ := List.cons.inj h
            obtain ⟨hde, hrs⟩ := ih (fun hm => hd (List.mem_cons_of_mem _ hm))
              (fun hm => he (List.mem_cons_of_mem _ hm)) htl
            exact ⟨by rw [hcb, hde], hrs⟩
  obtain ⟨hd, hr⟩ := hsplit (Scanf.not_mem_decimalText x (by decide))
    (Scanf.not_mem_decimalText y (by decide)) h
  exact ⟨Scanf.decimalText_injective hd, hr⟩

/-- Files over the same words are equal exactly when the counts are. -/
theorem tallyFile_inj {s t : List (CString × BitVec 32)} {words : List CString}
    (h : tallyFile s words = tallyFile t words) :
    ∀ w ∈ words, Tally.total s w = Tally.total t w := by
  induction words with
  | nil => intro w hw; cases hw
  | cons v words ih =>
      obtain ⟨hcount, hrest⟩ := outputLine_append_inj h
      intro w hw
      rcases List.mem_cons.mp hw with rfl | hw
      · exact BitVec.toInt_inj.mp hcount
      · exact ih hrest w hw

/-- **The output decides the counts**: for tables over the same words and a file that can be
opened, the outputs are equal exactly when every word has the same count. -/
theorem writeOutputFile_eq_iff {a b : WordCountArray}
    (ha : (Tally.keys (entries a.pairs)).Nodup) (hb : (Tally.keys (entries b.pairs)).Nodup)
    (hkeys : ∀ w, w ∈ Tally.keys (entries a.pairs) ↔ w ∈ Tally.keys (entries b.pairs))
    {fs : FileSystem} {outFileName : String} (hout : fs.writable outFileName = true) :
    writeOutputFile fs a outFileName = writeOutputFile fs b outFileName ↔
      ∀ w, Tally.total (entries a.pairs) w = Tally.total (entries b.pairs) w := by
  constructor
  · intro h
    obtain ⟨words, hinc, hmem⟩ := exists_increasing ha
    rw [writeOutputFile_eq rfl ha hinc hmem,
      writeOutputFile_eq rfl hb hinc (fun w => (hmem w).trans (hkeys w)), if_pos hout,
      if_pos hout, Outcome.ok.injEq] at h
    intro w
    by_cases hw : w ∈ words
    · exact tallyFile_inj h w hw
    · rw [hmem] at hw
      rw [Tally.total_eq_zero hw, Tally.total_eq_zero fun hk => hw ((hkeys w).mpr hk)]
  · intro h
    exact writeOutputFile_eq_of_total_eq ha hb hkeys h fs outFileName

end Cs342.WordCount
