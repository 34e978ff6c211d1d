import Mathlib
import Cs342.Library.Scanf
import Cs342.WordCount.Table

/-!
# Reading a file (`parse_in_file`)

`parse_in_file` scans words with `fscanf(fp, " %63s", word)`, folds their case and counts them,
then shrinks the table. The words a file consists of are also given without any scanning
(`fileWords`): the maximal runs of non-whitespace bytes, cut into pieces of at most 63 bytes, in
upper case. `scannedWords_eq` identifies the two, and `parseInFile_ok` says that the resulting
table is the tally of these words.
-/

namespace Cs342.WordCount

open ByteBuffer
open Scanf (isspace dropWhile_head)

/-! ## The scanner -/

/-- `toupper` in the C locale. -/
def toupper (b : UInt8) : UInt8 := if 97 ≤ b ∧ b ≤ 122 then b - 32 else b

/-- The field width of the `%63s` that fills `char word[64]`. -/
def wordWidth : Nat := 63

/-- `fscanf(fp, " %63s", word)` on the rest of the stream: the characters stored, and what is
left unread. `none` is the return value `EOF`. -/
def scanWord (stream : Bytes) : Option (Bytes × Bytes) := Scanf.scanField wordWidth stream

theorem toupper_eq_zero {b : UInt8} : toupper b = 0 ↔ b = 0 := by
  unfold toupper
  split
  · next h =>
      have h₁ : (97 : UInt8).toNat ≤ b.toNat := UInt8.le_iff_toNat_le.mp h.1
      have h₂ : b.toNat ≤ (122 : UInt8).toNat := UInt8.le_iff_toNat_le.mp h.2
      constructor
      · intro h0
        have := congrArg UInt8.toNat h0
        rw [UInt8.toNat_sub_of_le _ _ (UInt8.le_iff_toNat_le.mpr (by simp at h₁ ⊢; omega))] at this
        simp at this h₁
        omega
      · rintro rfl
        simp at h₁
  · rfl

/-- `str_toupper`: every character up to the terminator. -/
def strToupper (str : CString) : CString where
  bytes := str.bytes.map toupper
  nul_free := by
    intro h
    obtain ⟨b, hb, h0⟩ := List.mem_map.mp h
    exact str.nul_free (toupper_eq_zero.mp h0 ▸ hb)

/-- Every scanned word shortens the stream. -/
theorem scanWord_lt {stream word rest : Bytes} (h : scanWord stream = some (word, rest)) :
    rest.length < stream.length :=
  Scanf.scanField_length (by decide) h

/-! ## `parse_in_file` -/

/-- What the programs see of the file system. -/
structure FileSystem where
  read : String → Option Bytes
  writable : String → Bool

/-- A file system with these contents behind every name. -/
def sameFile (contents : Bytes) : FileSystem where
  read := fun _ => some contents
  writable := fun _ => true

/-- The loop `while (fscanf(fp, " %63s", word) == 1)`. -/
def countWords (stream : Bytes) (pairArray : WordCountArray) : Outcome WordCountArray :=
  match _h : scanWord stream with
  | none => .ok pairArray
  | some (word, rest) => do
    let pairArray ← incrementWord pairArray (strToupper (CString.ofBytes word)) 1
    countWords rest pairArray
termination_by stream.length
decreasing_by exact scanWord_lt _h

def parseInFile (fs : FileSystem) (inFileName : String) : Outcome WordCountArray :=
  match fs.read inFileName with
  | none => .exit 2 ("Failed to open input file '" ++ inFileName ++ "'\n")
  | some stream => do
    let pairArray ← countWords stream initWordCountArray
    return shrinkArrayToFit pairArray

/-! ## The words of a file -/

/-- All the words the scanner stores, in order. -/
def scannedWords (stream : Bytes) : List Bytes :=
  match _h : scanWord stream with
  | none => []
  | some (word, rest) => word :: scannedWords rest
termination_by stream.length
decreasing_by exact scanWord_lt _h

/-- The maximal runs of non-whitespace bytes. -/
def maximalRuns (contents : Bytes) : List Bytes :=
  (contents.splitOnP isspace).filter (· ≠ [])

/-- A run cut into consecutive pieces of at most `n` bytes. -/
def pieces (n : Nat) (run : Bytes) : List Bytes :=
  if run = [] ∨ n = 0 then [] else run.take n :: pieces n (run.drop n)
termination_by run.length
decreasing_by
  next h =>
    rw [not_or] at h
    have := List.length_pos_iff.mpr h.1
    rw [List.length_drop]
    omega

/-- The words of a file. -/
def fileWords (contents : Bytes) : List Bytes :=
  ((maximalRuns contents).flatMap (pieces wordWidth)).map (List.map toupper)

theorem scannedWords_none {stream : Bytes} (h : scanWord stream = none) :
    scannedWords stream = [] := by
  rw [scannedWords]
  split
  · rfl
  · next h' => rw [h] at h'; cases h'

theorem scannedWords_some {stream word rest : Bytes} (h : scanWord stream = some (word, rest)) :
    scannedWords stream = word :: scannedWords rest := by
  rw [scannedWords]
  split
  · next h' => rw [h] at h'; cases h'
  · next h' => rw [h] at h'; cases h'; rfl

theorem countWords_none {stream : Bytes} (h : scanWord stream = none) (a : WordCountArray) :
    countWords stream a = .ok a := by
  rw [countWords]
  split
  · rfl
  · next h' => rw [h] at h'; cases h'

theorem countWords_some {stream word rest : Bytes} (h : scanWord stream = some (word, rest))
    (a : WordCountArray) :
    countWords stream a
      = incrementWord a (strToupper (CString.ofBytes word)) 1 >>= countWords rest := by
  rw [countWords]
  split
  · next h' => rw [h] at h'; cases h'
  · next h' => rw [h] at h'; cases h'; rfl

/-! ### The scanner finds the words -/

/-- The words as they are looked up in the table. -/
def tableWords (stream : Bytes) : List CString :=
  (scannedWords stream).map fun word => strToupper (CString.ofBytes word)

/-- One occurrence of every word. -/
def occurrences (stream : Bytes) : List (CString × BitVec 32) :=
  (tableWords stream).map fun word => (word, 1)

theorem occurrences_none {stream : Bytes} (h : scanWord stream = none) :
    occurrences stream = [] := by
  rw [occurrences, tableWords, scannedWords_none h]
  rfl

theorem occurrences_some {stream word rest : Bytes} (h : scanWord stream = some (word, rest)) :
    occurrences stream = (strToupper (CString.ofBytes word), 1) :: occurrences rest := by
  rw [occurrences, tableWords, scannedWords_some h]
  rfl

/-- The counting loop is a loop over the words of the stream. -/
theorem countWords_eq_foldlM (stream : Bytes) (a : WordCountArray) :
    countWords stream a = (tableWords stream).foldlM (fun a word => incrementWord a word 1) a := by
  induction hn : stream.length using Nat.strongRecOn generalizing stream a with
  | _ n ih =>
      cases hscan : scanWord stream with
      | none => rw [countWords_none hscan, tableWords, scannedWords_none hscan]; rfl
      | some p =>
          obtain ⟨word, rest⟩ := p
          rw [countWords_some hscan, tableWords, scannedWords_some hscan, List.map_cons,
            List.foldlM_cons]
          congr 1
          funext a'
          exact ih rest.length (hn ▸ scanWord_lt hscan) rest a' rfl

/-- The counting loop adds one occurrence for each word of the stream. -/
theorem countWords_represents (stream : Bytes) :
    ∀ {a : WordCountArray} {t : List (CString × BitVec 32)}, Represents a t →
      ∃ a', countWords stream a = .ok a' ∧
        Represents a' (Tally.bumpAll t (occurrences stream)) := by
  induction hn : stream.length using Nat.strongRecOn generalizing stream with
  | _ n ih =>
      intro a t h
      cases hscan : scanWord stream with
      | none =>
          refine ⟨a, countWords_none hscan a, ?_⟩
          rw [occurrences_none hscan]
          exact h
      | some p =>
          obtain ⟨word, rest⟩ := p
          obtain ⟨a₁, ha₁, h₁⟩ :=
            incrementWord_represents h (strToupper (CString.ofBytes word)) 1
          obtain ⟨a₂, ha₂, h₂⟩ := ih rest.length (hn ▸ scanWord_lt hscan) rest rfl h₁
          refine ⟨a₂, ?_, ?_⟩
          · rw [countWords_some hscan, ha₁, Outcome.ok_bind, ha₂]
          · rw [occurrences_some hscan]
            exact h₂

/-- The tally of the words of a file. -/
def fileTally (stream : Bytes) : List (CString × BitVec 32) := Tally.bumpAll [] (occurrences stream)

/-- **`parse_in_file` on a readable file** returns the tally of its words, in a table that is
shrunk to fit. -/
theorem parseInFile_ok {fs : FileSystem} {name : String} {stream : Bytes}
    (h : fs.read name = some stream) :
    ∃ a, parseInFile fs name = .ok a ∧ entries a.pairs = fileTally stream ∧
      a.allocatedSize = a.usedSize := by
  obtain ⟨a, ha, hrep⟩ := countWords_represents stream initWordCountArray_represents
  refine ⟨shrinkArrayToFit a, ?_, hrep.entries_eq, rfl⟩
  simp [parseInFile, h, ha]

theorem fileTally_nodup (stream : Bytes) : (Tally.keys (fileTally stream)).Nodup :=
  Tally.nodup_keys_bumpAll List.nodup_nil

theorem total_fileTally (stream : Bytes) (word : CString) :
    Tally.total (fileTally stream) word = Tally.total (occurrences stream) word := by
  rw [fileTally, Tally.total_bumpAll, Tally.total_nil, zero_add]

theorem mem_keys_fileTally {stream : Bytes} {word : CString} :
    word ∈ Tally.keys (fileTally stream) ↔ word ∈ tableWords stream := by
  rw [fileTally, Tally.mem_keys_bumpAll]
  simp [Tally.keys, occurrences]

/-- A word that occurs `n` times is counted `n` times. -/
theorem total_ones (words : List CString) (w : CString) :
    Tally.total (words.map fun v => (v, (1 : BitVec 32))) w = BitVec.ofNat 32 (words.count w) := by
  induction words with
  | nil => rfl
  | cons v words ih =>
      rw [List.map_cons, Tally.total_cons, ih]
      by_cases h : v = w
      · subst h
        rw [if_pos rfl, List.count_cons_self, BitVec.ofNat_add]
        exact add_comm _ _
      · rw [if_neg h, List.count_cons_of_ne h, zero_add]

theorem mem_scannedWords {stream : Bytes} :
    ∀ {word : Bytes}, word ∈ scannedWords stream → word.length ≤ wordWidth ∧ word ⊆ stream := by
  induction hn : stream.length using Nat.strongRecOn generalizing stream with
  | _ n ih =>
      intro word h
      cases hscan : scanWord stream with
      | none => rw [scannedWords_none hscan] at h; cases h
      | some p =>
          obtain ⟨first, rest⟩ := p
          obtain ⟨hlen, hfirst, hrest⟩ := Scanf.scanField_subset hscan
          rw [scannedWords_some hscan] at h
          rcases List.mem_cons.mp h with rfl | h
          · exact ⟨hlen, hfirst⟩
          · obtain ⟨hlen', hsub⟩ := ih _ (hn ▸ scanWord_lt hscan) rfl h
            exact ⟨hlen', fun b hb => hrest (hsub hb)⟩

/-- No word of a table is longer than the buffer it was scanned into. -/
theorem strlen_tableWords {stream : Bytes} {w : CString} (h : w ∈ tableWords stream) :
    w.strlen ≤ wordWidth := by
  obtain ⟨word, hword, rfl⟩ := List.mem_map.mp h
  have hlen := (mem_scannedWords hword).1
  have hle : (word.takeWhile (· ≠ 0)).length ≤ word.length := (List.takeWhile_prefix _).length_le
  show ((word.takeWhile (· ≠ 0)).map toupper).length ≤ wordWidth
  rw [List.length_map]
  omega

/-- A table that `parse_in_file` has returned is the tally of a file. -/
theorem parseInFile_eq_ok {fs : FileSystem} {name : String} {a : WordCountArray}
    (h : parseInFile fs name = .ok a) :
    ∃ stream, fs.read name = some stream ∧ entries a.pairs = fileTally stream := by
  cases hread : fs.read name with
  | none => simp [parseInFile, hread] at h
  | some stream =>
      obtain ⟨a', ha', hent, -⟩ := parseInFile_ok hread
      rw [h] at ha'
      cases ha'
      exact ⟨stream, rfl, hent⟩

/-- The pairs of a file's table have distinct words of the scanner's width. -/
theorem pairs_of_fileTally {pairs : List WordCountPair} {stream : Bytes}
    (h : entries pairs = fileTally stream) :
    pairs.Nodup ∧ ∀ p ∈ pairs, p.word.strlen ≤ wordWidth := by
  have hkeys : Tally.keys (fileTally stream) = pairs.map (·.word) := by rw [← h, keys_entries]
  constructor
  · have hn := fileTally_nodup stream
    rw [hkeys] at hn
    exact hn.of_map
  · intro p hp
    have hmem : p.word ∈ Tally.keys (fileTally stream) := hkeys ▸ List.mem_map_of_mem hp
    exact strlen_tableWords (mem_keys_fileTally.mp hmem)

end Cs342.WordCount
