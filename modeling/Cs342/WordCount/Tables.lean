import Mathlib
import Cs342.Library.Calls
import Cs342.WordCount.Input

/-!
# Tables and their memory (`common.c`)

The operations that create or change tables, in any order and on any number of tables, with the
memory that is behind a table. `allocated_size` is what the code goes by; the memory has been asked
for three times, by the initialisation (with the size of the wrong structure), by doubling and by
shrinking. Doubling makes no room where there is none, so a word that is added to the table of an
empty file is written behind it. Short of that the representation is kept by every call
(`tables_kept_iff`).
-/

namespace Cs342.WordCount

open ByteBuffer (Bytes)

/-- `sizeof(struct word_count_array)`. -/
def sizeOfArray : Nat := 24

/-- `sizeof(struct word_count_pair)`. -/
def sizeOfPair : Nat := 16

/-- A table with the size of the memory that `pairs` points to; of every `insert_word_pair` so far,
the index that it has written and `allocated_size` at that moment. -/
structure WordTable where
  array : WordCountArray
  bytes : Nat
  writes : List (Nat × Nat)

namespace WordTable

variable {t t' : WordTable} {word : CString} {count : BitVec 32}

/-! ## The operations on one table -/

/-- How many pairs the memory has room for. -/
def slots (t : WordTable) : Nat := t.bytes / sizeOfPair

def words (t : WordTable) : List CString := t.array.pairs.map (·.word)

/-- `init_word_count_array`, which takes `sizeof *pair_array` for the size of a pair. -/
def init : WordTable where
  array := initWordCountArray
  bytes := initWordCountArray.allocatedSize * sizeOfArray
  writes := []

/-- `shrink_array_to_fit`. -/
def shrink (t : WordTable) : WordTable :=
  { t with
    array := shrinkArrayToFit t.array
    bytes := t.array.usedSize * sizeOfPair }

/-- `realloc_array_if_full`. -/
def reallocIfFull (t : WordTable) : WordTable :=
  if t.array.allocatedSize = t.array.usedSize then
    { t with
      array := reallocArrayIfFull t.array
      bytes := (reallocArrayIfFull t.array).allocatedSize * sizeOfPair }
  else
    t

/-- `insert_word_pair`: the slot that is written has to be in the memory. -/
def insertPair (t : WordTable) (word : CString) (count : BitVec 32) : Outcome WordTable :=
  let t := t.reallocIfFull
  if t.array.usedSize < t.slots then
    .ok { t with
      array := { t.array with pairs := t.array.pairs ++ [{ word := word, count := count }] }
      writes := t.writes ++ [(t.array.usedSize, t.array.allocatedSize)] }
  else
    .undefined

/-- `increment_word`. -/
def increment (t : WordTable) (word : CString) (count : BitVec 32) : Outcome WordTable :=
  match tryIncrementExistingWord t.array word count with
  | some array => .ok { t with array := array }
  | none => t.insertPair word count

/-- `parse_in_file` on a file with these contents. -/
def parseInFile (contents : Bytes) : Outcome WordTable := do
  let t ← (tableWords contents).foldlM (fun t word => t.increment word 1) init
  return t.shrink

/-! ## The representation of a table -/

/-- What the table promises, up to the memory that there may be beyond `allocated_size`. -/
structure Safe (t : WordTable) : Prop where
  used_le : t.array.usedSize ≤ t.array.allocatedSize
  allocated_le : t.array.allocatedSize ≤ t.slots
  nodup : t.words.Nodup
  writes_lt : ∀ w ∈ t.writes, w.1 < w.2

/-- `allocated_size` is the number of pair slots. -/
def Exact (t : WordTable) : Prop := t.array.allocatedSize = t.slots

theorem slots_mul (n : Nat) : n * sizeOfPair / sizeOfPair = n :=
  Nat.mul_div_cancel n (by decide)

theorem init_safe : init.Safe :=
  ⟨Nat.zero_le _, by decide, List.nodup_nil, fun w hw => absurd hw List.not_mem_nil⟩

/-- The memory of a new table holds 30 pairs. -/
theorem init_not_exact : ¬ init.Exact := by
  show init.array.allocatedSize ≠ init.slots
  decide

theorem shrink_safe (h : t.Safe) : t.shrink.Safe :=
  ⟨le_rfl, (slots_mul _).ge, h.nodup, h.writes_lt⟩

theorem shrink_exact : t.shrink.Exact := (slots_mul _).symm

/-! ## Incrementing a word -/

/-- A word whose count is raised was there, and the words stay. -/
theorem words_incrementExisting {pairs pairs' : List WordCountPair}
    (h : incrementExisting pairs word count = some pairs') :
    pairs'.map (·.word) = pairs.map (·.word) := by
  induction pairs generalizing pairs' with
  | nil => cases h
  | cons pair pairs ih =>
      rw [incrementExisting] at h
      split at h
      · cases h
        rfl
      · obtain ⟨qs, hqs, rfl⟩ := Option.map_eq_some_iff.mp h
        rw [List.map_cons, List.map_cons, ih hqs]

theorem incrementExisting_eq_none {pairs : List WordCountPair} :
    incrementExisting pairs word count = none ↔ word ∉ pairs.map (·.word) := by
  induction pairs with
  | nil => simp [incrementExisting]
  | cons pair pairs ih =>
      simp only [incrementExisting, CString.strcmp_eq_zero]
      by_cases h : pair.word = word
      · simp [h]
      · rw [if_neg h, Option.map_eq_none_iff, ih, List.map_cons, List.mem_cons, not_or,
          and_iff_right (Ne.symm h)]

variable (count) in
/-- A word that is there: only a count changes. -/
theorem increment_of_mem (h : word ∈ t.words) :
    ∃ pairs, t.increment word count = .ok { t with array := { t.array with pairs := pairs } } ∧
      pairs.map (·.word) = t.words := by
  cases hex : incrementExisting t.array.pairs word count with
  | none => exact absurd h (incrementExisting_eq_none.mp hex)
  | some pairs =>
      refine ⟨pairs, ?_, words_incrementExisting hex⟩
      rw [increment, tryIncrementExistingWord, hex]
      rfl

theorem usedSize_increment_of_mem (h : word ∈ t.words) (hok : t.increment word count = .ok t') :
    t'.array.usedSize = t.array.usedSize := by
  obtain ⟨pairs, hincrement, hpairs⟩ := increment_of_mem count h
  cases hincrement.symm.trans hok
  simpa only [words, List.length_map, WordCountArray.usedSize] using congrArg List.length hpairs

/-- A word that is not there is inserted. -/
theorem increment_of_not_mem (h : word ∉ t.words) :
    t.increment word count = t.insertPair word count := by
  rw [increment, tryIncrementExistingWord, incrementExisting_eq_none.mpr h]
  rfl

theorem reallocIfFull_array : t.reallocIfFull.array = reallocArrayIfFull t.array := by
  unfold reallocIfFull reallocArrayIfFull
  split <;> rfl

theorem reallocIfFull_pairs : t.reallocIfFull.array.pairs = t.array.pairs := by
  rw [reallocIfFull_array, reallocArrayIfFull_pairs]

/-- **Making room**: in a table of size other than 0 the next index is below the size, which stays
within the memory. -/
theorem Safe.room (h : t.Safe) (hpos : t.array.allocatedSize ≠ 0) :
    t.array.usedSize < t.reallocIfFull.array.allocatedSize ∧
      t.reallocIfFull.array.allocatedSize ≤ t.reallocIfFull.slots ∧
      (t.Exact → t.reallocIfFull.Exact) := by
  have hle := h.used_le
  unfold reallocIfFull
  split
  · next hfull =>
      refine ⟨?_, (slots_mul _).ge, fun _ => (slots_mul _).symm⟩
      show _ < (reallocArrayIfFull t.array).allocatedSize
      rw [reallocArrayIfFull, if_pos hfull]
      show _ < t.array.allocatedSize * 2
      omega
  · exact ⟨by omega, h.allocated_le, id⟩

/-- **Incrementing**: a table of size other than 0 keeps what it promises. -/
theorem Safe.increment (h : t.Safe) (hpos : t.array.allocatedSize ≠ 0) (word : CString)
    (count : BitVec 32) :
    ∃ t', WordTable.increment t word count = .ok t' ∧ t'.Safe ∧ t'.array.allocatedSize ≠ 0 ∧
      (t.Exact → t'.Exact) := by
  by_cases hword : word ∈ t.words
  · obtain ⟨pairs, hincrement, hpairs⟩ := increment_of_mem count hword
    refine ⟨_, hincrement, ⟨?_, h.allocated_le, ?_, h.writes_lt⟩, hpos, id⟩
    · exact (usedSize_increment_of_mem hword hincrement).le.trans h.used_le
    · show (pairs.map (·.word)).Nodup
      rw [hpairs]
      exact h.nodup
  · obtain ⟨hlt, hslots, hexact⟩ := h.room hpos
    have hused : t.reallocIfFull.array.usedSize = t.array.usedSize :=
      congrArg List.length reallocIfFull_pairs
    rw [← hused] at hlt
    rw [increment_of_not_mem hword, insertPair]
    dsimp only
    rw [if_pos (hlt.trans_le hslots)]
    refine ⟨_, rfl, ⟨?_, hslots, ?_, ?_⟩, Nat.ne_zero_of_lt hlt, hexact⟩
    · show (t.reallocIfFull.array.pairs ++ _).length ≤ _
      rw [List.length_append]
      exact hlt
    · show ((t.reallocIfFull.array.pairs ++ _).map (·.word)).Nodup
      rw [List.map_append, reallocIfFull_pairs, List.nodup_append']
      refine ⟨h.nodup, List.nodup_singleton _, ?_⟩
      rw [List.disjoint_right]
      intro v hv
      rw [List.mem_singleton.mp hv]
      exact hword
    · intro w hw
      have hwrites : t.reallocIfFull.writes = t.writes := by
        unfold reallocIfFull
        split <;> rfl
      rcases List.mem_append.mp hw with hw | hw
      · exact h.writes_lt w (hwrites ▸ hw)
      · rw [List.mem_singleton.mp hw]
        exact hlt

/-- A table of size 0 has no words, and no slot for one either. -/
theorem Safe.increment_undefined (h : t.Safe) (hzero : t.array.allocatedSize = 0) (word : CString)
    (count : BitVec 32) : WordTable.increment t word count = .undefined := by
  have hused : t.array.usedSize = 0 := Nat.le_zero.mp (hzero ▸ h.used_le)
  have hwords : t.words = [] := by
    rw [words, List.length_eq_zero_iff.mp hused, List.map_nil]
  have hfull : t.array.allocatedSize = t.array.usedSize := hzero.trans hused.symm
  have hslots : t.reallocIfFull.slots = 0 := by
    rw [reallocIfFull, if_pos hfull]
    show (reallocArrayIfFull t.array).allocatedSize * sizeOfPair / sizeOfPair = 0
    rw [slots_mul, reallocArrayIfFull, if_pos hfull]
    show t.array.allocatedSize * 2 = 0
    rw [hzero]
  rw [increment_of_not_mem (by rw [hwords]; exact List.not_mem_nil), insertPair]
  dsimp only
  rw [hslots, if_neg (Nat.not_lt_zero _)]

/-! ## The table of a file -/

theorem foldlM_increment_safe (words : List CString) (h : t.Safe)
    (hpos : t.array.allocatedSize ≠ 0) :
    ∃ t', words.foldlM (fun t word => t.increment word 1) t = .ok t' ∧ t'.Safe := by
  induction words generalizing t with
  | nil => exact ⟨t, rfl, h⟩
  | cons word words ih =>
      obtain ⟨t', hincrement, hsafe, hpos', -⟩ := h.increment hpos word 1
      obtain ⟨t'', hrest, hsafe'⟩ := ih hsafe hpos'
      exact ⟨t'', by rw [List.foldlM_cons, hincrement, Outcome.ok_bind, hrest], hsafe'⟩

theorem parseInFile_safe (contents : Bytes) :
    ∃ t, parseInFile contents = .ok t ∧ t.Safe ∧ t.Exact := by
  obtain ⟨t, hfold, hsafe⟩ := foldlM_increment_safe (tableWords contents) init_safe (by decide)
  exact ⟨t.shrink, by rw [parseInFile, hfold]; rfl, shrink_safe hsafe, shrink_exact⟩

/-! ## Tables without their memory -/

/-- Where the memory suffices, the table is the one that `increment_word` makes of it. -/
theorem Safe.array_increment (h : t.Safe) (hok : WordTable.increment t word count = .ok t') :
    incrementWord t.array word count = .ok t'.array := by
  have hpos : t.array.allocatedSize ≠ 0 := by
    intro hzero
    rw [h.increment_undefined hzero] at hok
    cases hok
  rw [incrementWord]
  cases hex : tryIncrementExistingWord t.array word count with
  | some array =>
      rw [WordTable.increment, hex] at hok
      cases hok
      rfl
  | none =>
      obtain ⟨hlt, hslots, -⟩ := h.room hpos
      have hused : t.reallocIfFull.array.usedSize = t.array.usedSize :=
        congrArg List.length reallocIfFull_pairs
      rw [← hused] at hlt
      rw [WordTable.increment, hex] at hok
      dsimp only at hok
      rw [insertPair] at hok
      dsimp only at hok
      rw [if_pos (hlt.trans_le hslots)] at hok
      cases hok
      rw [insertWordPair, ← reallocIfFull_array]
      dsimp only
      rw [if_pos hlt]

theorem foldlM_increment_array {words : List CString} (h : t.Safe)
    (hpos : t.array.allocatedSize ≠ 0)
    (hok : words.foldlM (fun t word => t.increment word 1) t = .ok t') :
    words.foldlM (fun a word => incrementWord a word 1) t.array = .ok t'.array := by
  induction words generalizing t with
  | nil =>
      cases hok
      rfl
  | cons word words ih =>
      obtain ⟨u, hu, hsafe, hpos', -⟩ := h.increment hpos word 1
      rw [List.foldlM_cons, hu, Outcome.ok_bind] at hok
      rw [List.foldlM_cons, h.array_increment hu, Outcome.ok_bind]
      exact ih hsafe hpos' hok

/-- The table of a file, with its memory and without. -/
theorem array_parseInFile {fs : FileSystem} {name : String} {contents : Bytes}
    (hread : fs.read name = some contents) (hok : parseInFile contents = .ok t) :
    WordCount.parseInFile fs name = .ok t.array := by
  obtain ⟨u, hu, hshrink⟩ := Outcome.bind_eq_ok.mp hok
  cases hshrink
  have hcount := foldlM_increment_array init_safe (by decide) hu
  rw [← countWords_eq_foldlM] at hcount
  rw [WordCount.parseInFile, hread]
  show countWords contents init.array >>= _ = _
  rw [hcount]
  rfl

end WordTable

/-! ## Any number of tables -/

/-- A call of one of the operations; a table is known by its place in the list of all of them. -/
inductive TableCall where
  | initWordCountArray
  | parseInFile (contents : Bytes)
  | incrementWord (table : Nat) (word : CString) (count : BitVec 32)
  | addArrayToArray (total other : Nat)
  deriving DecidableEq

def incrementAt (tables : List WordTable) (i : Nat) (word : CString) (count : BitVec 32) :
    Outcome (List WordTable) := do
  let t ← Outcome.ofOption tables[i]?
  let t ← t.increment word count
  return tables.set i t

/-- A round of the loop of `add_array_to_array`, which may add a table to itself. -/
def addPair (total other : Nat) (tables : List WordTable) (k : Nat) :
    Outcome (List WordTable) := do
  let o ← Outcome.ofOption tables[other]?
  let pair ← Outcome.ofOption o.array.pairs[k]?
  incrementAt tables total pair.word pair.count

/-- The tables after a call. The loop bound of `add_array_to_array` is read once; it stays the same
(`addPair_bound`). -/
def tableCall (tables : List WordTable) : TableCall → Outcome (List WordTable)
  | .initWordCountArray => .ok (tables ++ [WordTable.init])
  | .parseInFile contents => do
    let t ← WordTable.parseInFile contents
    return tables ++ [t]
  | .incrementWord i word count => incrementAt tables i word count
  | .addArrayToArray total other => do
    let o ← Outcome.ofOption tables[other]?
    (List.range o.array.usedSize).foldlM (addPair total other) tables

/-- Every table keeps what it promises; if `strict`, there is no memory beyond `allocated_size`. -/
def TablesKept (strict : Prop) (tables : List WordTable) : Prop :=
  ∀ t ∈ tables, t.Safe ∧ (strict → t.Exact)

/-- A word is added to tables of size other than 0 only. -/
def HasRoom (tables : List WordTable) : TableCall → Prop
  | .initWordCountArray => True
  | .parseInFile _ => True
  | .incrementWord i _ _ => ∃ t, tables[i]? = some t ∧ t.array.allocatedSize ≠ 0
  | .addArrayToArray total other => ∃ o, tables[other]? = some o ∧
    (o.array.usedSize ≠ 0 → ∃ t, tables[total]? = some t ∧ t.array.allocatedSize ≠ 0)

section Calling

variable {tables tables' : List WordTable} {strict : Prop} {i k total other n : Nat}
  {word : CString} {count : BitVec 32} {t : WordTable}

theorem incrementAt_eq_ok : incrementAt tables i word count = .ok tables' ↔
    ∃ t t', tables[i]? = some t ∧ t.increment word count = .ok t' ∧ tables' = tables.set i t' := by
  simp only [incrementAt, Outcome.bind_eq_ok, Outcome.ofOption_eq_ok, Outcome.pure_eq,
    Outcome.ok.injEq, eq_comm (b := tables')]
  simp only [exists_and_left]

theorem TablesKept.incrementAt (h : TablesKept strict tables) (ht : tables[i]? = some t)
    (hpos : t.array.allocatedSize ≠ 0) (word : CString) (count : BitVec 32) :
    ∃ t', WordCount.incrementAt tables i word count = .ok (tables.set i t') ∧
      TablesKept strict (tables.set i t') ∧ t'.array.allocatedSize ≠ 0 := by
  obtain ⟨hsafe, hexact⟩ := h t (List.mem_of_getElem? ht)
  obtain ⟨t', hincrement, hsafe', hpos', hexact'⟩ := hsafe.increment hpos word count
  refine ⟨t', incrementAt_eq_ok.mpr ⟨t, t', ht, hincrement, rfl⟩, fun u hu => ?_, hpos'⟩
  rcases List.mem_or_eq_of_mem_set hu with hu | rfl
  · exact h u hu
  · exact ⟨hsafe', fun hstrict => hexact' (hexact hstrict)⟩

/-- A word can only be added where there is room. -/
theorem TablesKept.room_of_incrementAt (h : TablesKept strict tables)
    (hok : WordCount.incrementAt tables i word count = .ok tables') :
    ∃ t, tables[i]? = some t ∧ t.array.allocatedSize ≠ 0 := by
  obtain ⟨t, t', ht, hincrement, -⟩ := incrementAt_eq_ok.mp hok
  refine ⟨t, ht, fun hzero => ?_⟩
  rw [(h t (List.mem_of_getElem? ht)).1.increment_undefined hzero] at hincrement
  cases hincrement

theorem addPair_eq_ok : addPair total other tables k = .ok tables' ↔
    ∃ o pair, tables[other]? = some o ∧ o.array.pairs[k]? = some pair ∧
      incrementAt tables total pair.word pair.count = .ok tables' := by
  simp only [addPair, Outcome.bind_eq_ok, Outcome.ofOption_eq_ok, exists_and_left]

/-- **The loop bound**: adding a pair does not change the number of pairs in the table that is read,
even if it is the one that is added to. -/
theorem addPair_bound {o : WordTable} (ho : tables[other]? = some o)
    (hok : addPair total other tables k = .ok tables') :
    ∃ o', tables'[other]? = some o' ∧ o'.array.usedSize = o.array.usedSize := by
  obtain ⟨_, pair, ho', hpair, hincrement⟩ := addPair_eq_ok.mp hok
  cases ho.symm.trans ho'
  obtain ⟨t, t', ht, hincrement, rfl⟩ := incrementAt_eq_ok.mp hincrement
  by_cases hsame : total = other
  · subst hsame
    cases ht.symm.trans ho
    refine ⟨t', ?_, WordTable.usedSize_increment_of_mem ?_ hincrement⟩
    · exact List.getElem?_set_self (List.getElem?_eq_some_iff.mp ho).1
    · exact List.mem_map_of_mem (List.mem_of_getElem? hpair)
  · exact ⟨o, by rw [List.getElem?_set_ne hsame, ho], rfl⟩

/-- The loop of `add_array_to_array`, with `n` pairs in the table that is read. -/
theorem foldlM_addPair {ks : List Nat} (hks : ∀ k ∈ ks, k < n) (h : TablesKept strict tables)
    (hother : ∃ o, tables[other]? = some o ∧ o.array.usedSize = n)
    (htotal : ∃ t, tables[total]? = some t ∧ t.array.allocatedSize ≠ 0) :
    ∃ tables', ks.foldlM (addPair total other) tables = .ok tables' ∧
      TablesKept strict tables' := by
  induction ks generalizing tables with
  | nil => exact ⟨tables, rfl, h⟩
  | cons k ks ih =>
      obtain ⟨o, ho, hused⟩ := hother
      obtain ⟨t, ht, hpos⟩ := htotal
      have hk : k < o.array.pairs.length := by
        rw [show o.array.pairs.length = n from hused]
        exact hks k List.mem_cons_self
      obtain ⟨t', hincrement, hkept, hpos'⟩ :=
        h.incrementAt ht hpos o.array.pairs[k].word o.array.pairs[k].count
      have hround : addPair total other tables k = .ok (tables.set total t') :=
        addPair_eq_ok.mpr ⟨o, _, ho, List.getElem?_eq_getElem hk, hincrement⟩
      obtain ⟨o', ho', hused'⟩ := addPair_bound ho hround
      obtain ⟨tables', hrest, hkept'⟩ := ih (fun j hj => hks j (List.mem_cons_of_mem _ hj)) hkept
        ⟨o', ho', hused'.trans hused⟩
        ⟨t', List.getElem?_set_self (List.getElem?_eq_some_iff.mp ht).1, hpos'⟩
      exact ⟨tables', by rw [List.foldlM_cons, hround, Outcome.ok_bind, hrest], hkept'⟩

theorem TablesKept.append (h : TablesKept strict tables) (ht : t.Safe)
    (hexact : strict → t.Exact) : TablesKept strict (tables ++ [t]) := by
  intro u hu
  rcases List.mem_append.mp hu with hu | hu
  · exact h u hu
  · rw [List.mem_singleton.mp hu]
    exact ⟨ht, hexact⟩

/-- **One call** with room keeps the tables. -/
theorem TablesKept.call {c : TableCall} (h : TablesKept strict tables) (hroom : HasRoom tables c)
    (hinit : strict → c ≠ .initWordCountArray) :
    ∃ tables', tableCall tables c = .ok tables' ∧ TablesKept strict tables' := by
  cases c with
  | initWordCountArray =>
      exact ⟨_, rfl, h.append WordTable.init_safe fun hstrict => absurd rfl (hinit hstrict)⟩
  | parseInFile contents =>
      obtain ⟨t, hparse, hsafe, hexact⟩ := WordTable.parseInFile_safe contents
      exact ⟨_, by rw [tableCall, hparse]; rfl, h.append hsafe fun _ => hexact⟩
  | incrementWord i word count =>
      obtain ⟨t, ht, hpos⟩ := hroom
      obtain ⟨t', hincrement, hkept, -⟩ := h.incrementAt ht hpos word count
      exact ⟨_, hincrement, hkept⟩
  | addArrayToArray total other =>
      obtain ⟨o, ho, htotal⟩ := hroom
      rw [tableCall, ho, Outcome.ofOption_some, Outcome.ok_bind]
      by_cases hused : o.array.usedSize = 0
      · rw [hused]
        exact ⟨tables, rfl, h⟩
      · exact foldlM_addPair (fun k hk => List.mem_range.mp hk) h ⟨o, ho, rfl⟩ (htotal hused)

/-- A call that keeps the tables has had room. -/
theorem TablesKept.hasRoom_of_call {c : TableCall} (h : TablesKept strict tables)
    (hcall : tableCall tables c = .ok tables') (h' : TablesKept strict tables') :
    HasRoom tables c ∧ (strict → c ≠ .initWordCountArray) := by
  cases c with
  | initWordCountArray =>
      refine ⟨trivial, fun hstrict => ?_⟩
      cases hcall
      have hinit := h' WordTable.init (List.mem_append_right _ List.mem_cons_self)
      exact absurd (hinit.2 hstrict) WordTable.init_not_exact
  | parseInFile contents => exact ⟨trivial, fun _ => by simp⟩
  | incrementWord i word count => exact ⟨h.room_of_incrementAt hcall, fun _ => by simp⟩
  | addArrayToArray total other =>
      obtain ⟨o, ho, hloop⟩ := Outcome.bind_eq_ok.mp hcall
      refine ⟨⟨o, Outcome.ofOption_eq_ok.mp ho, fun hused => ?_⟩, fun _ => by simp⟩
      obtain ⟨n, hn⟩ := Nat.exists_eq_add_one_of_ne_zero hused
      rw [hn, List.range_succ_eq_map, List.foldlM_cons] at hloop
      obtain ⟨mid, hround, -⟩ := Outcome.bind_eq_ok.mp hloop
      obtain ⟨_, pair, -, -, hincrement⟩ := addPair_eq_ok.mp hround
      exact h.room_of_incrementAt hincrement

theorem tablesKept_iff (strict : Prop) (calls : List TableCall) :
    Calls.EachState tableCall [] (TablesKept strict) calls ↔
      Calls.EachStep tableCall []
        (fun tables c => HasRoom tables c ∧ (strict → c ≠ .initWordCountArray)) calls := by
  apply Calls.eachState_iff_eachStep
  · exact fun t ht => absurd ht List.not_mem_nil
  · exact fun tables c h hc => h.call hc.1 hc.2
  · exact fun tables c tables' h hcall h' => h.hasRoom_of_call hcall h'

/-- **Word tables**: the representation is kept through a sequence of calls exactly if no call adds
a word to a table of size 0 and none leaves a table as it is initialised; with the latter there is
more memory than `allocated_size` says, and all the rest is kept. -/
theorem word_tables_kept_iff (calls : List TableCall) :
    (Calls.EachState tableCall [] (fun tables => ∀ t ∈ tables, t.Safe ∧ t.Exact) calls ↔
      Calls.EachStep tableCall []
        (fun tables c => HasRoom tables c ∧ c ≠ .initWordCountArray) calls) ∧
    (Calls.EachState tableCall [] (fun tables => ∀ t ∈ tables, t.Safe) calls ↔
      Calls.EachStep tableCall [] HasRoom calls) := by
  have htrue : TablesKept True = fun tables => ∀ t ∈ tables, t.Safe ∧ t.Exact := by
    funext tables
    simp only [TablesKept, true_imp_iff]
  have hfalse : TablesKept False = fun tables => ∀ t ∈ tables, t.Safe := by
    funext tables
    simp only [TablesKept, false_imp_iff, and_true]
  have hstrict := tablesKept_iff True calls
  have hsafe := tablesKept_iff False calls
  simp only [true_imp_iff, false_imp_iff, and_true] at hstrict hsafe
  rw [← htrue, ← hfalse]
  exact ⟨hstrict, hsafe⟩

/-- The table of an empty file has no room for a word. -/
theorem word_tables_not_kept :
    ¬ Calls.EachState tableCall [] (fun tables => ∀ t ∈ tables, t.Safe ∧ t.Exact)
      [.parseInFile [], .incrementWord 0 (CString.ofBytes [65]) 1] := by
  intro h
  obtain ⟨tables, hrun, -⟩ := h _ List.prefix_rfl
  have hwords : tableWords [] = [] := by rw [tableWords, scannedWords_none rfl, List.map_nil]
  rw [Calls.run, List.foldlM_cons, tableCall, WordTable.parseInFile, hwords] at hrun
  cases hrun

end Calling

end Cs342.WordCount
