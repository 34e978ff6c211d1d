import Mathlib
import Cs342.Library.CString
import Cs342.Library.Tally

/-!
# Word tables (`proj01/src/common.c`)

A `word_count_array` is a growing array of word/count pairs with distinct words. The model keeps
the used slots as a list and the capacity as a number: growing only ever doubles it, shrinking
sets it to the number of used slots, and an insertion writes one slot past the used ones, which is
undefined when the capacity ends there.

Abstractly a table is a tally of words (`Library/Tally`): `increment_word` is `Tally.bump` and
`add_array_to_array` is `Tally.bumpAll` wherever the table has room.
-/

namespace Cs342.WordCount

open ByteBuffer

/-- `struct word_count_pair`. Counts are C ints. -/
structure WordCountPair where
  word : CString
  count : BitVec 32
  deriving DecidableEq

/-- `struct word_count_array`: `pairs[0..used_size)` and `allocated_size`. -/
structure WordCountArray where
  pairs : List WordCountPair
  allocatedSize : Nat
  deriving DecidableEq

namespace WordCountArray

/-- `used_size`. -/
def usedSize (pairArray : WordCountArray) : Nat := pairArray.pairs.length

end WordCountArray

/-! ## The operations -/

def initWordCountArray : WordCountArray where
  pairs := []
  allocatedSize := 20

def shrinkArrayToFit (pairArray : WordCountArray) : WordCountArray :=
  { pairArray with allocatedSize := pairArray.usedSize }

def reallocArrayIfFull (pairArray : WordCountArray) : WordCountArray :=
  if pairArray.allocatedSize = pairArray.usedSize then
    { pairArray with allocatedSize := pairArray.allocatedSize * 2 }
  else
    pairArray

/-- The loop of `try_increment_existing_word` over the used slots: raise the count of the first
pair with that word (gcc's two's complement addition), or find none. -/
def incrementExisting : List WordCountPair → CString → BitVec 32 → Option (List WordCountPair)
  | [], _, _ => none
  | pair :: pairs, word, count =>
    if CString.strcmp pair.word word = 0 then
      some ({ pair with count := pair.count + count } :: pairs)
    else
      (incrementExisting pairs word count).map (pair :: ·)

def tryIncrementExistingWord (pairArray : WordCountArray) (word : CString) (count : BitVec 32) :
    Option WordCountArray :=
  (incrementExisting pairArray.pairs word count).map fun pairs =>
    { pairArray with pairs := pairs }

/-- The pair goes to slot `used_size`, which has to exist after the reallocation. -/
def insertWordPair (pairArray : WordCountArray) (word : CString) (count : BitVec 32) :
    Outcome WordCountArray :=
  let pairArray := reallocArrayIfFull pairArray
  if pairArray.usedSize < pairArray.allocatedSize then
    .ok { pairArray with pairs := pairArray.pairs ++ [{ word := word, count := count }] }
  else
    .undefined

def incrementWord (pairArray : WordCountArray) (word : CString) (count : BitVec 32) :
    Outcome WordCountArray :=
  match tryIncrementExistingWord pairArray word count with
  | some pairArray => .ok pairArray
  | none => insertWordPair pairArray word count

def addArrayToArray (totalArray otherArray : WordCountArray) : Outcome WordCountArray :=
  otherArray.pairs.foldlM (fun total pair => incrementWord total pair.word pair.count) totalArray

/-! ## Tables as tallies -/

/-- A pair as a tally entry. -/
def WordCountPair.entry (pair : WordCountPair) : CString × BitVec 32 := (pair.word, pair.count)

/-- The tally a list of pairs stands for. -/
def entries (pairs : List WordCountPair) : List (CString × BitVec 32) := pairs.map (·.entry)

@[simp] theorem entries_nil : entries [] = [] := rfl

@[simp] theorem entries_cons (pair : WordCountPair) (pairs : List WordCountPair) :
    entries (pair :: pairs) = (pair.word, pair.count) :: entries pairs := rfl

@[simp] theorem entries_append (ps qs : List WordCountPair) :
    entries (ps ++ qs) = entries ps ++ entries qs := List.map_append

@[simp] theorem entries_flatten (pss : List (List WordCountPair)) :
    entries pss.flatten = (pss.map entries).flatten := by
  exact List.map_flatten

theorem WordCountPair.entry_injective : Function.Injective WordCountPair.entry := by
  intro p q h
  cases p; cases q
  simpa [WordCountPair.entry] using h

theorem entries_inj {ps qs : List WordCountPair} : entries ps = entries qs ↔ ps = qs :=
  List.map_inj_right fun _ _ h => WordCountPair.entry_injective h

theorem keys_entries (pairs : List WordCountPair) :
    Tally.keys (entries pairs) = pairs.map (·.word) := by
  simp [Tally.keys, entries, WordCountPair.entry]

/-- Raising an existing word or appending a new one is an addition to the tally. -/
theorem bump_entries (pairs : List WordCountPair) (word : CString) (count : BitVec 32) :
    Tally.bump (entries pairs) word count =
      match incrementExisting pairs word count with
      | some pairs' => entries pairs'
      | none => entries pairs ++ [(word, count)] := by
  induction pairs with
  | nil => rfl
  | cons pair pairs ih =>
      by_cases h : pair.word = word
      · simp [incrementExisting, Tally.bump, h, CString.strcmp_eq_zero]
      · simp only [incrementExisting, Tally.bump, entries_cons, CString.strcmp_eq_zero, h,
          if_false, ih]
        cases incrementExisting pairs word count <;> simp

/-- Raising a count keeps the number of pairs. -/
theorem length_incrementExisting {pairs pairs' : List WordCountPair} {word : CString}
    {count : BitVec 32} (h : incrementExisting pairs word count = some pairs') :
    pairs'.length = pairs.length := by
  induction pairs generalizing pairs' with
  | nil => cases h
  | cons pair pairs ih =>
      rw [incrementExisting] at h
      split at h
      · cases h; rfl
      · obtain ⟨qs, hqs, rfl⟩ := Option.map_eq_some_iff.mp h
        simp [ih hqs]

/-- The table stands for the tally and the next insertion has a slot: the used slots are within
the capacity, and the capacity is not zero, so that doubling it makes room. -/
structure Represents (pairArray : WordCountArray) (t : List (CString × BitVec 32)) : Prop where
  used_le : pairArray.usedSize ≤ pairArray.allocatedSize
  allocated_pos : 0 < pairArray.allocatedSize
  entries_eq : entries pairArray.pairs = t

theorem initWordCountArray_represents : Represents initWordCountArray [] :=
  ⟨by decide, by decide, rfl⟩

theorem reallocArrayIfFull_pairs (pairArray : WordCountArray) :
    (reallocArrayIfFull pairArray).pairs = pairArray.pairs := by
  unfold reallocArrayIfFull
  split <;> rfl

/-- After the reallocation the slot of the next pair exists. -/
theorem Represents.room {pairArray : WordCountArray} {t : List (CString × BitVec 32)}
    (h : Represents pairArray t) :
    pairArray.usedSize < (reallocArrayIfFull pairArray).allocatedSize := by
  have h₁ := h.used_le
  have h₂ := h.allocated_pos
  unfold reallocArrayIfFull
  split
  · show pairArray.usedSize < pairArray.allocatedSize * 2
    omega
  · omega

/-- **`increment_word` is an addition**: on a table with room it returns, and the result stands
for the tally with that addition. -/
theorem incrementWord_represents {pairArray : WordCountArray} {t : List (CString × BitVec 32)}
    (h : Represents pairArray t) (word : CString) (count : BitVec 32) :
    ∃ pairArray', incrementWord pairArray word count = .ok pairArray' ∧
      Represents pairArray' (Tally.bump t word count) := by
  have hbump := bump_entries pairArray.pairs word count
  rw [h.entries_eq] at hbump
  cases hex : incrementExisting pairArray.pairs word count with
  | some pairs =>
      -- the word is there, and no slot is added
      rw [hex] at hbump
      refine ⟨{ pairArray with pairs := pairs }, ?_, ?_, h.allocated_pos, hbump.symm⟩
      · simp [incrementWord, tryIncrementExistingWord, hex]
      · show pairs.length ≤ pairArray.allocatedSize
        rw [length_incrementExisting hex]
        exact h.used_le
  | none =>
      -- a new slot, for which `realloc_array_if_full` has made room
      rw [hex] at hbump
      have hpairs := reallocArrayIfFull_pairs pairArray
      have hroom := h.room
      have hused : (reallocArrayIfFull pairArray).usedSize = pairArray.usedSize :=
        congrArg List.length hpairs
      refine ⟨{ reallocArrayIfFull pairArray with
        pairs := pairArray.pairs ++ [{ word := word, count := count }] }, ?_, ?_, ?_, ?_⟩
      · have hlt : (reallocArrayIfFull pairArray).usedSize
            < (reallocArrayIfFull pairArray).allocatedSize := hused ▸ hroom
        simp only [incrementWord, tryIncrementExistingWord, hex, Option.map_none, insertWordPair,
          if_pos hlt, hpairs]
      · show (pairArray.pairs ++ _).length ≤ _
        rw [List.length_append]
        exact hroom
      · show 0 < (reallocArrayIfFull pairArray).allocatedSize
        omega
      · show entries (pairArray.pairs ++ _) = _
        rw [entries_append, h.entries_eq]
        exact hbump.symm

/-- A run of increments adds all of its pairs. -/
theorem incrementWords_represents {pairArray : WordCountArray} {t : List (CString × BitVec 32)}
    (h : Represents pairArray t) (pairs : List WordCountPair) :
    ∃ pairArray', pairs.foldlM (fun a p => incrementWord a p.word p.count) pairArray
        = .ok pairArray' ∧ Represents pairArray' (Tally.bumpAll t (entries pairs)) := by
  have hfold : pairs.foldl (fun t p => Tally.bump t p.word p.count) t
      = Tally.bumpAll t (entries pairs) := by
    unfold Tally.bumpAll entries
    rw [List.foldl_map]
    rfl
  rw [← hfold]
  exact Outcome.foldlM_refines (R := Represents) (f := fun t p => Tally.bump t p.word p.count)
    (fun a t p hR => incrementWord_represents hR p.word p.count) pairs pairArray t h

/-- **`add_array_to_array` adds a whole table** to a table with room. -/
theorem addArrayToArray_represents {total : WordCountArray} {t : List (CString × BitVec 32)}
    (h : Represents total t) (other : WordCountArray) :
    ∃ total', addArrayToArray total other = .ok total' ∧
      Represents total' (Tally.bumpAll t (entries other.pairs)) :=
  incrementWords_represents h other.pairs

end Cs342.WordCount
