import Mathlib
import Cs342.Library.Strtol
import Cs342.Library.Numerals

/-!
# Text that was printed line by line

A 32-bit number in eight hexadecimal digits is read back as itself (`hexNumeral_hexText`), and a
text of lines with a word on each is read back word by word (`words_lines`). A line can start with a
column of its own, up to its first blank; `firstColumn` and `otherColumns` take a text apart there,
and give back what it was printed from.
-/

namespace PrintedText

open ByteBuffer (Bytes)
open Scanf (isspace IsWord Words)

/-- The bytes of an ASCII text. -/
def ascii (text : String) : Bytes := text.toList.map fun c => UInt8.ofNat c.toNat

/-! ## Hexadecimal digits -/

/-- The digit with a value below 16. -/
def hexDigit (d : Nat) : UInt8 := if d < 10 then UInt8.ofNat (48 + d) else UInt8.ofNat (87 + d)

/-- The last `width` digits of a number, the first one first. -/
def hexDigits : Nat → Nat → List Nat
  | 0, _ => []
  | width + 1, n => hexDigits width (n / 16) ++ [n % 16]

/-- `"0x%08x"`. -/
def hexText (x : BitVec 32) : Bytes := 48 :: 120 :: (hexDigits 8 x.toNat).map hexDigit

example : hexText 0xbeef = [48, 120, 48, 48, 48, 48, 98, 101, 101, 102] := by decide

theorem digitOf_hexDigit {d : Nat} (h : d < 16) : Strtol.digitOf 16 (hexDigit d) = some d := by
  revert d
  decide

theorem hexDigits_lt {width n d : Nat} (h : d ∈ hexDigits width n) : d < 16 := by
  induction width generalizing n with
  | zero => cases h
  | succ width ih =>
      rcases List.mem_append.mp h with h | h
      · exact ih h
      · rw [List.mem_singleton.mp h]
        exact Nat.mod_lt n (by decide)

theorem length_hexDigits (width n : Nat) : (hexDigits width n).length = width := by
  induction width generalizing n with
  | zero => rfl
  | succ width ih => rw [hexDigits, List.length_append, ih, List.length_singleton]

theorem number_hexDigits (width n : Nat) :
    Strtol.number 16 (hexDigits width n) = n % 16 ^ width := by
  induction width generalizing n with
  | zero =>
      rw [pow_zero, Nat.mod_one]
      rfl
  | succ width ih =>
      unfold Strtol.number at ih ⊢
      rw [hexDigits, List.reverse_append, List.reverse_singleton, List.singleton_append,
        Nat.ofDigits_cons, ih, Nat.pow_succ', Nat.mod_mul]

/-- **A printed number is read back.** -/
theorem hexNumeral_hexText (x : BitVec 32) : Strtol.HexNumeral (hexText x) x := by
  have hlength : ((hexDigits 8 x.toNat).map hexDigit).length = 8 := by
    rw [List.length_map, length_hexDigits]
  have hdigits : Strtol.Digits 16 ((hexDigits 8 x.toNat).map hexDigit) (hexDigits 8 x.toNat) := by
    unfold Strtol.Digits
    rw [List.forall₂_map_left_iff]
    apply List.forall₂_same.mpr
    intro d hd
    exact digitOf_hexDigit (hexDigits_lt hd)
  refine .mk rfl (List.ne_nil_of_length_pos (by omega)) hlength.le hdigits ?_
  rw [number_hexDigits]
  exact (Nat.mod_eq_of_lt x.isLt).symm

/-! ## Lines -/

/-- `\n`, and the blank between columns. -/
def newline : UInt8 := 10

def blank : UInt8 := 32

/-- A text with a newline behind each line. -/
def lines (texts : List Bytes) : Bytes := texts.flatMap fun text => text ++ [newline]

@[simp] theorem lines_nil : lines [] = [] := rfl

@[simp] theorem lines_cons (text : Bytes) (texts : List Bytes) :
    lines (text :: texts) = text ++ newline :: lines texts := by
  rw [lines, List.flatMap_cons, List.append_assoc]
  rfl

/-- **A word on each line** is read back, whatever whitespace is in front of the first one. -/
theorem words_lines {words : List Bytes} (hwords : ∀ word ∈ words, IsWord word) {space : Bytes}
    (hspace : ∀ b ∈ space, isspace b) : Words words (space ++ lines words) := by
  induction words generalizing space with
  | nil =>
      rw [lines_nil, List.append_nil]
      exact .nil hspace
  | cons word words ih =>
      have hrest : Words words ([newline] ++ lines words) := by
        apply ih fun w hw => hwords w (List.mem_cons_of_mem _ hw)
        intro b hb
        rw [List.mem_singleton.mp hb]
        rfl
      rw [lines_cons]
      exact .cons hspace (hwords word List.mem_cons_self)
        (fun b hb => by cases hb; rfl) hrest

/-! ## Columns -/

/-- What stands in front of the first blank of each line; at the beginning of a line, or behind its
first blank. -/
def firstColumnFrom : Bool → Bytes → Bytes
  | _, [] => []
  | atStart, b :: bs =>
    if b = newline then newline :: firstColumnFrom true bs
    else if atStart then
      if b = blank then firstColumnFrom false bs else b :: firstColumnFrom true bs
    else firstColumnFrom false bs

def firstColumn (text : Bytes) : Bytes := firstColumnFrom true text

/-- What stands behind it. -/
def otherColumnsFrom : Bool → Bytes → Bytes
  | _, [] => []
  | atStart, b :: bs =>
    if b = newline then newline :: otherColumnsFrom true bs
    else if atStart then otherColumnsFrom (decide (b ≠ blank)) bs
    else b :: otherColumnsFrom false bs

def otherColumns (text : Bytes) : Bytes := otherColumnsFrom true text

/-- A line with a word in its first column. -/
def withColumn (word text : Bytes) : Bytes := word ++ blank :: text

theorem not_mem_word {word : Bytes} (hword : IsWord word) : newline ∉ word ∧ blank ∉ word := by
  constructor
  · intro h
    cases hword.not_space _ h
  · intro h
    cases hword.not_space _ h

theorem firstColumn_line {word text : Bytes} (hword : IsWord word) (htext : newline ∉ text)
    (rest : Bytes) :
    firstColumn (withColumn word text ++ newline :: rest) = word ++ newline :: firstColumn rest := by
  have hskip : ∀ text : Bytes, newline ∉ text →
      firstColumnFrom false (text ++ newline :: rest) = newline :: firstColumnFrom true rest := by
    intro text htext
    induction text with
    | nil => rfl
    | cons b text ih =>
        rw [List.mem_cons, not_or] at htext
        rw [List.cons_append, firstColumnFrom, if_neg (Ne.symm htext.1), if_neg (by decide),
          ih htext.2]
  obtain ⟨hline, hblank⟩ := not_mem_word hword
  clear hword
  unfold firstColumn withColumn
  induction word with
  | nil =>
      rw [List.nil_append, List.cons_append, firstColumnFrom, if_neg (by decide), if_pos rfl,
        if_pos rfl, hskip text htext]
      rfl
  | cons b word ih =>
      rw [List.mem_cons, not_or] at hline hblank
      rw [List.cons_append, List.cons_append, firstColumnFrom, if_neg (Ne.symm hline.1), if_pos rfl,
        if_neg (Ne.symm hblank.1), ih hline.2 hblank.2]
      rfl

theorem otherColumns_line {word text : Bytes} (hword : IsWord word) (htext : newline ∉ text)
    (rest : Bytes) :
    otherColumns (withColumn word text ++ newline :: rest)
      = text ++ newline :: otherColumns rest := by
  have hkeep : ∀ text : Bytes, newline ∉ text →
      otherColumnsFrom false (text ++ newline :: rest)
        = text ++ newline :: otherColumnsFrom true rest := by
    intro text htext
    induction text with
    | nil => rfl
    | cons b text ih =>
        rw [List.mem_cons, not_or] at htext
        rw [List.cons_append, otherColumnsFrom, if_neg (Ne.symm htext.1), if_neg (by decide),
          ih htext.2]
        rfl
  obtain ⟨hline, hblank⟩ := not_mem_word hword
  clear hword
  unfold otherColumns withColumn
  induction word with
  | nil =>
      rw [List.nil_append, List.cons_append, otherColumnsFrom, if_neg (by decide), if_pos rfl]
      exact hkeep text htext
  | cons b word ih =>
      rw [List.mem_cons, not_or] at hline hblank
      rw [List.cons_append, List.cons_append, otherColumnsFrom, if_neg (Ne.symm hline.1),
        if_pos rfl, decide_eq_true (Ne.symm hblank.1)]
      exact ih hline.2 hblank.2

/-- **Taking the columns apart** gives back the words and the rests of the lines. -/
theorem columns_lines {words texts : List Bytes} (hlength : words.length = texts.length)
    (hwords : ∀ word ∈ words, IsWord word) (htexts : ∀ text ∈ texts, newline ∉ text) :
    firstColumn (lines (List.zipWith withColumn words texts)) = lines words ∧
      otherColumns (lines (List.zipWith withColumn words texts)) = lines texts := by
  induction words generalizing texts with
  | nil =>
      rw [List.length_eq_zero_iff.mp hlength.symm]
      exact ⟨rfl, rfl⟩
  | cons word words ih =>
      obtain ⟨text, texts, rfl⟩ :=
        List.exists_cons_of_length_pos (by rw [← hlength]; exact Nat.succ_pos _)
      obtain ⟨hfirst, hother⟩ := ih (Nat.succ_injective hlength)
        (fun w hw => hwords w (List.mem_cons_of_mem _ hw))
        (fun t ht => htexts t (List.mem_cons_of_mem _ ht))
      have hword := hwords word List.mem_cons_self
      have htext := htexts text List.mem_cons_self
      rw [List.zipWith_cons_cons, lines_cons, lines_cons, lines_cons,
        firstColumn_line hword htext, otherColumns_line hword htext, hfirst, hother]
      exact ⟨rfl, rfl⟩

/-! ## Columns of a fixed width -/

section FixedWidth

variable {word text rest space : Bytes} {words : List Bytes} {columns : List (Nat × Bytes)}

theorem words_cons_iff : Words (word :: words) text ↔ ∃ rest, text.dropWhile isspace = word ++ rest ∧
    IsWord word ∧ (∀ b ∈ rest.head?, isspace b) ∧ Words words rest := by
  constructor
  · exact Scanf.Words.dropWhile_cons
  · rintro ⟨rest, hdrop, hword, hend, hrest⟩
    rw [← List.takeWhile_append_dropWhile (p := isspace) (l := text), hdrop]
    exact .cons (fun b hb => List.mem_takeWhile_imp hb) hword hend hrest

/-- Whitespace in front does not matter. -/
theorem words_space_append (hspace : ∀ b ∈ space, isspace b) :
    Words words (space ++ text) ↔ Words words text := by
  cases words with
  | cons word words => rw [words_cons_iff, words_cons_iff, List.dropWhile_append_of_pos hspace]
  | nil =>
      constructor
      · rintro ⟨hall⟩
        exact .nil fun b hb => hall b (List.mem_append_right _ hb)
      · rintro ⟨hall⟩
        exact .nil fun b hb => (List.mem_append.mp hb).elim (hspace b) (hall b)

theorem words_word_append (hword : IsWord word) : Words (word :: words) (word ++ rest) ↔
    (∀ b ∈ rest.head?, isspace b) ∧ Words words rest := by
  have hnone : ∀ b ∈ ([] : Bytes), isspace b := by simp
  have hdrop : (word ++ rest).dropWhile isspace = word ++ rest :=
    Scanf.dropWhile_word hnone hword rest
  rw [words_cons_iff, hdrop]
  constructor
  · rintro ⟨rest', heq, -, hend⟩
    rwa [List.append_cancel_left heq]
  · intro hend
    exact ⟨rest, rfl, hword, hend⟩

/-- `"%-<width>s"`: a word, filled up with blanks. -/
def column (width : Nat) (word : Bytes) : Bytes :=
  word ++ List.replicate (width - word.length) blank

/-- The words of a row, in their columns. -/
def row (columns : List (Nat × Bytes)) : Bytes :=
  (columns.flatMap fun c => column c.1 c.2) ++ [newline]

/-- Every word but the last one is narrower than its column. -/
def Narrow (columns : List (Nat × Bytes)) : Prop := ∀ c ∈ columns.dropLast, c.2.length < c.1

instance (columns : List (Nat × Bytes)) : Decidable (Narrow columns) :=
  inferInstanceAs (Decidable (∀ c ∈ columns.dropLast, c.2.length < c.1))

theorem isspace_blanks (n : Nat) : ∀ b ∈ List.replicate n blank, isspace b := by
  intro b hb
  rw [List.eq_of_mem_replicate hb]
  rfl

theorem row_cons (c : Nat × Bytes) (columns : List (Nat × Bytes)) :
    row (c :: columns) = c.2 ++ (List.replicate (c.1 - c.2.length) blank ++ row columns) := by
  rw [row, List.flatMap_cons, column, List.append_assoc, List.append_assoc]
  rfl

theorem narrow_cons_cons (c c' : Nat × Bytes) (columns : List (Nat × Bytes)) :
    Narrow (c :: c' :: columns) ↔ c.2.length < c.1 ∧ Narrow (c' :: columns) := by
  rw [Narrow, List.dropLast_cons_of_ne_nil (List.cons_ne_nil _ _), List.forall_mem_cons]
  rfl

/-- **A row** consists of its words exactly if they are narrow; otherwise two of them run together. -/
theorem words_row (hwords : ∀ c ∈ columns, IsWord c.2) :
    Words (columns.map Prod.snd ++ words) (row columns ++ rest) ↔
      Narrow columns ∧ Words words rest := by
  induction columns with
  | nil =>
      show Words words ([newline] ++ rest) ↔ _
      rw [words_space_append fun b hb => by rw [List.mem_singleton.mp hb]; rfl]
      exact (and_iff_right fun c hc => absurd hc List.not_mem_nil).symm
  | cons c columns ih =>
      have hrest := ih fun c hc => hwords c (List.mem_cons_of_mem _ hc)
      rw [row_cons, List.map_cons, List.cons_append, List.append_assoc, List.append_assoc,
        words_word_append (hwords c List.mem_cons_self), words_space_append (isspace_blanks _),
        hrest, ← and_assoc]
      refine and_congr_left fun _ => ?_
      cases columns with
      | nil =>
          -- the newline ends the last word
          refine iff_of_true ⟨fun b hb => ?_, fun c hc => absurd hc List.not_mem_nil⟩
            fun c hc => absurd hc List.not_mem_nil
          cases hwidth : c.1 - c.2.length with
          | zero =>
              rw [hwidth] at hb
              cases hb
              rfl
          | succ n =>
              rw [hwidth] at hb
              cases hb
              rfl
      | cons c' columns =>
          rw [narrow_cons_cons]
          refine and_congr_left fun _ => ?_
          cases hwidth : c.1 - c.2.length with
          | zero =>
              have hword := hwords c' (List.mem_cons_of_mem _ List.mem_cons_self)
              obtain ⟨b, bs, hb⟩ := List.exists_cons_of_ne_nil hword.ne_nil
              rw [row_cons, hb]
              constructor
              · intro hspace
                have hyes := hspace b rfl
                have hno := hword.not_space b (by rw [hb]; exact List.mem_cons_self)
                rw [hno] at hyes
                cases hyes
              · intro hlt
                omega
          | succ n =>
              refine iff_of_true (fun b hb => ?_) (by omega)
              cases hb
              rfl

/-- **A table** consists of the words of its rows exactly if all rows are narrow. -/
theorem words_rows {rows : List (List (Nat × Bytes))}
    (hwords : ∀ columns ∈ rows, ∀ c ∈ columns, IsWord c.2) :
    Words ((rows.flatMap fun columns => columns.map Prod.snd) ++ words)
      (rows.flatMap row ++ rest) ↔ (∀ columns ∈ rows, Narrow columns) ∧ Words words rest := by
  induction rows with
  | nil => simp
  | cons columns rows ih =>
      rw [List.flatMap_cons, List.flatMap_cons, List.append_assoc, List.append_assoc,
        words_row (hwords columns List.mem_cons_self),
        ih fun columns hmem => hwords columns (List.mem_cons_of_mem _ hmem),
        List.forall_mem_cons, and_assoc]

end FixedWidth

end PrintedText
