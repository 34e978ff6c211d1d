import Mathlib
import Cs342.Library.Scanf

/-!
# Reading what was printed

Ints in decimal digits, as `printf` writes them with `%d`, and how `fscanf` reads a text of words:
a number is read back, whatever whitespace is in front of it (`takeNumber_decimalText`), literal
characters are matched with a word, and a scan that fails at its first character leaves the stream
at the word it has found there.
-/

namespace Scanf

open ByteBuffer (Bytes)

/-! ## Decimal digits -/

/-- The digits of a natural number. -/
def naturalText (n : Nat) : Bytes := (Nat.toDigits 10 n).map fun c => UInt8.ofNat c.toNat

/-- `"%d"`. -/
def decimalText (n : Int) : Bytes :=
  if n < 0 then 45 :: naturalText n.natAbs else naturalText n.natAbs

example : decimalText (-120) = [45, 49, 50, 48] := by decide

theorem toNat_digit {c : Char} (h : c.isDigit) : 48 ≤ c.toNat ∧ c.toNat ≤ 57 := by
  simpa [Char.isDigit, UInt32.le_iff_toNat_le] using h

theorem toNat_ofNat_digit {c : Char} (h : c.isDigit) : (UInt8.ofNat c.toNat).toNat = c.toNat := by
  have hc := toNat_digit h
  rw [UInt8.toNat_ofNat']
  omega

theorem isDigit_toDigits {n : Nat} {c : Char} (h : c ∈ Nat.toDigits 10 n) : c.isDigit :=
  Nat.isDigit_of_mem_toDigits (by norm_num) (by norm_num) h

theorem naturalText_ne_nil (n : Nat) : naturalText n ≠ [] := by
  rw [naturalText, Ne, List.map_eq_nil_iff]
  exact Nat.toDigits_ne_nil

theorem isdigit_naturalText {n : Nat} {b : UInt8} (h : b ∈ naturalText n) : isdigit b = true := by
  obtain ⟨c, hc, rfl⟩ := List.mem_map.mp h
  have hdigit := isDigit_toDigits hc
  have hrange := toNat_digit hdigit
  rw [isdigit, Bool.and_eq_true, decide_eq_true_eq, decide_eq_true_eq, UInt8.le_iff_toNat_le,
    UInt8.le_iff_toNat_le, toNat_ofNat_digit hdigit]
  exact hrange

/-- The digits stand for the number. -/
theorem decimal_naturalText (n : Nat) : decimal (naturalText n) = n := by
  have hfold : ∀ (cs : List Char) (m : Nat), (∀ c ∈ cs, c.isDigit) →
      (cs.map fun c => UInt8.ofNat c.toNat).foldl (fun n b => 10 * n + (b.toNat - 48)) m
        = Nat.ofDigitChars 10 cs m := by
    intro cs
    induction cs with
    | nil => intro m _; rfl
    | cons c cs ih =>
        intro m hcs
        rw [List.map_cons, List.foldl_cons, toNat_ofNat_digit (hcs c List.mem_cons_self),
          ih _ fun d hd => hcs d (List.mem_cons_of_mem _ hd), Nat.ofDigitChars_cons]
        rfl
  rw [decimal, naturalText, hfold _ 0 fun c hc => isDigit_toDigits hc]
  exact Nat.ofDigitChars_ten_toDigits

/-! ## Numbers -/

section Numbers

variable {b : UInt8} {space rest : Bytes}

theorem isdigit_of_isspace (h : isspace b = true) : isdigit b = false := by
  rw [isspace, Bool.or_eq_true, Bool.and_eq_true, decide_eq_true_eq, decide_eq_true_eq,
    decide_eq_true_eq] at h
  rw [isdigit, Bool.and_eq_false_iff]
  refine .inl (decide_eq_false ?_)
  rcases h with rfl | ⟨-, h⟩
  · decide
  · exact fun hb => absurd (UInt8.le_trans hb h) (by decide)

theorem isspace_of_isdigit (h : isdigit b = true) : isspace b = false := by
  cases hspace : isspace b with
  | false => rfl
  | true =>
      rw [isdigit_of_isspace hspace] at h
      cases h

/-- No sign is taken from digits. -/
theorem takeSign_of_isdigit (h : isdigit b = true) (bs : Bytes) :
    takeSign (b :: bs) = (false, b :: bs) := by
  rw [takeSign, if_neg, if_neg]
  · rintro rfl
    cases h
  · rintro rfl
    cases h

theorem takeSign_decimalText (n : Int) (rest : Bytes) :
    takeSign (decimalText n ++ rest) = (decide (n < 0), naturalText n.natAbs ++ rest) := by
  rw [decimalText]
  split
  · next hneg => simp [takeSign, hneg]
  · next hpos =>
      obtain ⟨b, bs, hdigits⟩ := List.exists_cons_of_ne_nil (naturalText_ne_nil n.natAbs)
      have hb : isdigit b = true := isdigit_naturalText (hdigits ▸ List.mem_cons_self)
      rw [hdigits, List.cons_append, takeSign_of_isdigit hb, decide_eq_false hpos]

/-- A number is a word. -/
theorem isWord_decimalText (n : Int) : IsWord (decimalText n) := by
  have hdigits : ∀ b ∈ naturalText n.natAbs, isspace b = false :=
    fun b hb => isspace_of_isdigit (isdigit_naturalText hb)
  have hnul : 0 ∉ naturalText n.natAbs := by
    intro h
    cases isdigit_naturalText h
  rw [decimalText]
  split
  · refine ⟨List.cons_ne_nil _ _, fun b hb => ?_, ?_⟩
    · rcases List.mem_cons.mp hb with rfl | hb
      · decide
      · exact hdigits b hb
    · rw [List.mem_cons, not_or]
      exact ⟨by decide, hnul⟩
  · exact ⟨naturalText_ne_nil _, hdigits, hnul⟩

/-- **A printed number is read back**, up to what follows its digits. -/
theorem takeNumber_decimalText (n : Int) (hspace : ∀ b ∈ space, isspace b)
    (hend : ∀ b ∈ rest.head?, isdigit b = false) :
    takeNumber (space ++ (decimalText n ++ rest)) = (some n, rest) := by
  have hdrop := dropWhile_word hspace (isWord_decimalText n) rest
  have hstop : rest.takeWhile isdigit = [] ∧ rest.dropWhile isdigit = rest := by
    cases rest with
    | nil => exact ⟨rfl, rfl⟩
    | cons b rest =>
        have hb : isdigit b = false := hend b rfl
        exact ⟨List.takeWhile_cons_of_neg (by rw [hb]; decide),
          List.dropWhile_cons_of_neg (by rw [hb]; decide)⟩
  simp only [takeNumber, hdrop, takeSign_decimalText]
  rw [List.takeWhile_append_of_pos fun b hb => isdigit_naturalText hb,
    List.dropWhile_append_of_pos fun b hb => isdigit_naturalText hb, hstop.1, hstop.2,
    List.append_nil, if_neg (naturalText_ne_nil _), decimal_naturalText]
  congr 2
  split
  · next hneg =>
      rw [decide_eq_true_eq] at hneg
      omega
  · next hpos =>
      rw [decide_eq_true_eq] at hpos
      omega

/-- Different numbers are printed differently. -/
theorem decimalText_injective : Function.Injective decimalText := by
  intro m n h
  have hread : ∀ n, takeNumber (decimalText n) = (some n, []) := by
    intro n
    have hnumber : takeNumber ([] ++ (decimalText n ++ [])) = (some n, []) :=
      takeNumber_decimalText n (by simp) (by simp)
    rwa [List.nil_append, List.append_nil] at hnumber
  have hboth := hread m
  rw [h, hread n] at hboth
  exact (Option.some.inj (Prod.mk.inj hboth).1).symm

/-- No number has whitespace in it. -/
theorem not_mem_decimalText (n : Int) (hb : isspace b = true) : b ∉ decimalText n := by
  intro h
  rw [(isWord_decimalText n).not_space b h] at hb
  cases hb

/-- Numbers in a row, each with a blank behind it. -/
def decimalRow (ns : List Int) : Bytes := ns.flatMap fun n => decimalText n ++ [32]

example : decimalRow [7, -12] = [55, 32, 45, 49, 50, 32] := by decide

end Numbers

/-! ## Scanning a text of words -/

section Text

variable {stream word : Bytes} {words : List Bytes} {format : List Directive}

/-- Past the whitespace in front of it, a text starts with its first word. -/
theorem Words.dropWhile_cons (h : Words (word :: words) stream) :
    ∃ rest, stream.dropWhile isspace = word ++ rest ∧ IsWord word ∧
      (∀ b ∈ rest.head?, isspace b) ∧ Words words rest := by
  cases h with
  | cons hspace hword hend hrest =>
      exact ⟨_, dropWhile_word hspace hword _, hword, hend, hrest⟩

/-- Skipped whitespace leaves the same words. -/
theorem Words.dropWhile (h : Words (word :: words) stream) :
    Words (word :: words) (stream.dropWhile isspace) := by
  obtain ⟨rest, hdrop, hword, hend, hrest⟩ := h.dropWhile_cons
  rw [hdrop, ← List.nil_append (word ++ rest)]
  exact .cons (fun b hb => absurd hb List.not_mem_nil) hword hend hrest

theorem scan_literals (word rest : Bytes) :
    scan (word.map .literal ++ format) (word ++ rest) = scan format rest := by
  induction word with
  | nil => rfl
  | cons b word ih => rw [List.map_cons, List.cons_append, List.cons_append, scan, if_pos rfl, ih]

/-- A word is matched with its characters. -/
theorem scan_word (h : Words (word :: words) stream) :
    ∃ rest, Words words rest ∧ ∀ format : List Directive,
      scan (.space :: (word.map .literal ++ format)) stream = scan format rest := by
  obtain ⟨rest, hdrop, -, -, hrest⟩ := h.dropWhile_cons
  exact ⟨rest, hrest, fun format => by rw [scan, hdrop, scan_literals]⟩

/-- **A number** is converted, if it is an int. -/
theorem scan_number {n : Int} (h : Words (decimalText n :: words) stream)
    (hn : -2 ^ 31 ≤ n ∧ n < 2 ^ 31) :
    ∃ rest, Words words rest ∧ ∀ format : List Directive,
      scan (.space :: .int :: format) stream
        = scan format rest >>= fun p => .ok (n :: p.1, p.2) := by
  obtain ⟨rest, hdrop, -, hend, hrest⟩ := h.dropWhile_cons
  refine ⟨rest, hrest, fun format => ?_⟩
  have hnumber : takeNumber (stream.dropWhile isspace) = (some n, rest) := by
    rw [hdrop, ← List.nil_append (decimalText n ++ rest)]
    exact takeNumber_decimalText n (fun b hb => absurd hb List.not_mem_nil)
      fun b hb => isdigit_of_isspace (hend b hb)
  rw [scan, scan, hnumber]
  dsimp only
  rw [toInt, if_pos hn]
  rfl

/-- **A scan that fails at once** has only skipped whitespace. -/
theorem scan_mismatch {c b : UInt8} (h : Words ((c :: word) :: words) stream) (hne : c ≠ b) :
    ∃ rest, Words ((c :: word) :: words) rest ∧ ∀ format : List Directive,
      scan (.space :: .literal b :: format) stream = .ok ([], rest) := by
  refine ⟨stream.dropWhile isspace, h.dropWhile, fun format => ?_⟩
  obtain ⟨rest, hdrop, -⟩ := h.dropWhile_cons
  rw [scan, hdrop, List.cons_append, scan, if_neg hne]

theorem scan_end {b : UInt8} (h : Words [] stream) :
    scan (.space :: .literal b :: format) stream = .ok ([], []) := by
  cases h with
  | nil hspace =>
      rw [scan, List.dropWhile_eq_nil_iff.mpr hspace]
      rfl

end Text

end Scanf
