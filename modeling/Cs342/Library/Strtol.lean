import Mathlib
import Cs342.Library.Scanf

/-!
# Integer constants in strings (`strtol` with base 0)

The base is taken from the prefix, as in a C program: `0x` in front of a hexadecimal digit, a `0`
otherwise for octal numbers, and decimal digits without either. A `long` has 64 bits, and what is
out of its range is converted to the nearest one. A 32-bit number in hexadecimal digits is converted
to itself (`strtol_hex`), and that as an `int` to the number with the same bits.
-/

namespace Strtol

open ByteBuffer (Bytes)

/-! ## Digits -/

/-- The value of a digit or letter. -/
def digitValue (b : UInt8) : Option Nat :=
  if 48 ≤ b ∧ b ≤ 57 then some (b.toNat - 48)
  else if 97 ≤ b ∧ b ≤ 122 then some (b.toNat - 87)
  else if 65 ≤ b ∧ b ≤ 90 then some (b.toNat - 55)
  else none

/-- The value of a digit of a base. -/
def digitOf (base : Nat) (b : UInt8) : Option Nat := (digitValue b).filter fun d => d < base

/-- The digits that a string starts with. -/
def takeDigits (base : Nat) : Bytes → List Nat
  | [] => []
  | b :: bs =>
    match digitOf base b with
    | some d => d :: takeDigits base bs
    | none => []

/-- The number that digits stand for, the first one first. -/
def number (base : Nat) (digits : List Nat) : Nat := Nat.ofDigits base digits.reverse

/-! ## The conversion -/

/-- `x` or `X`. -/
def isHexMark (b : UInt8) : Bool := b = 120 || b = 88

/-- The base that the prefix of a number says, and the number behind it. -/
def detectBase : Bytes → Nat × Bytes
  | b :: mark :: digit :: rest =>
    if b = 48 then
      if isHexMark mark && (digitOf 16 digit).isSome then (16, digit :: rest)
      else (8, b :: mark :: digit :: rest)
    else (10, b :: mark :: digit :: rest)
  | b :: rest => if b = 48 then (8, b :: rest) else (10, b :: rest)
  | [] => (10, [])

/-- `strtol(str, NULL, 0)`. -/
def strtol (str : CString) : Int :=
  let (negative, rest) := Scanf.takeSign (str.bytes.dropWhile Scanf.isspace)
  let (base, rest) := detectBase rest
  let n : Int := number base (takeDigits base rest)
  max (-2 ^ 63) (min (2 ^ 63 - 1) (if negative then -n else n))

/-- `(int)strtol(str, NULL, 0)`. -/
def strtolInt (str : CString) : BitVec 32 := BitVec.ofInt 32 (strtol str)

/-! ## Hexadecimal numbers -/

/-- The digits of a number in some base. -/
def Digits (base : Nat) (bs : Bytes) (digits : List Nat) : Prop :=
  List.Forall₂ (fun b d => digitOf base b = some d) bs digits

/-- A number of 32 bits in hexadecimal: the prefix, and up to eight digits. -/
inductive HexNumeral : Bytes → BitVec 32 → Prop
  | mk {mark : UInt8} {bs : Bytes} {digits : List Nat} {x : BitVec 32} (hmark : isHexMark mark)
      (hne : bs ≠ []) (hlen : bs.length ≤ 8) (hdigits : Digits 16 bs digits)
      (hx : x.toNat = number 16 digits) : HexNumeral (48 :: mark :: bs) x

section Hex

variable {base d : Nat} {b mark : UInt8} {bs word : Bytes} {digits : List Nat} {x : BitVec 32}

/-- Digits and letters come behind whitespace, signs and NUL. -/
theorem le_of_digitOf (h : digitOf base b = some d) : 48 ≤ b := by
  obtain ⟨hvalue, -⟩ := Option.filter_eq_some_iff.mp h
  unfold digitValue at hvalue
  split at hvalue
  · next hb => exact hb.1
  · split at hvalue
    · next hb => exact UInt8.le_trans (show (48 : UInt8) ≤ 97 by decide) hb.1
    · split at hvalue
      · next hb => exact UInt8.le_trans (show (48 : UInt8) ≤ 65 by decide) hb.1
      · cases hvalue

theorem isspace_of_le (h : 48 ≤ b) : Scanf.isspace b = false := by
  rw [Scanf.isspace, Bool.or_eq_false_iff, Bool.and_eq_false_iff]
  refine ⟨decide_eq_false ?_, .inr (decide_eq_false ?_)⟩
  · rintro rfl
    exact absurd h (by decide)
  · exact fun hle => absurd (UInt8.le_trans h hle) (show ¬ (48 : UInt8) ≤ 13 by decide)

theorem le_of_isHexMark (h : isHexMark mark) : 48 ≤ mark := by
  rw [isHexMark, Bool.or_eq_true, decide_eq_true_eq, decide_eq_true_eq] at h
  rcases h with rfl | rfl <;> decide

theorem Digits.le (h : Digits base bs digits) : ∀ b ∈ bs, 48 ≤ b := by
  induction h with
  | nil => intro b hb; cases hb
  | cons hb _ ih =>
      intro c hc
      rcases List.mem_cons.mp hc with rfl | hc
      · exact le_of_digitOf hb
      · exact ih c hc

theorem takeDigits_eq (h : Digits base bs digits) : takeDigits base bs = digits := by
  induction h with
  | nil => rfl
  | cons hb _ ih => rw [takeDigits, hb, ih]

/-- A hexadecimal number is a word of at most ten characters. -/
theorem HexNumeral.isWord (h : HexNumeral word x) : Scanf.IsWord word ∧ word.length ≤ 10 := by
  cases h with
  | mk hmark hne hlen hdigits hx =>
      next mark bs digits =>
      have hle : ∀ b ∈ 48 :: mark :: bs, 48 ≤ b := by
        intro b hb
        rcases List.mem_cons.mp hb with rfl | hb
        · exact UInt8.le_refl 48
        · rcases List.mem_cons.mp hb with rfl | hb
          · exact le_of_isHexMark hmark
          · exact hdigits.le b hb
      refine ⟨⟨List.cons_ne_nil _ _, fun b hb => isspace_of_le (hle b hb), fun h0 => ?_⟩, ?_⟩
      · exact absurd (hle 0 h0) (by decide)
      · simp only [List.length_cons]
        omega

/-- **The value of a hexadecimal number** of 32 bits is no matter of signs or ranges. -/
theorem strtol_hex (h : HexNumeral word x) : strtol (CString.ofBytes word) = x.toNat := by
  have hbytes : (CString.ofBytes word).bytes = word := CString.bytes_ofBytes h.isWord.1.nul_free
  have hlt := x.isLt
  cases h with
  | mk hmark hne hlen hdigits hx =>
      next mark bs digits =>
      have hspace : (48 :: mark :: bs).dropWhile Scanf.isspace = 48 :: mark :: bs :=
        List.dropWhile_cons_of_neg (by decide)
      have hsign : Scanf.takeSign (48 :: mark :: bs) = (false, 48 :: mark :: bs) := rfl
      have hbase : detectBase (48 :: mark :: bs) = (16, bs) := by
        cases hdigits with
        | nil => exact absurd rfl hne
        | cons hb _ => rw [detectBase, if_pos rfl, hmark, hb]; rfl
      simp only [strtol, hbytes, hspace, hsign, hbase, takeDigits_eq hdigits, ← hx]
      rw [if_neg (by decide), min_eq_right (by omega), max_eq_right (by omega)]

/-- Its conversion to an int keeps the bits. -/
theorem strtolInt_hex (h : HexNumeral word x) : strtolInt (CString.ofBytes word) = x := by
  rw [strtolInt, strtol_hex h, BitVec.ofInt_natCast, BitVec.ofNat_toNat, BitVec.setWidth_eq]

end Hex

end Strtol
