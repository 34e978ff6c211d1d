import Mathlib
import Cs342.Library.ByteBuffer

/-!
# C strings

A C string is its characters, any bytes but NUL: the terminator delimits it and is not part of
it. Besides `strlen`, the bytes `strcpy` writes and the read back of a stored string, this is the
order of `strcmp`, which on NUL-free strings is a linear order.
-/

open ByteBuffer

/-- The characters of a C string. -/
structure CString where
  bytes : Bytes
  nul_free : 0 ∉ bytes
  deriving DecidableEq

namespace CString

@[ext] theorem ext {s t : CString} (h : s.bytes = t.bytes) : s = t := by
  cases s; cases t; simpa using h

/-- `strlen`. -/
def strlen (s : CString) : Nat := s.bytes.length

/-- The characters as they are printed. -/
def text (s : CString) : String := String.ofList (s.bytes.map fun b => Char.ofNat b.toNat)

/-- What `strcpy` writes: the characters and the terminating NUL. -/
def stored (s : CString) : Bytes := s.bytes ++ [0]

@[simp] theorem length_stored (s : CString) : s.stored.length = s.strlen + 1 := by
  simp [stored, strlen]

/-- The string that starts a byte array: everything before its first NUL. -/
def ofBytes (bs : Bytes) : CString where
  bytes := bs.takeWhile (· ≠ 0)
  nul_free := by
    intro h
    simpa using List.mem_takeWhile_imp h

theorem bytes_ofBytes {bs : Bytes} (h : 0 ∉ bs) : (ofBytes bs).bytes = bs := by
  show bs.takeWhile (· ≠ 0) = bs
  rw [List.takeWhile_eq_self_iff]
  intro b hb
  have : b ≠ 0 := fun h0 => h (h0 ▸ hb)
  simpa using this

/-- Up to the NUL that ends it, a stored string is the string. -/
theorem ofBytes_stored (s : CString) (rest : Bytes) : ofBytes (s.stored ++ rest) = s := by
  apply ext
  show (s.bytes ++ [0] ++ rest).takeWhile (· ≠ 0) = s.bytes
  rw [List.append_assoc, List.takeWhile_append_of_pos]
  · simp
  · intro b hb
    have : b ≠ 0 := fun h0 => s.nul_free (h0 ▸ hb)
    simpa using this

/-- The string at `&buf[off]`. Its reader walks to the first NUL, so one must be in `buf`. -/
def load (buf : Bytes) (off : Nat) : Outcome CString :=
  if 0 ∈ buf.drop off then .ok (ofBytes (buf.drop off)) else .undefined

/-- **String round trip**: a stored string is loaded back, whatever follows it. -/
theorem load_stored {buf rest : Bytes} {off : Nat} {s : CString}
    (h : buf.drop off = s.stored ++ rest) : load buf off = .ok s := by
  unfold load
  rw [h, ofBytes_stored, if_pos]
  simp [stored]

/-! ## `strcmp` -/

/-- The comparison loop of `strcmp`: the difference of the first bytes that differ, as unsigned
chars, the terminator counting as zero. -/
def compareBytes : Bytes → Bytes → Int
  | [], [] => 0
  | [], b :: _ => -(b.toNat : Int)
  | a :: _, [] => a.toNat
  | a :: as, b :: bs => if a = b then compareBytes as bs else (a.toNat : Int) - b.toNat

/-- `strcmp`. -/
def strcmp (s t : CString) : Int := compareBytes s.bytes t.bytes

theorem compareBytes_self (as : Bytes) : compareBytes as as = 0 := by
  induction as with
  | nil => rfl
  | cons a as ih => simp [compareBytes, ih]

theorem compareBytes_swap (as bs : Bytes) : compareBytes bs as = -compareBytes as bs := by
  induction as generalizing bs with
  | nil => cases bs <;> simp [compareBytes]
  | cons a as ih =>
      cases bs with
      | nil => simp [compareBytes]
      | cons b bs =>
          by_cases h : a = b
          · subst h; simpa [compareBytes] using ih bs
          · simp only [compareBytes, if_neg h, if_neg (Ne.symm h)]; omega

private theorem toNat_pos {b : UInt8} {bs : Bytes} (h : 0 ∉ b :: bs) : 0 < b.toNat := by
  rcases Nat.eq_zero_or_pos b.toNat with h0 | hpos
  · exact absurd (List.mem_cons.mpr (Or.inl (UInt8.toNat_inj.mp h0).symm)) h
  · exact hpos

private theorem nul_free_tail {b : UInt8} {bs : Bytes} (h : 0 ∉ b :: bs) : 0 ∉ bs :=
  fun hb => h (List.mem_cons_of_mem _ hb)

private theorem eq_of_compareBytes {as bs : Bytes} (ha : 0 ∉ as) (hb : 0 ∉ bs)
    (h : compareBytes as bs = 0) : as = bs := by
  induction as generalizing bs with
  | nil =>
      cases bs with
      | nil => rfl
      | cons b bs => have := toNat_pos hb; simp only [compareBytes] at h; omega
  | cons a as ih =>
      cases bs with
      | nil => have := toNat_pos ha; simp only [compareBytes] at h; omega
      | cons b bs =>
          by_cases hab : a = b
          · subst hab
            rw [compareBytes, if_pos rfl] at h
            rw [ih (nul_free_tail ha) (nul_free_tail hb) h]
          · rw [compareBytes, if_neg hab] at h
            exact absurd (UInt8.toNat_inj.mp (by omega)) hab

private theorem compareBytes_trans {as bs cs : Bytes} (ha : 0 ∉ as) (hb : 0 ∉ bs)
    (hc : 0 ∉ cs) (h₁ : compareBytes as bs ≤ 0) (h₂ : compareBytes bs cs ≤ 0) :
    compareBytes as cs ≤ 0 := by
  induction as generalizing bs cs with
  | nil => cases cs <;> simp [compareBytes]
  | cons a as ih =>
      cases bs with
      | nil => have := toNat_pos ha; simp only [compareBytes] at h₁; omega
      | cons b bs =>
          cases cs with
          | nil => have := toNat_pos hb; simp only [compareBytes] at h₂; omega
          | cons c cs =>
              have hlt : ∀ {x y : UInt8}, x ≠ y → x.toNat ≠ y.toNat :=
                fun hne he => hne (UInt8.toNat_inj.mp he)
              by_cases hab : a = b
              · subst hab
                by_cases hac : a = c
                · subst hac
                  rw [compareBytes, if_pos rfl] at h₁ h₂ ⊢
                  exact ih (nul_free_tail ha) (nul_free_tail hb) (nul_free_tail hc) h₁ h₂
                · rwa [compareBytes, if_neg hac] at h₂ ⊢
              · rw [compareBytes, if_neg hab] at h₁
                have := hlt hab
                by_cases hbc : b = c
                · subst hbc
                  rw [compareBytes, if_neg hab]; exact h₁
                · rw [compareBytes, if_neg hbc] at h₂
                  have hne : a ≠ c := by rintro rfl; have := hlt hbc; omega
                  rw [compareBytes, if_neg hne]; omega

/-- Two strings compare equal exactly when they are the same. -/
theorem strcmp_eq_zero {s t : CString} : strcmp s t = 0 ↔ s = t := by
  constructor
  · intro h; exact ext (eq_of_compareBytes s.nul_free t.nul_free h)
  · rintro rfl; exact compareBytes_self s.bytes

theorem strcmp_total (s t : CString) : strcmp s t ≤ 0 ∨ strcmp t s ≤ 0 := by
  have := compareBytes_swap s.bytes t.bytes
  unfold strcmp
  omega

theorem strcmp_trans {s t u : CString} (h₁ : strcmp s t ≤ 0) (h₂ : strcmp t u ≤ 0) :
    strcmp s u ≤ 0 :=
  compareBytes_trans s.nul_free t.nul_free u.nul_free h₁ h₂

theorem strcmp_antisymm {s t : CString} (h₁ : strcmp s t ≤ 0) (h₂ : strcmp t s ≤ 0) : s = t := by
  have := compareBytes_swap s.bytes t.bytes
  unfold strcmp at h₁ h₂
  exact strcmp_eq_zero.mp (by unfold strcmp; omega)

end CString
