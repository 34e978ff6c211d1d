import Mathlib
import Cs342.Library.Outcome

/-!
# Byte buffers and little-endian ints

The memory a C program formats messages in: a buffer is a list of bytes, a store at an offset
is defined only if it stays inside, and a 32-bit int is four bytes, least significant first. The
laws are the ones an encoder and a decoder need: a store between a written prefix and an
untouched suffix, and a load of what was stored, whatever follows it. A 16-bit short is two bytes in
the same order. What ints and shorts are loaded as is the number that their bytes are the digits of
(`loadInt_eq`, `loadShort_eq`).
-/

namespace ByteBuffer

abbrev Bytes := List UInt8

/-! ## Stores -/

/-- `memcpy` of `bs` to `&buf[off]`, undefined as soon as one byte falls outside `buf`. -/
def store (buf : Bytes) (off : Nat) (bs : Bytes) : Outcome Bytes :=
  if off + bs.length ≤ buf.length then
    .ok (buf.take off ++ bs ++ buf.drop (off + bs.length))
  else
    .undefined

/-- A store over the middle part of a buffer replaces exactly that part. -/
theorem store_middle {pre old post bs : Bytes} (h : bs.length = old.length) :
    store (pre ++ old ++ post) pre.length bs = .ok (pre ++ bs ++ post) := by
  unfold store
  have hlen : pre.length + bs.length ≤ (pre ++ old ++ post).length := by
    simp only [List.length_append]; omega
  have hdrop : (pre ++ old ++ post).drop (pre.length + bs.length) = post := by
    rw [h, ← List.length_append, List.drop_left]
  have htake : (pre ++ old ++ post).take pre.length = pre := by
    rw [List.append_assoc, List.take_left]
  rw [if_pos hlen, hdrop, htake]

/-- A store at the start of a buffer that is long enough. -/
theorem store_start {buf bs : Bytes} (h : bs.length ≤ buf.length) :
    store buf 0 bs = .ok (bs ++ buf.drop bs.length) := by
  unfold store
  rw [Nat.zero_add, if_pos h, List.take_zero, List.nil_append]

/-- A store at the start of the zeroed rest of a buffer eats as many zeros as it writes. -/
theorem store_zeros {pre bs : Bytes} {n : Nat} (h : bs.length ≤ n) :
    store (pre ++ List.replicate n 0) pre.length bs =
      .ok (pre ++ bs ++ List.replicate (n - bs.length) 0) := by
  have hsplit : pre ++ List.replicate n 0
      = pre ++ List.replicate bs.length 0 ++ List.replicate (n - bs.length) 0 := by
    rw [List.append_assoc, List.replicate_append_replicate, Nat.add_sub_cancel' h]
  rw [hsplit]
  exact store_middle (by simp)

/-! ## Loads -/

/-- `len` bytes from `&buf[off]` on, undefined as soon as one of them falls outside `buf`. -/
def load (buf : Bytes) (off len : Nat) : Outcome Bytes :=
  if off + len ≤ buf.length then .ok ((buf.drop off).take len) else .undefined

/-! ## Ints -/

/-- `sizeof(int)`. -/
def intSize : Nat := 4

/-- The four bytes of an int, least significant first. -/
def intBytes (x : BitVec 32) : Bytes :=
  [UInt8.ofNat x.toNat, UInt8.ofNat (x.toNat / 256), UInt8.ofNat (x.toNat / 65536),
    UInt8.ofNat (x.toNat / 16777216)]

@[simp] theorem length_intBytes (x : BitVec 32) : (intBytes x).length = intSize := rfl

/-- The int that four bytes hold. -/
def intOfBytes (b₀ b₁ b₂ b₃ : UInt8) : BitVec 32 :=
  BitVec.ofNat 32 (b₀.toNat + 256 * b₁.toNat + 65536 * b₂.toNat + 16777216 * b₃.toNat)

/-- `*(int*)&buf[off]`. -/
def loadInt (buf : Bytes) (off : Nat) : Outcome (BitVec 32) :=
  match buf.drop off with
  | b₀ :: b₁ :: b₂ :: b₃ :: _ => .ok (intOfBytes b₀ b₁ b₂ b₃)
  | _ => .undefined

/-- The bytes of an int hold that int. -/
theorem intOfBytes_intBytes (x : BitVec 32) :
    intOfBytes (UInt8.ofNat x.toNat) (UInt8.ofNat (x.toNat / 256))
      (UInt8.ofNat (x.toNat / 65536)) (UInt8.ofNat (x.toNat / 16777216)) = x := by
  apply BitVec.eq_of_toNat_eq
  have hx : x.toNat < 4294967296 := x.isLt
  simp only [intOfBytes, BitVec.toNat_ofNat, UInt8.toNat_ofNat']
  omega

/-- **Int round trip**: a stored int is loaded back, whatever follows it. -/
theorem loadInt_intBytes {buf rest : Bytes} {off : Nat} {x : BitVec 32}
    (h : buf.drop off = intBytes x ++ rest) : loadInt buf off = .ok x := by
  unfold loadInt
  rw [h]
  exact congrArg Outcome.ok (intOfBytes_intBytes x)

/-- An int can be loaded wherever its four bytes are inside. -/
theorem exists_loadInt {buf : Bytes} {off : Nat} :
    (∃ x, loadInt buf off = .ok x) ↔ off + intSize ≤ buf.length := by
  have hlength : (buf.drop off).length = buf.length - off := List.length_drop
  rw [loadInt, intSize]
  constructor
  · rintro ⟨x, h⟩
    split at h
    · next heq =>
        rw [heq] at hlength
        simp only [List.length_cons] at hlength
        omega
    · cases h
  · intro h
    match hdrop : buf.drop off with
    | b₀ :: b₁ :: b₂ :: b₃ :: _ => exact ⟨_, rfl⟩
    | [] | [_] | [_, _] | [_, _, _] =>
        rw [hdrop] at hlength
        simp only [List.length_cons, List.length_nil] at hlength
        omega

/-! ## Shorts -/

/-- The two bytes of an unsigned short, least significant first. -/
def shortBytes (x : BitVec 16) : Bytes :=
  [UInt8.ofNat x.toNat, UInt8.ofNat (x.toNat / 256)]

/-- The unsigned short that two bytes hold. -/
def shortOfBytes (b₀ b₁ : UInt8) : BitVec 16 :=
  BitVec.ofNat 16 (b₀.toNat + 256 * b₁.toNat)

/-- `*(unsigned short*)&buf[off]`. -/
def loadShort (buf : Bytes) (off : Nat) : Outcome (BitVec 16) :=
  match buf.drop off with
  | b₀ :: b₁ :: _ => .ok (shortOfBytes b₀ b₁)
  | _ => .undefined

/-- The bytes of a short hold that short. -/
theorem shortOfBytes_shortBytes (x : BitVec 16) :
    shortOfBytes (UInt8.ofNat x.toNat) (UInt8.ofNat (x.toNat / 256)) = x := by
  apply BitVec.eq_of_toNat_eq
  have hx : x.toNat < 65536 := x.isLt
  simp only [shortOfBytes, BitVec.toNat_ofNat, UInt8.toNat_ofNat']
  omega

/-! ## Numbers -/

/-- The number that `width` bytes are the digits of, the least significant one first. -/
def numberAt (buf : Bytes) (off width : Nat) : Nat :=
  Nat.ofDigits 256 (((buf.drop off).take width).map UInt8.toNat)

theorem numberAt_lt (buf : Bytes) (off width : Nat) : numberAt buf off width < 256 ^ width := by
  have hlength : (((buf.drop off).take width).map UInt8.toNat).length ≤ width := by
    rw [List.length_map]
    exact List.length_take_le _ _
  have hdigits : ∀ d ∈ ((buf.drop off).take width).map UInt8.toNat, d < 256 := by
    intro d hd
    obtain ⟨b, -, rfl⟩ := List.mem_map.mp hd
    exact b.toNat_lt
  exact (Nat.ofDigits_lt_base_pow_length (by decide) hdigits).trans_le
    (Nat.pow_le_pow_right (by decide) hlength)

theorem numberAt_add (buf : Bytes) (place off width : Nat) :
    numberAt buf (place + off) width = numberAt (buf.drop place) off width := by
  rw [numberAt, numberAt, List.drop_drop]

/-- A number in a part of a buffer. -/
theorem numberAt_part {buf : Bytes} {place len off width : Nat} (h : off + width ≤ len) :
    numberAt ((buf.drop place).take len) off width = numberAt buf (place + off) width := by
  rw [numberAt_add, numberAt, numberAt, List.drop_take, List.take_take, min_eq_left (by omega)]

/-- **An int** is loaded as the number in its bytes. -/
theorem loadInt_eq {buf : Bytes} {off : Nat} (h : off + intSize ≤ buf.length) :
    loadInt buf off = .ok (BitVec.ofNat 32 (numberAt buf off intSize)) := by
  obtain ⟨x, hload⟩ := exists_loadInt.mpr h
  rw [loadInt] at hload ⊢
  rw [numberAt]
  split at hload
  · next hdrop =>
      rw [hdrop]
      simp only [intOfBytes, intSize, List.take_succ_cons, List.take_zero, List.map_cons,
        List.map_nil, Nat.ofDigits_cons, Nat.ofDigits_nil]
      congr 2
      omega
  · cases hload

/-- **A short** is loaded as the number in its bytes. -/
theorem loadShort_eq {buf : Bytes} {off : Nat} (h : off + 2 ≤ buf.length) :
    loadShort buf off = .ok (BitVec.ofNat 16 (numberAt buf off 2)) := by
  have hlength : (buf.drop off).length = buf.length - off := List.length_drop
  rw [loadShort, numberAt]
  match hdrop : buf.drop off with
  | b₀ :: b₁ :: _ =>
      simp only [shortOfBytes, List.take_succ_cons, List.take_zero, List.map_cons, List.map_nil,
        Nat.ofDigits_cons, Nat.ofDigits_nil]
      rfl
  | [] | [_] =>
      rw [hdrop] at hlength
      simp only [List.length_cons, List.length_nil] at hlength
      omega

end ByteBuffer
