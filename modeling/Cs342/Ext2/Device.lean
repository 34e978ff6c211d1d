import Mathlib
import Cs342.Library.Outcome
import Cs342.Library.ByteBuffer

/-!
# The image and its block buffer (`proj04/src/main.c`)

All reads of the program go through one buffer of a block. `bufferReadBlock` seeks and reads: the
seek is not checked, and a read that ends early leaves the rest of the buffer as it was.
-/

namespace Cs342.Ext2

abbrev Bytes := ByteBuffer.Bytes

/-- `BLOCK_SIZE`. -/
def blockSize : Nat := 4096

/-- What `fd` stands for: a file with its bytes, or something that `read` fails on, such as a
directory. -/
inductive File where
  | regular (image : Bytes)
  | unreadable

/-- The position of `fd`, the global `buffer`, and what has been printed. -/
structure Device where
  position : Nat
  buffer : Bytes
  length_buffer : buffer.length = blockSize
  printed : List String

namespace Device

/-- `lseek(fd, offset, SEEK_SET)`, which refuses a negative offset and then stays where it is. -/
def lseek (offset : Int) (device : Device) : Device :=
  if 0 ≤ offset then { device with position := offset.toNat } else device

/-- What `read(fd, buffer, BLOCK_SIZE)` gets from an image. -/
def available (image : Bytes) (device : Device) : Bytes :=
  (image.drop device.position).take blockSize

theorem length_available_le (image : Bytes) (device : Device) :
    (device.available image).length ≤ blockSize := by
  simp only [available, List.length_take]
  omega

/-- `read(fd, buffer, BLOCK_SIZE)` on an image: bytes that it does not get keep their value. -/
def read (image : Bytes) (device : Device) : Device where
  position := device.position + (device.available image).length
  buffer := device.available image ++ device.buffer.drop (device.available image).length
  length_buffer := by
    have hle := device.length_available_le image
    have hbuffer := device.length_buffer
    simp only [List.length_append, List.length_drop]
    omega
  printed :=
    if device.available image = [] then device.printed ++ ["warning: EOF\n"] else device.printed

end Device

/-- The product that is the offset is one of ints. -/
def bufferReadBlock (file : File) (blockNumber : Int) (device : Device) : Outcome Device :=
  let offset := blockSize * blockNumber
  if -2 ^ 31 ≤ offset ∧ offset < 2 ^ 31 then
    match file with
    | .unreadable => .exit 2 "error: could not read file\n"
    | .regular image => .ok ((device.lseek offset).read image)
  else
    .undefined

/-! ## What a read leaves in the buffer -/

/-- The bytes of block `blockNumber`, as far as the image reaches. -/
def block (image : Bytes) (blockNumber : Nat) : Bytes :=
  (image.drop (blockSize * blockNumber)).take blockSize

/-- Bytes read over the start of a buffer. -/
def overwrite (bytes buffer : Bytes) : Bytes := bytes ++ buffer.drop bytes.length

/-- A whole block replaces the buffer. -/
theorem overwrite_of_length {bytes buffer : Bytes} (h : bytes.length = buffer.length) :
    overwrite bytes buffer = bytes := by
  rw [overwrite, h, List.drop_length, List.append_nil]

/-- The block numbers whose offset is an int. -/
theorem bufferReadBlock_regular {image : Bytes} {blockNumber : Int}
    (hmin : -2 ^ 19 ≤ blockNumber) (hmax : blockNumber < 2 ^ 19) (device : Device) :
    bufferReadBlock (.regular image) blockNumber device =
      .ok ((device.lseek (blockSize * blockNumber)).read image) := by
  have hrange : -2 ^ 31 ≤ blockSize * blockNumber ∧ blockSize * blockNumber < 2 ^ 31 := by
    simp only [blockSize]
    omega
  simp only [bufferReadBlock]
  rw [if_pos hrange]

/-- Any other block number makes the product overflow. -/
theorem bufferReadBlock_overflow {image : Bytes} {blockNumber : Int}
    (h : blockNumber < -2 ^ 19 ∨ 2 ^ 19 ≤ blockNumber) (device : Device) :
    bufferReadBlock (.regular image) blockNumber device = .undefined := by
  have hrange : ¬ (-2 ^ 31 ≤ blockSize * blockNumber ∧ blockSize * blockNumber < 2 ^ 31) := by
    simp only [blockSize]
    omega
  simp only [bufferReadBlock]
  rw [if_neg hrange]

/-- Up to block `2 ^ 19 - 1` the product fits, and the block is read from its own place. -/
theorem bufferReadBlock_of_lt (image : Bytes) {n : Nat} (h : n < 2 ^ 19) (device : Device) :
    ∃ device', bufferReadBlock (.regular image) n device = .ok device' ∧
      device'.buffer = overwrite (block image n) device.buffer := by
  have hseek : (device.lseek (blockSize * n)).position = blockSize * n := by
    have hcast : (blockSize : Int) * n = (blockSize * n : Nat) := (Nat.cast_mul blockSize n).symm
    have hpos : (0 : Int) ≤ (blockSize * n : Nat) := Int.natCast_nonneg _
    rw [hcast, Device.lseek, if_pos hpos]
    exact Int.toNat_natCast _
  refine ⟨_, bufferReadBlock_regular (by omega) (by omega) device, ?_⟩
  have hbuffer : (device.lseek (blockSize * n)).buffer = device.buffer := by
    unfold Device.lseek
    split <;> rfl
  simp only [Device.read, Device.available, hseek, hbuffer]
  rfl

end Cs342.Ext2
