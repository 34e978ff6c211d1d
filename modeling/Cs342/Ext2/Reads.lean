import Mathlib
import Cs342.Ext2.Listing

/-!
# What a read presents as a block (`buffer_read_block`)

Behind the last byte that a read gets, the buffer keeps what earlier reads have left there. So a
block is delivered as it is on the image exactly if nothing is left behind it
(`block_delivered_iff`): in particular if the image has all of it, whatever has been read before
(`deliversBlock_of_full`).
-/

namespace Cs342.Ext2

/-- The same bytes over two buffers make a difference only behind them. -/
theorem overwrite_eq_iff {bytes buffer buffer' : Bytes} :
    overwrite bytes buffer = overwrite bytes buffer'
      ↔ buffer.drop bytes.length = buffer'.drop bytes.length := by
  rw [overwrite, overwrite, List.append_cancel_left_eq]

/-- Earlier reads of the program, one after the other. -/
def readBlocks (image : Bytes) (history : List Int) : Outcome Device :=
  history.foldlM (fun device blockNumber => bufferReadBlock (.regular image) blockNumber device)
    startDevice

/-- After these reads, `buffer_read_block` returns with the bytes of the block in the buffer, and
with nothing in it that it would not have left there without them. -/
def DeliversBlock (image : Bytes) (history : List Int) (blockNumber : Nat) : Prop :=
  ∀ device, readBlocks image history = .ok device →
    ∃ device', bufferReadBlock (.regular image) blockNumber device = .ok device' ∧
      block image blockNumber <+: device'.buffer ∧
      ∀ fresh, bufferReadBlock (.regular image) blockNumber startDevice = .ok fresh →
        device'.buffer = fresh.buffer

/-- Nothing but zeros is left in the buffer behind so many bytes. -/
def ZerosBehind (length : Nat) (device : Device) : Prop :=
  ∀ byte ∈ device.buffer.drop length, byte = 0

theorem zerosBehind_iff {length : Nat} {device : Device} :
    ZerosBehind length device ↔ device.buffer.drop length = startDevice.buffer.drop length := by
  have hzeros : startDevice.buffer.drop length = List.replicate (blockSize - length) 0 :=
    List.drop_replicate
  rw [hzeros, List.eq_replicate_iff, List.length_drop, device.length_buffer, and_iff_right rfl]
  exact Iff.rfl

section Reads

variable {image : Bytes} {history : List Int}

theorem readBlocks_append (blockNumber : Int) :
    readBlocks image (history ++ [blockNumber]) = (do
      let device ← readBlocks image history
      bufferReadBlock (.regular image) blockNumber device) := by
  rw [readBlocks, List.foldlM_append]
  simp only [List.foldlM_cons, List.foldlM_nil, bind_pure]
  rfl

/-- Reads of blocks with an offset that is an int return. -/
theorem exists_readBlocks (image : Bytes)
    (hhistory : ∀ blockNumber ∈ history, -2 ^ 19 ≤ blockNumber ∧ blockNumber < 2 ^ 19) :
    ∃ device, readBlocks image history = .ok device := by
  induction history using List.reverseRecOn with
  | nil => exact ⟨startDevice, rfl⟩
  | append_singleton history blockNumber ih =>
      obtain ⟨device, hdevice⟩ := ih fun x hx => hhistory x (List.mem_append_left _ hx)
      obtain ⟨hmin, hmax⟩ := hhistory blockNumber (by simp)
      rw [readBlocks_append, hdevice]
      exact ⟨_, bufferReadBlock_regular hmin hmax device⟩

/-- **One read**, in any state of the buffer. -/
theorem delivers_iff_zerosBehind {blockNumber : Nat} {device : Device} :
    (∃ device', bufferReadBlock (.regular image) blockNumber device = .ok device' ∧
        block image blockNumber <+: device'.buffer ∧
        ∀ fresh, bufferReadBlock (.regular image) blockNumber startDevice = .ok fresh →
          device'.buffer = fresh.buffer) ↔
      blockNumber < 2 ^ 19 ∧ ZerosBehind (block image blockNumber).length device := by
  by_cases hlt : blockNumber < 2 ^ 19
  · obtain ⟨device', hread, hbuffer⟩ := bufferReadBlock_of_lt image hlt device
    obtain ⟨fresh, hfresh, hfreshBuffer⟩ := bufferReadBlock_of_lt image hlt startDevice
    rw [and_iff_right hlt, zerosBehind_iff, ← overwrite_eq_iff, ← hbuffer, ← hfreshBuffer]
    constructor
    · rintro ⟨device'', hread', -, h⟩
      rw [hread] at hread'
      cases hread'
      exact h fresh hfresh
    · intro h
      refine ⟨device', hread, ?_, ?_⟩
      · rw [hbuffer]
        exact List.prefix_append _ _
      · intro fresh' hfresh'
        rw [hfresh] at hfresh'
        cases hfresh'
        exact h
  · constructor
    · rintro ⟨device', hread, -⟩
      rw [bufferReadBlock_overflow (.inr (by omega))] at hread
      cases hread
    · rintro ⟨h, -⟩
      exact absurd h hlt

/-- A block that is wholly on the image is delivered, whatever has been read before. -/
theorem deliversBlock_of_full {blockNumber : Nat} (hlt : blockNumber < 2 ^ 19)
    (hfull : blockSize * blockNumber + blockSize ≤ image.length) :
    DeliversBlock image history blockNumber := by
  intro device hdevice
  apply delivers_iff_zerosBehind.mpr
  refine ⟨hlt, fun byte hbyte => ?_⟩
  have hlength : (block image blockNumber).length = blockSize := by
    rw [block, List.length_take, List.length_drop]
    omega
  rw [hlength, List.drop_of_length_le device.length_buffer.le] at hbyte
  cases hbyte

end Reads

/-! ## Bytes of the buffer -/

/-- The bytes of the image are in the buffer once their block has been read. -/
theorem take_overwrite_block {image : Bytes} (buffer : Bytes) {n off len : Nat}
    (himage : blockSize * n + off + len ≤ image.length) (hfits : off + len ≤ blockSize) :
    ((overwrite (block image n) buffer).drop off).take len
      = (image.drop (blockSize * n + off)).take len := by
  have hlength : off + len ≤ (block image n).length := by
    rw [block, List.length_take, List.length_drop]
    omega
  rw [overwrite, List.drop_append_of_le_length (by omega),
    List.take_append_of_le_length (by rw [List.length_drop]; omega), block, List.drop_take,
    List.take_take, List.drop_drop, min_eq_left (by omega)]

/-- The start of a file is read by a program that has just been started, if it cannot seek. -/
theorem bufferReadBlock_startDevice {image : Bytes} {blockNumber : Int}
    (hmin : -2 ^ 19 ≤ blockNumber) (hmax : blockNumber < 2 ^ 19) :
    ∃ device, bufferReadBlock (.regular image) blockNumber startDevice = .ok device ∧
      device.buffer = overwrite (block image blockNumber.toNat) startDevice.buffer := by
  by_cases hneg : blockNumber < 0
  · refine ⟨_, bufferReadBlock_regular hmin hmax startDevice, ?_⟩
    have hoffset : ¬ (0 : Int) ≤ blockSize * blockNumber := by
      simp only [blockSize]
      omega
    rw [Device.lseek, if_neg hoffset, Int.toNat_of_nonpos hneg.le]
    rfl
  · obtain ⟨n, rfl⟩ := Int.eq_ofNat_of_zero_le (not_lt.mp hneg)
    obtain ⟨device, hread, hbuffer⟩ := bufferReadBlock_of_lt image (n := n) (by omega) startDevice
    exact ⟨device, hread, hbuffer⟩

/-- A program that has just been started finds zeros where the image has no bytes. -/
theorem getElem?_overwrite_block (image : Bytes) {n off : Nat} (hoff : off < blockSize) :
    (overwrite (block image n) startDevice.buffer)[off]?
      = some (image[blockSize * n + off]?.getD 0) := by
  have hblock : (block image n)[off]? = image[blockSize * n + off]? := by
    rw [block, List.getElem?_take_of_lt hoff, List.getElem?_drop]
  rw [overwrite]
  by_cases hlt : off < (block image n).length
  · rw [List.getElem?_append_left hlt, ← hblock, List.getElem?_eq_getElem hlt]
    rfl
  · rw [List.getElem?_append_right (not_lt.mp hlt), ← hblock,
      List.getElem?_eq_none (not_lt.mp hlt), List.getElem?_drop,
      Nat.add_sub_cancel' (not_lt.mp hlt)]
    exact List.getElem?_replicate_of_lt hoff

/-! ## Every read -/

/-- **Delivery of a block**, after any reads that return: its offset is an int, and nothing but
zeros is left where the image does not reach. -/
theorem block_delivered_iff (image : Bytes) (history : List Int)
    (hhistory : ∀ blockNumber ∈ history, -2 ^ 19 ≤ blockNumber ∧ blockNumber < 2 ^ 19)
    (blockNumber : Nat) :
    DeliversBlock image history blockNumber ↔
      blockNumber < 2 ^ 19 ∧ ∀ device, readBlocks image history = .ok device →
        ZerosBehind (block image blockNumber).length device := by
  obtain ⟨device, hdevice⟩ := exists_readBlocks image hhistory
  have hunique : ∀ other, readBlocks image history = .ok other ↔ device = other := by
    intro other
    rw [hdevice, Outcome.ok.injEq]
  simp only [DeliversBlock, hunique, forall_eq']
  exact delivers_iff_zerosBehind

/-- Block 1 of an image with one block, read after block 0. -/
theorem block_delivered_empty :
    DeliversBlock (padded []) [0] 1 ↔
      1 < 2 ^ 19 ∧ ∀ device, readBlocks (padded []) [0] = .ok device →
        ZerosBehind (block (padded []) 1).length device :=
  block_delivered_iff (padded []) [0] (by decide) 1

/-- Block 1 of an image with one block, which is then taken for block 0. -/
theorem block_not_delivered : ¬ DeliversBlock (padded [1]) [0] 1 := by
  obtain ⟨device, hread, hbuffer⟩ := bufferReadBlock_of_lt (padded [1]) (n := 0) (by norm_num)
    startDevice
  have hlength : (padded [1]).length = blockSize := length_padded (by decide)
  have hblock : block (padded [1]) 0 = padded [1] := by
    rw [block, Nat.mul_zero, List.drop_zero, List.take_of_length_le hlength.le]
  have hend : block (padded [1]) 1 = [] := by
    rw [block, Nat.mul_one, List.drop_of_length_le hlength.le, List.take_nil]
  intro h
  have hhistory : readBlocks (padded [1]) [0] = .ok device := by
    rw [readBlocks, List.foldlM_cons]
    exact Outcome.bind_eq_ok.mpr ⟨device, hread, rfl⟩
  have hzeros := (delivers_iff_zerosBehind.mp (h device hhistory)).2
  rw [hblock, overwrite_of_length (hlength.trans startDevice.length_buffer.symm)] at hbuffer
  rw [hend, ZerosBehind, hbuffer] at hzeros
  exact absurd (hzeros 1 List.mem_cons_self) (by decide)

end Cs342.Ext2
