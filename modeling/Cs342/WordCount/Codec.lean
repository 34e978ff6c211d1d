import Mathlib
import Cs342.WordCount.Sending

/-!
# One message, packed and read (`run_child_actions`, `await_child_processes`)

What a single message holds, whatever pairs are left: the longest run of pairs that fits behind the
count, which is at least one. The loop that packs it compares sizes as unsigned numbers; that is no
matter, since `buf_i` never passes the end of the buffer (`PackVisits.bufI_le`). The run is read
back from its own bytes, so nothing that comes behind them plays a part (`message_round_trip`).
-/

namespace Cs342.WordCount

open ByteBuffer

variable {msgSize i : Nat} {pairs rest : List WordCountPair} {pair : WordCountPair}
  {st st' u : PackState}

/-! ## The states of the packing loop -/

/-- The body of the inner `for` behind its size test: the word and its count are written. -/
def packPair (pair : WordCountPair) (st : PackState) : Outcome PackState := do
  let wordLen := pair.word.strlen + 1
  let buf ← store st.buf st.bufI pair.word.stored
  let buf ← store buf (st.bufI + wordLen) (intBytes pair.count)
  return {
    i := st.i + 1
    pairsInMessage := st.pairsInMessage + 1
    bufI := st.bufI + wordLen + intSize
    buf := buf }

/-- The size test lets the pair in. -/
def PairFits (msgSize : Nat) (pair : WordCountPair) (st : PackState) : Prop :=
  pair.word.strlen + 1 + intSize ≤ toSizeT ((msgSize : Int) - st.bufI)

theorem packLoop_cons_of_fits (h : PairFits msgSize pair st) :
    packLoop msgSize (pair :: rest) st = packPair pair st >>= packLoop msgSize rest := by
  rw [packLoop, if_neg (Nat.not_lt.mpr h), packPair]
  simp only [bind_assoc, Outcome.pure_eq, Outcome.ok_bind]

theorem packLoop_cons_of_not_fits (h : ¬ PairFits msgSize pair st) :
    packLoop msgSize (pair :: rest) st = .ok { st with i := decSizeT st.i } := by
  rw [packLoop, if_pos (Nat.not_le.mp h)]

/-- The states at the head of the loop, from a state with these pairs to come. -/
inductive PackVisits (msgSize : Nat) : List WordCountPair → PackState → PackState → Prop
  | head {pairs : List WordCountPair} {st : PackState} : PackVisits msgSize pairs st st
  | next {pair : WordCountPair} {rest : List WordCountPair} {st st' u : PackState}
      (hfits : PairFits msgSize pair st) (hpack : packPair pair st = .ok st')
      (hrest : PackVisits msgSize rest st' u) : PackVisits msgSize (pair :: rest) st u

theorem packPair_bufI (h : packPair pair st = .ok st') : st'.bufI = st.bufI + pairSize pair := by
  obtain ⟨buf, -, h⟩ := Outcome.bind_eq_ok.mp h
  obtain ⟨buf', -, h⟩ := Outcome.bind_eq_ok.mp h
  cases h
  exact Nat.add_assoc _ _ _

/-- **The bound of `buf_i`**: the unsigned comparison never sees a negative number. -/
theorem PackVisits.bufI_le (hmax : msgSize < 2 ^ 64) (h : PackVisits msgSize pairs st u)
    (hle : st.bufI ≤ msgSize) : u.bufI ≤ msgSize := by
  induction h with
  | head => exact hle
  | next hfits hpack _ ih =>
      apply ih
      rw [PairFits, toSizeT_sub hmax hle] at hfits
      rw [packPair_bufI hpack, pairSize]
      omega

/-- The state in which the inner loop starts. -/
def packStart (msgSize i : Nat) : PackState where
  i := i
  pairsInMessage := 0
  bufI := intSize
  buf := List.replicate msgSize 0

/-! ## The bytes of a run -/

/-- What is read of a message: the count and the pairs. -/
def encodeMessage (pairs : List WordCountPair) : Bytes :=
  intBytes (BitVec.ofNat 32 pairs.length) ++ encodePairs pairs

/-- **Reading**: the bytes of a run are enough, and what follows them is not looked at. -/
theorem decodeMessage_encodeMessage (hlen : pairs.length < 2 ^ 31) (tail : Bytes) :
    decodeMessage (encodeMessage pairs ++ tail) = .ok (some pairs) :=
  decodeMessage_encodesPairs ⟨hlen, tail, rfl⟩

/-- A run of pairs that no further pair fits behind. -/
structure IsMaximalRun (cap : Nat) (pairs run : List WordCountPair) : Prop where
  run_prefix : run <+: pairs
  fits : payload run ≤ cap
  maximal : ∀ pair, run ++ [pair] <+: pairs → cap < payload (run ++ [pair])

theorem isMaximalRun_batch (cap : Nat) (pairs : List WordCountPair) :
    IsMaximalRun cap pairs (batch cap pairs) := by
  refine ⟨List.take_prefix _ _, payload_take_fit_le cap pairs, fun pair hprefix => ?_⟩
  have hlen := hprefix.length_le
  have hlength : (batch cap pairs ++ [pair]).length = fit cap pairs + 1 := by
    rw [List.length_append, List.length_singleton, batch, List.length_take,
      Nat.min_eq_left (fit_le_length cap pairs)]
  rw [hlength] at hlen
  rw [List.prefix_iff_eq_take.mp hprefix, hlength]
  exact lt_payload_take_fit_succ hlen

/-- **One message**, from any index on: it holds a maximal run of at least one pair, no byte of it
is written outside of the buffer, and the parent reads the run back, from a larger buffer as well as
from the bytes of the run alone. -/
theorem message_round_trip (hsize : msgSize ∈ validMsgSizes)
    (hwords : ∀ p ∈ pairs, p.word.strlen ≤ wordWidth) (hi : i < pairs.length) :
    (∀ st, PackVisits msgSize (pairs.drop i) (packStart msgSize i) st →
      st.bufI ≤ msgSize ∧ toSizeT ((msgSize : Int) - st.bufI) = msgSize - st.bufI) ∧
    ∃ next message run padding, buildMessage pairs msgSize i = .ok (next, message) ∧
      message.length = msgSize ∧ message = encodeMessage run ++ padding ∧
      run ≠ [] ∧ IsMaximalRun (msgSize - intSize) (pairs.drop i) run ∧
      (∃ count, loadInt message 0 = .ok count ∧ count.toInt = run.length ∧ count ≠ mqEofVal) ∧
      ∀ tail, decodeMessage (message ++ tail) = .ok (some run) ∧
        decodeMessage (encodeMessage run ++ tail) = .ok (some run) := by
  obtain ⟨hmin, hmax⟩ := bounds_of_mem_validMsgSizes hsize
  have hint : intSize ≤ msgSize := le_trans (by decide) hmin
  constructor
  · intro st hvisits
    have hle := hvisits.bufI_le (by omega) hint
    exact ⟨hle, toSizeT_sub (by omega) hle⟩
  have hpos : 0 < fit (msgSize - intSize) (pairs.drop i) := by
    apply fit_pos
    · rw [Ne, List.drop_eq_nil_iff]
      omega
    · exact fun p hp => eachFits_of_strlen_le hsize hwords p (List.mem_of_mem_drop hp)
  obtain ⟨message, hbuild, hlen, hencodes⟩ := buildMessage_eq hint hmax hi hpos
  obtain ⟨hcount, padding, hmessage⟩ :
    EncodesPairs message (batch (msgSize - intSize) (pairs.drop i)) := hencodes
  refine ⟨_, message, batch (msgSize - intSize) (pairs.drop i), padding, hbuild, hlen, hmessage,
    ?_, isMaximalRun_batch _ _, ⟨_, ?_, toInt_ofNat_of_lt hcount, ?_⟩, fun tail => ⟨?_, ?_⟩⟩
  · intro hnil
    have hlength := congrArg List.length hnil
    rw [batch, List.length_take, List.length_nil, List.length_drop] at hlength
    omega
  · apply loadInt_intBytes
    rw [List.drop_zero, hmessage, List.append_assoc]
  · intro heof
    have hneg := congrArg BitVec.toInt heof
    rw [toInt_ofNat_of_lt hcount] at hneg
    have : mqEofVal.toInt = -1 := by decide
    omega
  · rw [hmessage, List.append_assoc]
    exact decodeMessage_encodeMessage hcount _
  · exact decodeMessage_encodeMessage hcount tail

/-- Two words, one of them with the count zero, from the second one on. -/
theorem message_round_trip_two :
    ∃ next message padding,
      buildMessage [⟨CString.ofBytes [65], 3⟩, ⟨CString.ofBytes [66, 67], 0⟩] 128 1
        = .ok (next, message) ∧ message = [1, 0, 0, 0, 66, 67, 0, 0, 0, 0, 0] ++ padding := by
  have hsize : 128 ∈ validMsgSizes := by decide
  have hwords : ∀ p ∈ [⟨CString.ofBytes [65], 3⟩, (⟨CString.ofBytes [66, 67], 0⟩ : WordCountPair)],
      p.word.strlen ≤ wordWidth := by decide
  obtain ⟨-, next, message, run, padding, hbuild, -, hmessage, hne, hrun, -⟩ :=
    message_round_trip hsize hwords (show 1 < 2 by decide)
  refine ⟨next, message, padding, hbuild, ?_⟩
  have heq : run = [⟨CString.ofBytes [66, 67], 0⟩] := by
    apply hrun.run_prefix.eq_of_length
    have hlength := hrun.run_prefix.length_le
    have hpos := List.length_pos_iff.mpr hne
    simp only [List.drop_succ_cons, List.drop_zero, List.length_cons, List.length_nil] at hlength ⊢
    omega
  rw [hmessage, heq]
  rfl

end Cs342.WordCount
