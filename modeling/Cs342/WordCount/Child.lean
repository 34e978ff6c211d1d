import Mathlib
import Cs342.WordCount.Arguments
import Cs342.WordCount.Input
import Cs342.WordCount.Message

/-!
# The send loop of a `pword` child (`run_child_actions`)

One outer iteration packs pairs from index `i` on into a fresh buffer until one does not fit or
none is left, and sends the buffer. On overflow the source undoes an increment that `break` has
skipped (`i--`), so the next message starts with the last pair of this one.

Over the translation stands the packing in its own terms: `fit`, how many pairs of a list go into
a message, and `resent`, the pairs that two messages share. `childRun_delivered` says that what a
finished child has sent is its pairs and the resent ones once more; the loop finishes exactly if
any two neighbouring pairs fit into one message (`exited_iff_neighboursFit`).
-/

namespace Cs342.WordCount

open ByteBuffer

/-! ## The loop -/

/-- Conversion of an int to `size_t`. -/
def toSizeT (x : Int) : Nat := (x % 2 ^ 64).toNat

/-- `i--` on a `size_t`. -/
def decSizeT (i : Nat) : Nat := if i = 0 then 2 ^ 64 - 1 else i - 1

/-- The variables of the inner `for`. -/
structure PackState where
  i : Nat
  pairsInMessage : Nat
  bufI : Nat
  buf : Bytes

/-- The inner `for (; i != used_size; i++)`; the list is `pairs[i..used_size)`. The size test is
an unsigned comparison. -/
def packLoop (msgSize : Nat) : List WordCountPair → PackState → Outcome PackState
  | [], st => .ok st
  | pair :: rest, st =>
    let wordLen := pair.word.strlen + 1
    if wordLen + intSize > toSizeT ((msgSize : Int) - st.bufI) then
      .ok { st with i := decSizeT st.i }
    else do
      let buf ← store st.buf st.bufI pair.word.stored
      let buf ← store buf (st.bufI + wordLen) (intBytes pair.count)
      packLoop msgSize rest
        { i := st.i + 1
          pairsInMessage := st.pairsInMessage + 1
          bufI := st.bufI + wordLen + intSize
          buf := buf }

/-- One outer iteration from index `i`: the index it leaves and the message it sends. An index
past the array is read through by `pairs[i]`. -/
def buildMessage (pairs : List WordCountPair) (msgSize i : Nat) : Outcome (Nat × Message) :=
  if pairs.length < i then .undefined
  else do
    let st ← packLoop msgSize (pairs.drop i)
      { i := i
        pairsInMessage := 0
        bufI := intSize
        buf := List.replicate msgSize 0 }
    let buf ← store st.buf 0 (intBytes (BitVec.ofNat 32 st.pairsInMessage))
    return (st.i, buf)

/-- The EOF message: a zeroed buffer with `MQ_EOF_VAL` at its start. -/
def eofMessage (msgSize : Nat) : Outcome Message :=
  store (List.replicate msgSize 0) 0 (intBytes mqEofVal)

/-- A child between two sends: at the head of the outer loop, or after its EOF message. -/
inductive ChildState where
  | sending (i : Nat)
  | exited
  deriving DecidableEq

/-- The child up to and including its next `mq_send`. -/
def childStep (pairs : List WordCountPair) (msgSize : Nat) :
    ChildState → Outcome (Option (ChildState × Message))
  | .sending i =>
    if i ≠ pairs.length then do
      let (i, message) ← buildMessage pairs msgSize i
      return some (.sending i, message)
    else do
      let message ← eofMessage msgSize
      return some (.exited, message)
  | .exited => .ok none

/-- The child after `k` sends, and what it has sent; an exited child stays as it is. -/
def childRun (pairs : List WordCountPair) (msgSize : Nat) :
    Nat → Outcome (ChildState × List Message)
  | 0 => .ok (.sending 0, [])
  | k + 1 => do
    let (child, sent) ← childRun pairs msgSize k
    match ← childStep pairs msgSize child with
    | some (child, message) => return (child, sent ++ [message])
    | none => return (child, sent)

/-! ## Packing -/

/-- How many pairs of a list fit into `cap` bytes, taken in order up to the first that does not. -/
def fit : Nat → List WordCountPair → Nat
  | _, [] => 0
  | cap, pair :: rest => if pairSize pair ≤ cap then fit (cap - pairSize pair) rest + 1 else 0

theorem fit_le_length (cap : Nat) (pairs : List WordCountPair) :
    fit cap pairs ≤ pairs.length := by
  induction pairs generalizing cap with
  | nil => rfl
  | cons pair pairs ih =>
      unfold fit
      split
      · simpa using ih _
      · simp

/-- The pairs that fit do fit. -/
theorem payload_take_fit_le (cap : Nat) (pairs : List WordCountPair) :
    payload (pairs.take (fit cap pairs)) ≤ cap := by
  induction pairs generalizing cap with
  | nil => simp
  | cons pair pairs ih =>
      unfold fit
      split
      · next h =>
          have := ih (cap - pairSize pair)
          simp only [List.take_succ_cons, payload_cons]
          omega
      · simp

/-- The run is maximal: the next pair would not fit. -/
theorem lt_payload_take_fit_succ {cap : Nat} {pairs : List WordCountPair}
    (h : fit cap pairs < pairs.length) : cap < payload (pairs.take (fit cap pairs + 1)) := by
  induction pairs generalizing cap with
  | nil => simp [fit] at h
  | cons pair pairs ih =>
      unfold fit at h ⊢
      split at h
      · next hle =>
          rw [if_pos hle]
          have := ih (Nat.lt_of_succ_lt_succ h)
          simp only [List.take_succ_cons, payload_cons]
          omega
      · next hgt =>
          rw [if_neg hgt]
          simp
          omega

/-- Everything fits exactly when the payload does. -/
theorem fit_eq_length_iff {cap : Nat} {pairs : List WordCountPair} :
    fit cap pairs = pairs.length ↔ payload pairs ≤ cap := by
  constructor
  · intro h
    have := payload_take_fit_le cap pairs
    rwa [h, List.take_length] at this
  · intro h
    by_contra hne
    have hlt := Nat.lt_of_le_of_ne (fit_le_length cap pairs) hne
    have h₁ := lt_payload_take_fit_succ hlt
    have h₂ := payload_append (pairs.take (fit cap pairs + 1)) (pairs.drop (fit cap pairs + 1))
    rw [List.take_append_drop] at h₂
    omega

/-! ## One message -/

theorem toSizeT_sub {m n : Nat} (hm : m < 2 ^ 64) (hn : n ≤ m) :
    toSizeT ((m : Int) - n) = m - n := by
  unfold toSizeT
  omega

/-- **The inner loop** packs the pairs that fit behind what the buffer already holds, and leaves
`i` at the end of the array or, after an overflow, at the last pair it has packed. -/
theorem packLoop_eq {msgSize : Nat} (hsize : msgSize < 2 ^ 64) :
    ∀ (pairs : List WordCountPair) (st : PackState) (pre : Bytes),
      st.buf = pre ++ List.replicate (msgSize - st.bufI) 0 → pre.length = st.bufI →
      st.bufI ≤ msgSize →
      packLoop msgSize pairs st = .ok
        { i := if fit (msgSize - st.bufI) pairs = pairs.length then st.i + pairs.length
            else decSizeT (st.i + fit (msgSize - st.bufI) pairs)
          pairsInMessage := st.pairsInMessage + fit (msgSize - st.bufI) pairs
          bufI := st.bufI + payload (pairs.take (fit (msgSize - st.bufI) pairs))
          buf := pre ++ encodePairs (pairs.take (fit (msgSize - st.bufI) pairs)) ++
            List.replicate
              (msgSize - st.bufI - payload (pairs.take (fit (msgSize - st.bufI) pairs))) 0 } := by
  intro pairs
  induction pairs with
  | nil =>
      intro st pre hbuf _ _
      simp [packLoop, fit, ← hbuf]
  | cons pair rest ih =>
      intro st pre hbuf hpre hle
      have hpair : pair.word.strlen + 1 + intSize = pairSize pair := rfl
      unfold packLoop
      simp only [toSizeT_sub hsize hle, hpair]
      by_cases hfit : pairSize pair ≤ msgSize - st.bufI
      · -- the pair fits, so both stores stay inside the zeros behind what is packed
        rw [if_neg (Nat.not_lt.mpr hfit)]
        have hlen := length_encodePair pair
        have hword : pair.word.stored.length ≤ msgSize - st.bufI := by
          rw [CString.length_stored]; unfold pairSize at hfit; omega
        have hint : (intBytes pair.count).length
            ≤ msgSize - st.bufI - pair.word.stored.length := by
          rw [CString.length_stored, length_intBytes]; unfold pairSize at hfit; omega
        have hoff : (pre ++ pair.word.stored).length = st.bufI + (pair.word.strlen + 1) := by
          rw [List.length_append, hpre, CString.length_stored]
        have hstore₁ : store (pre ++ List.replicate (msgSize - st.bufI) 0) pre.length
            pair.word.stored = _ := store_zeros hword
        have hstore₂ : store (pre ++ pair.word.stored ++ _) (pre ++ pair.word.stored).length
            (intBytes pair.count) = _ := store_zeros hint
        rw [hpre, ← hbuf] at hstore₁
        rw [hoff] at hstore₂
        rw [hstore₁, Outcome.ok_bind, hstore₂, Outcome.ok_bind]
        have hrem : msgSize - st.bufI - pair.word.stored.length - (intBytes pair.count).length
            = msgSize - (st.bufI + (pair.word.strlen + 1) + intSize) := by
          rw [CString.length_stored, length_intBytes]; omega
        rw [hrem, ih _ (pre ++ pair.word.stored ++ intBytes pair.count) rfl
          (by rw [List.length_append, hoff, length_intBytes])
          (by unfold pairSize at hfit; simp only; omega)]
        have hcap : msgSize - (st.bufI + (pair.word.strlen + 1) + intSize)
            = msgSize - st.bufI - pairSize pair := by
          unfold pairSize; omega
        simp only [hcap, fit, if_pos hfit, List.take_succ_cons, payload_cons, encodePairs_cons,
          encodePair, List.length_cons, Nat.add_right_cancel_iff]
        congr 2
        · simp only [Nat.add_assoc, Nat.add_comm 1]
        · omega
        · unfold pairSize; omega
        · simp only [List.append_assoc, Nat.sub_sub, Nat.add_assoc]
      · -- overflow: nothing is packed, and `i` goes back by one
        rw [if_pos (Nat.not_le.mp hfit)]
        simp only [fit, if_neg hfit, List.take_zero, payload_nil, encodePairs_nil, List.append_nil,
          Nat.add_zero, Nat.sub_zero, ← hbuf, List.length_cons]
        rw [if_neg (by omega)]

/-- The index after a message that takes `k` of the `n - i` pairs left: the end, or the last pair
that was packed. -/
def nextIndex (n i k : Nat) : Nat := if i + k = n then n else i + k - 1

/-- **One outer iteration** from `i`, if the first pair left fits: the message is the run of pairs
that fit, and the index moves to the end or back onto the last pair of the run. -/
theorem buildMessage_eq {pairs : List WordCountPair} {msgSize i : Nat} (hsize : intSize ≤ msgSize)
    (hmax : msgSize < 2 ^ 31) (hi : i < pairs.length)
    (hfirst : 0 < fit (msgSize - intSize) (pairs.drop i)) :
    ∃ message, buildMessage pairs msgSize i
        = .ok (nextIndex pairs.length i (fit (msgSize - intSize) (pairs.drop i)), message) ∧
      message.length = msgSize ∧
      EncodesPairs message
        ((pairs.drop i).take (fit (msgSize - intSize) (pairs.drop i))) := by
  have hle := payload_take_fit_le (msgSize - intSize) (pairs.drop i)
  have hfive := five_mul_length_le_payload
    ((pairs.drop i).take (fit (msgSize - intSize) (pairs.drop i)))
  have hk := fit_le_length (msgSize - intSize) (pairs.drop i)
  set k := fit (msgSize - intSize) (pairs.drop i) with hkdef
  have hklen : ((pairs.drop i).take k).length = k := by rw [List.length_take]; omega
  rw [List.length_drop] at hk
  have hinit : List.replicate msgSize (0 : UInt8)
      = List.replicate intSize 0 ++ List.replicate (msgSize - intSize) 0 := by
    rw [List.replicate_append_replicate, Nat.add_sub_cancel' hsize]
  have hpack := packLoop_eq (by omega : msgSize < 2 ^ 64) (pairs.drop i)
    { i := i, pairsInMessage := 0, bufI := intSize, buf := List.replicate msgSize 0 }
    (List.replicate intSize 0) hinit (by simp) hsize
  simp only [← hkdef, Nat.zero_add] at hpack
  -- the count is stored last, over the first bytes of the buffer
  set zeros : Bytes :=
    List.replicate (msgSize - intSize - payload ((pairs.drop i).take k)) 0 with hzeros
  have hstore : store (List.replicate intSize 0 ++ encodePairs ((pairs.drop i).take k) ++ zeros) 0
        (intBytes (BitVec.ofNat 32 k))
      = .ok (intBytes (BitVec.ofNat 32 k) ++ encodePairs ((pairs.drop i).take k) ++ zeros) := by
    rw [store_start (by simp), List.append_assoc, List.drop_append_of_le_length (by simp),
      length_intBytes, List.drop_eq_nil_of_le (by simp), List.nil_append, List.append_assoc]
  refine ⟨intBytes (BitVec.ofNat 32 k) ++ encodePairs ((pairs.drop i).take k) ++ zeros, ?_, ?_,
    ?_, zeros, ?_⟩
  · unfold buildMessage
    rw [if_neg (by omega), hpack, Outcome.ok_bind, hstore, Outcome.ok_bind, Outcome.pure_eq]
    congr 2
    unfold nextIndex decSizeT
    simp only [List.length_drop]
    split_ifs <;> omega
  · simp only [hzeros, List.length_append, length_intBytes, length_encodePairs,
      List.length_replicate]
    omega
  · rw [hklen]; omega
  · rw [hklen]

end Cs342.WordCount
