import Mathlib
import Cs342.WordCount.Table

/-!
# The messages of `pword`

A data message is a pair count followed by that many pairs, each a NUL-terminated word and a raw
int; a message whose count is `MQ_EOF_VAL` ends a child's sequence. `receivePairs` is the reading
loop of `await_child_processes`, left open in what it does with a pair: the parent increments its
table, `decodeMessage` collects the pairs. `receivePairs_encodes` is the decoder's one law, that
reading an encoded message visits its pairs in order and stops there, whatever bytes follow.
-/

namespace Cs342.WordCount

open ByteBuffer

abbrev Message := Bytes

/-- `MQ_EOF_VAL`. -/
def mqEofVal : BitVec 32 := -1

/-! ## Reading -/

section Reading

variable {σ : Type} (visit : σ → CString → BitVec 32 → Outcome σ)

/-- The `for` over `n` incoming pairs from `&buf[buf_i]` on. -/
def readPairs (buf : Bytes) : Nat → Nat → σ → Outcome σ
  | 0, _, acc => .ok acc
  | n + 1, bufI, acc => do
    let word ← CString.load buf bufI
    let bufI := bufI + (word.strlen + 1)
    let freq ← loadInt buf bufI
    let acc ← visit acc word freq
    readPairs buf n (bufI + intSize) acc

/-- What the parent does with a received buffer: nothing is returned for an EOF message. A count
below zero other than `MQ_EOF_VAL` is never reached by `i`, so its loop runs off the buffer. -/
def receivePairs (buf : Bytes) (acc : σ) : Outcome (Option σ) := do
  let incomingPairsCount ← loadInt buf 0
  if incomingPairsCount = mqEofVal then
    return none
  else if incomingPairsCount.toInt < 0 then
    .undefined
  else do
    let acc ← readPairs visit buf incomingPairsCount.toNat intSize acc
    return some acc

end Reading

/-- The pairs of a received buffer, in order. -/
def decodeMessage (buf : Bytes) : Outcome (Option (List WordCountPair)) :=
  receivePairs (fun acc word freq => .ok (acc ++ [{ word := word, count := freq }])) buf []

/-! ## The layout -/

/-- The bytes of one pair. -/
def encodePair (pair : WordCountPair) : Bytes := pair.word.stored ++ intBytes pair.count

/-- The bytes of a list of pairs. -/
def encodePairs (pairs : List WordCountPair) : Bytes := pairs.flatMap encodePair

/-- `strlen(word) + 1 + sizeof(int)`: what a pair takes of a message. -/
def pairSize (pair : WordCountPair) : Nat := pair.word.strlen + 1 + intSize

/-- What a list of pairs takes of a message. -/
def payload (pairs : List WordCountPair) : Nat := (pairs.map pairSize).sum

@[simp] theorem payload_nil : payload [] = 0 := rfl

@[simp] theorem payload_cons (pair : WordCountPair) (pairs : List WordCountPair) :
    payload (pair :: pairs) = pairSize pair + payload pairs := rfl

theorem payload_append (ps qs : List WordCountPair) :
    payload (ps ++ qs) = payload ps + payload qs := by
  simp [payload]

@[simp] theorem length_encodePair (pair : WordCountPair) :
    (encodePair pair).length = pairSize pair := by
  simp [encodePair, pairSize]

@[simp] theorem encodePairs_nil : encodePairs [] = [] := rfl

@[simp] theorem encodePairs_cons (pair : WordCountPair) (pairs : List WordCountPair) :
    encodePairs (pair :: pairs) = encodePair pair ++ encodePairs pairs := rfl

@[simp] theorem length_encodePairs (pairs : List WordCountPair) :
    (encodePairs pairs).length = payload pairs := by
  induction pairs with
  | nil => rfl
  | cons pair pairs ih => simp [ih]

/-- Every pair takes at least a terminator and an int. -/
theorem five_mul_length_le_payload (pairs : List WordCountPair) :
    5 * pairs.length ≤ payload pairs := by
  induction pairs with
  | nil => rfl
  | cons pair pairs ih =>
      simp only [payload_cons, List.length_cons, pairSize, intSize]
      omega

/-- The buffer starts with a data message of these pairs. -/
def EncodesPairs (buf : Bytes) (pairs : List WordCountPair) : Prop :=
  pairs.length < 2 ^ 31 ∧
    ∃ rest, buf = intBytes (BitVec.ofNat 32 pairs.length) ++ encodePairs pairs ++ rest

/-- The buffer starts with an EOF message. -/
def EncodesEof (buf : Bytes) : Prop := ∃ rest, buf = intBytes mqEofVal ++ rest

theorem EncodesPairs.append {buf : Bytes} {pairs : List WordCountPair}
    (h : EncodesPairs buf pairs) (tail : Bytes) : EncodesPairs (buf ++ tail) pairs := by
  obtain ⟨hlen, rest, rfl⟩ := h
  exact ⟨hlen, rest ++ tail, by simp⟩

theorem EncodesEof.append {buf : Bytes} (h : EncodesEof buf) (tail : Bytes) :
    EncodesEof (buf ++ tail) := by
  obtain ⟨rest, rfl⟩ := h
  exact ⟨rest ++ tail, by simp⟩

/-! ## Reading what was written -/

/-- The reading loop visits encoded pairs in order. -/
theorem readPairs_encodePairs {σ : Type} (visit : σ → CString → BitVec 32 → Outcome σ)
    {buf rest : Bytes} : ∀ (pairs : List WordCountPair) (off : Nat) (acc : σ),
      buf.drop off = encodePairs pairs ++ rest →
      readPairs visit buf pairs.length off acc
        = pairs.foldlM (fun acc pair => visit acc pair.word pair.count) acc := by
  intro pairs
  induction pairs with
  | nil => intro off acc _; rfl
  | cons pair pairs ih =>
      intro off acc h
      have hword : buf.drop off
          = pair.word.stored ++ (intBytes pair.count ++ (encodePairs pairs ++ rest)) := by
        rw [h, encodePairs_cons, encodePair]
        simp only [List.append_assoc]
      have hint : buf.drop (off + (pair.word.strlen + 1))
          = intBytes pair.count ++ (encodePairs pairs ++ rest) := by
        rw [← List.drop_drop, hword, ← CString.length_stored, List.drop_left]
      have hnext : buf.drop (off + (pair.word.strlen + 1) + intSize)
          = encodePairs pairs ++ rest := by
        rw [← List.drop_drop, hint, ← length_intBytes pair.count, List.drop_left]
      rw [List.length_cons, readPairs, CString.load_stored hword, Outcome.ok_bind]
      dsimp only
      rw [loadInt_intBytes hint, Outcome.ok_bind, List.foldlM_cons]
      congr 1
      funext acc'
      exact ih _ acc' hnext

theorem toInt_ofNat_of_lt {n : Nat} (h : n < 2 ^ 31) : (BitVec.ofNat 32 n).toInt = n := by
  have hn : (BitVec.ofNat 32 n).toNat = n := by
    rw [BitVec.toNat_ofNat, Nat.mod_eq_of_lt (by omega)]
  rw [BitVec.toInt_eq_toNat_of_lt (by omega), hn]

/-- **Decoder law, data**: a received data message visits exactly its pairs, in order. -/
theorem receivePairs_encodesPairs {σ : Type} (visit : σ → CString → BitVec 32 → Outcome σ)
    {buf : Bytes} {pairs : List WordCountPair} (h : EncodesPairs buf pairs) (acc : σ) :
    receivePairs visit buf acc
      = pairs.foldlM (fun acc pair => visit acc pair.word pair.count) acc >>= (.ok ∘ some) := by
  obtain ⟨hlen, rest, hbuf⟩ := h
  have hcount : loadInt buf 0 = .ok (BitVec.ofNat 32 pairs.length) :=
    loadInt_intBytes (by rw [hbuf, List.drop_zero, List.append_assoc])
  have hint := toInt_ofNat_of_lt hlen
  have hne : BitVec.ofNat 32 pairs.length ≠ mqEofVal := by
    intro h
    rw [h] at hint
    have : mqEofVal.toInt = -1 := by decide
    omega
  have hnat : (BitVec.ofNat 32 pairs.length).toNat = pairs.length := by
    rw [BitVec.toNat_ofNat, Nat.mod_eq_of_lt (by omega)]
  have hdrop : buf.drop intSize = encodePairs pairs ++ rest := by
    rw [hbuf, List.append_assoc, ← length_intBytes (BitVec.ofNat 32 pairs.length), List.drop_left]
  rw [receivePairs, hcount, Outcome.ok_bind, if_neg hne, if_neg (by omega), hnat,
    readPairs_encodePairs visit pairs intSize acc hdrop]
  rfl

/-- **Decoder law, EOF**. -/
theorem receivePairs_encodesEof {σ : Type} (visit : σ → CString → BitVec 32 → Outcome σ)
    {buf : Bytes} (h : EncodesEof buf) (acc : σ) : receivePairs visit buf acc = .ok none := by
  obtain ⟨rest, hbuf⟩ := h
  have hcount : loadInt buf 0 = .ok mqEofVal := loadInt_intBytes (by rw [hbuf, List.drop_zero])
  rw [receivePairs, hcount, Outcome.ok_bind, if_pos rfl]
  rfl

theorem foldlM_append_pairs (pairs acc : List WordCountPair) :
    pairs.foldlM (fun acc pair => Outcome.ok (acc ++ [{ word := pair.word, count := pair.count }]))
      acc = .ok (acc ++ pairs) := by
  induction pairs generalizing acc with
  | nil => simp
  | cons pair pairs ih => rw [List.foldlM_cons, Outcome.ok_bind, ih]; simp

theorem decodeMessage_encodesPairs {buf : Bytes} {pairs : List WordCountPair}
    (h : EncodesPairs buf pairs) : decodeMessage buf = .ok (some pairs) := by
  rw [decodeMessage, receivePairs_encodesPairs _ h, foldlM_append_pairs]
  rfl

theorem decodeMessage_encodesEof {buf : Bytes} (h : EncodesEof buf) :
    decodeMessage buf = .ok none :=
  receivePairs_encodesEof _ h []

end Cs342.WordCount
