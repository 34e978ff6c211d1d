import Mathlib
import Cs342.Library.Interleaving
import Cs342.WordCount.Message
import Cs342.WordCount.Output

/-!
# The receive loop of the `pword` parent (`await_child_processes`)

The parent receives messages into one buffer, whose bytes behind a short message are those of
earlier ones, adds the pairs of a data message to its table and counts EOF messages until every
child has sent one. Every child's sequence ends with its EOF message, so whatever the interleaving,
the last message of all is the EOF message the parent returns on
(`awaitChildProcesses_interleaving`).
-/

namespace Cs342.WordCount

open ByteBuffer

/-! ## The loop -/

/-- The variables of `await_child_processes`. -/
structure ParentState where
  pairArray : WordCountArray
  completedChildrenCount : Nat
  buf : Bytes

namespace ParentState

/-- The state before the loop, with whatever `malloc` left in the buffer. -/
def start (buf : Bytes) : ParentState where
  pairArray := initWordCountArray
  completedChildrenCount := 0
  buf := buf

/-- One iteration: `mq_receive` into the start of the buffer, then the EOF test or the pairs. -/
def receive (s : ParentState) (message : Message) : Outcome ParentState := do
  let buf ← store s.buf 0 message
  match ← receivePairs incrementWord buf s.pairArray with
  | none =>
    return { s with buf := buf, completedChildrenCount := s.completedChildrenCount + 1 }
  | some pairArray => return { s with buf := buf, pairArray := pairArray }

end ParentState

/-- The parent on the messages in the order of their arrival: it has returned its table and left
some of them unread, or it waits for another one. -/
inductive AwaitResult where
  | returned (pairArray : WordCountArray) (unread : List Message)
  | waiting (s : ParentState)

/-- `await_child_processes`. -/
def awaitChildProcesses (inFileCount : Nat) (s : ParentState) :
    List Message → Outcome AwaitResult
  | [] =>
    if s.completedChildrenCount < inFileCount then .ok (.waiting s)
    else .ok (.returned s.pairArray [])
  | message :: messages =>
    if s.completedChildrenCount < inFileCount then do
      let s ← s.receive message
      awaitChildProcesses inFileCount s messages
    else
      .ok (.returned s.pairArray (message :: messages))

/-- Once every child has completed nothing more is read. -/
theorem await_of_completed {n : Nat} {s : ParentState} (h : n ≤ s.completedChildrenCount)
    (messages : List Message) :
    awaitChildProcesses n s messages = .ok (.returned s.pairArray messages) := by
  cases messages with
  | nil => rw [awaitChildProcesses, if_neg (by omega)]
  | cons message messages => rw [awaitChildProcesses, if_neg (by omega)]

theorem await_of_receive {n : Nat} {s s' : ParentState} {message : Message}
    (hlt : s.completedChildrenCount < n) (h : s.receive message = .ok s')
    (messages : List Message) :
    awaitChildProcesses n s (message :: messages) = awaitChildProcesses n s' messages := by
  rw [awaitChildProcesses, if_pos hlt, h, Outcome.ok_bind]

/-! ## One message -/

/-- The pairs of a message, if it is a data message. -/
def pairsOf (message : Message) : List WordCountPair :=
  match decodeMessage message with
  | .ok (some pairs) => pairs
  | _ => []

theorem pairsOf_encodesPairs {message : Message} {pairs : List WordCountPair}
    (h : EncodesPairs message pairs) : pairsOf message = pairs := by
  rw [pairsOf, decodeMessage_encodesPairs h]

theorem pairsOf_encodesEof {message : Message} (h : EncodesEof message) :
    pairsOf message = [] := by
  rw [pairsOf, decodeMessage_encodesEof h]

section Receive

variable {s : ParentState} {t : List (CString × BitVec 32)} {message : Message}

/-- A data message adds its pairs to the table. -/
theorem receive_encodesPairs (hrep : Represents s.pairArray t) {pairs : List WordCountPair}
    (henc : EncodesPairs message pairs) (hlen : message.length ≤ s.buf.length) :
    ∃ s', s.receive message = .ok s' ∧
      Represents s'.pairArray (Tally.bumpAll t (entries (pairsOf message))) ∧
      s'.completedChildrenCount = s.completedChildrenCount ∧ s'.buf.length = s.buf.length := by
  obtain ⟨a, ha, hrep'⟩ := incrementWords_represents hrep pairs
  refine ⟨{ s with buf := message ++ s.buf.drop message.length, pairArray := a }, ?_, ?_, rfl, ?_⟩
  · rw [ParentState.receive, store_start hlen, Outcome.ok_bind,
      receivePairs_encodesPairs _ (henc.append _), ha]
    rfl
  · rw [pairsOf_encodesPairs henc]
    exact hrep'
  · simp only [List.length_append, List.length_drop]
    omega

/-- An EOF message counts a child as completed. -/
theorem receive_encodesEof (hrep : Represents s.pairArray t) (henc : EncodesEof message)
    (hlen : message.length ≤ s.buf.length) :
    ∃ s', s.receive message = .ok s' ∧
      Represents s'.pairArray (Tally.bumpAll t (entries (pairsOf message))) ∧
      s'.completedChildrenCount = s.completedChildrenCount + 1 ∧
      s'.buf.length = s.buf.length := by
  refine ⟨{ s with
    buf := message ++ s.buf.drop message.length
    completedChildrenCount := s.completedChildrenCount + 1 }, ?_, ?_, rfl, ?_⟩
  · rw [ParentState.receive, store_start hlen, Outcome.ok_bind,
      receivePairs_encodesEof _ (henc.append _)]
    rfl
  · rw [pairsOf_encodesEof henc]
    exact hrep
  · simp only [List.length_append, List.length_drop]
    omega

end Receive

/-! ## All interleavings -/

/-- A child's sequence: data messages with these pairs, in order, and one EOF message, all of them
short enough for a buffer of `bufSize` bytes. -/
inductive WellEnded (bufSize : Nat) : List Message → List WordCountPair → Prop
  | eof {message : Message} : EncodesEof message → message.length ≤ bufSize →
      WellEnded bufSize [message] []
  | data {message : Message} {messages : List Message} {pairs rest : List WordCountPair} :
      EncodesPairs message pairs → message.length ≤ bufSize → WellEnded bufSize messages rest →
      WellEnded bufSize (message :: messages) (pairs ++ rest)

theorem WellEnded.ne_nil {bufSize : Nat} {seq : List Message} {pairs : List WordCountPair}
    (h : WellEnded bufSize seq pairs) : seq ≠ [] := by
  cases h with
  | eof _ _ => simp
  | data _ _ _ => simp

theorem WellEnded.flatMap_pairsOf {bufSize : Nat} {seq : List Message}
    {pairs : List WordCountPair} (h : WellEnded bufSize seq pairs) :
    seq.flatMap pairsOf = pairs := by
  induction h with
  | eof henc _ => rw [List.flatMap_singleton, pairsOf_encodesEof henc]
  | data henc _ _ ih => rw [List.flatMap_cons, pairsOf_encodesPairs henc, ih]

/-- The sequences that have a message left. -/
def unfinished (seqs : List (List Message)) : Nat := seqs.countP (· ≠ [])

theorem unfinished_set {seqs : List (List Message)} {i : Nat} {m : Message} {l : List Message}
    (h : seqs[i]? = some (m :: l)) :
    unfinished seqs = unfinished (seqs.set i l) + if l = [] then 1 else 0 := by
  obtain ⟨hlt, hget⟩ := List.getElem?_eq_some_iff.mp h
  have hpos : 0 < seqs.countP (· ≠ []) := by
    rw [List.countP_pos_iff]
    exact ⟨m :: l, List.mem_of_getElem? h, by simp⟩
  have hset : (seqs.set i l).countP (· ≠ [])
      = seqs.countP (· ≠ []) - 1 + if l = [] then 0 else 1 := by
    rw [List.countP_set hlt, hget]
    by_cases hl : l = [] <;> simp [hl]
  unfold unfinished
  split_ifs at hset ⊢ <;> omega

/-- **Run lemma.** From any point of the loop, whatever order the rest of the sequences comes in,
the parent takes all of it, returns with the last message, and waits before that. -/
theorem await_of_interleaves {bufSize n : Nat} {seqs : List (List Message)} {out : List Message}
    (hout : Interleaves seqs out) :
    ∀ (s : ParentState) (t : List (CString × BitVec 32)), Represents s.pairArray t →
      s.buf.length = bufSize → (∀ seq ∈ seqs, seq = [] ∨ ∃ pairs, WellEnded bufSize seq pairs) →
      s.completedChildrenCount + unfinished seqs = n →
      (∃ a, awaitChildProcesses n s out = .ok (.returned a []) ∧
        Represents a (Tally.bumpAll t (entries (out.flatMap pairsOf)))) ∧
      ∀ taken, taken <+: out → taken ≠ out →
        ∃ s', awaitChildProcesses n s taken = .ok (.waiting s') := by
  induction hout with
  | @done seqs hnil =>
      intro s t hrep _ _ hn
      have hzero : unfinished seqs = 0 := by
        rw [unfinished, List.countP_eq_zero]
        intro seq hseq
        simp [hnil seq hseq]
      refine ⟨⟨s.pairArray, ?_, hrep⟩, fun taken htaken hne => ?_⟩
      · rw [awaitChildProcesses, if_neg (by omega)]
      · exact absurd (List.prefix_nil.mp htaken) hne
  | @take seqs i m l out hi _ ih =>
      intro s t hrep hbuf hseqs hn
      have hset := unfinished_set hi
      have hpos : 0 < unfinished seqs := by
        rw [unfinished, List.countP_pos_iff]
        exact ⟨m :: l, List.mem_of_getElem? hi, by simp⟩
      have hlt : s.completedChildrenCount < n := by omega
      have hrest : ∀ (hl : l = [] ∨ ∃ pairs, WellEnded bufSize l pairs),
          ∀ seq ∈ seqs.set i l, seq = [] ∨ ∃ pairs, WellEnded bufSize seq pairs := by
        intro hl seq hseq
        rcases List.mem_or_eq_of_mem_set hseq with hseq | rfl
        · exact hseqs seq hseq
        · exact hl
      -- the parent takes the message, and is as far behind the rest as before
      obtain ⟨s', hs', hrep', hbuf', hl, hn'⟩ : ∃ s', s.receive m = .ok s' ∧
          Represents s'.pairArray (Tally.bumpAll t (entries (pairsOf m))) ∧
          s'.buf.length = bufSize ∧ (l = [] ∨ ∃ pairs, WellEnded bufSize l pairs) ∧
          s'.completedChildrenCount + unfinished (seqs.set i l) = n := by
        obtain hnil | ⟨pairs, hseq⟩ := hseqs _ (List.mem_of_getElem? hi)
        · cases hnil
        · cases hseq with
          | eof henc hlen =>
              obtain ⟨s', hs', hrep', hcount, hbuf'⟩ :=
                receive_encodesEof hrep henc (hbuf ▸ hlen)
              refine ⟨s', hs', hrep', hbuf'.trans hbuf, Or.inl rfl, ?_⟩
              rw [if_pos rfl] at hset
              omega
          | data henc hlen hrest =>
              obtain ⟨s', hs', hrep', hcount, hbuf'⟩ :=
                receive_encodesPairs hrep henc (hbuf ▸ hlen)
              refine ⟨s', hs', hrep', hbuf'.trans hbuf, Or.inr ⟨_, hrest⟩, ?_⟩
              rw [if_neg hrest.ne_nil] at hset
              omega
      have hstep := await_of_receive hlt hs'
      obtain ⟨⟨a, ha, hrepa⟩, hwait⟩ := ih s' _ hrep' hbuf' (hrest hl) hn'
      refine ⟨⟨a, by rw [hstep, ha], ?_⟩, fun taken htaken hne => ?_⟩
      · rw [List.flatMap_cons, entries_append, Tally.bumpAll, List.foldl_append]
        exact hrepa
      · cases taken with
        | nil => exact ⟨s, by rw [awaitChildProcesses, if_pos hlt]⟩
        | cons m' taken =>
            obtain ⟨rfl, htail⟩ := List.cons_prefix_cons.mp htaken
            rw [hstep]
            exact hwait taken htail fun h => hne (by rw [h])

/-- The pairs of an interleaving are those of the sequences. -/
theorem perm_flatMap_pairsOf {bufSize : Nat} {seqs : List (List Message)}
    {contents : List (List WordCountPair)} (hseqs : List.Forall₂ (WellEnded bufSize) seqs contents)
    {out : List Message} (hout : Interleaves seqs out) :
    (out.flatMap pairsOf).Perm contents.flatten := by
  have hcontents : seqs.flatten.flatMap pairsOf = contents.flatten := by
    clear hout
    induction hseqs with
    | nil => rfl
    | cons h _ ih =>
        rw [List.flatten_cons, List.flatMap_append, ih, h.flatMap_pairsOf, List.flatten_cons]
  exact hcontents ▸ hout.perm_flatten.flatMap_right pairsOf

/-- The parent from its start, on any interleaving of the children's sequences. -/
theorem await_start {bufSize : Nat} {seqs : List (List Message)}
    {contents : List (List WordCountPair)} (hseqs : List.Forall₂ (WellEnded bufSize) seqs contents)
    {buf : Bytes} (hbuf : buf.length = bufSize) {out : List Message}
    (hout : Interleaves seqs out) :
    (∃ a, awaitChildProcesses seqs.length (.start buf) out = .ok (.returned a []) ∧
      Represents a (Tally.bumpAll [] (entries (out.flatMap pairsOf)))) ∧
    ∀ taken, taken <+: out → taken ≠ out →
      ∃ s, awaitChildProcesses seqs.length (.start buf) taken = .ok (.waiting s) := by
  have hended : ∀ seq ∈ seqs, ∃ pairs, WellEnded bufSize seq pairs := by
    clear hout
    induction hseqs with
    | nil => simp
    | cons h _ ih => exact List.forall_mem_cons.mpr ⟨⟨_, h⟩, ih⟩
  have hall : unfinished seqs = seqs.length := by
    rw [unfinished, List.countP_eq_length]
    intro seq hseq
    obtain ⟨pairs, h⟩ := hended seq hseq
    simpa using h.ne_nil
  exact await_of_interleaves hout (.start buf) [] initWordCountArray_represents hbuf
    (fun seq hseq => Or.inr (hended seq hseq)) (by rw [hall]; exact Nat.zero_add _)

/-! ## The counts -/

/-- The sum of the counts of a word, as a number. -/
def wordSum (pairs : List WordCountPair) (word : CString) : Int :=
  ((pairs.filter fun p => p.word = word).map fun p => p.count.toInt).sum

/-- A count is the sum, as far as an int holds it. -/
theorem total_entries_eq_wordSum (pairs : List WordCountPair) (word : CString) :
    Tally.total (entries pairs) word = BitVec.ofInt 32 (wordSum pairs word) := by
  induction pairs with
  | nil => rfl
  | cons p pairs ih =>
      rw [entries_cons, Tally.total_cons, ih]
      by_cases h : p.word = word
      · have : wordSum (p :: pairs) word = p.count.toInt + wordSum pairs word := by
          simp [wordSum, h]
        rw [if_pos h, this, BitVec.ofInt_add, BitVec.ofInt_toInt]
      · have : wordSum (p :: pairs) word = wordSum pairs word := by
          simp [wordSum, h]
        rw [if_neg h, this, zero_add]

theorem toInt_total_entries {pairs : List WordCountPair} {word : CString}
    (hmin : -2 ^ 31 ≤ wordSum pairs word) (hmax : wordSum pairs word < 2 ^ 31) :
    (Tally.total (entries pairs) word).toInt = wordSum pairs word := by
  rw [total_entries_eq_wordSum, BitVec.toInt_ofInt]
  exact Int.bmod_eq_of_le (by omega) (by omega)

/-- **The parent under any interleaving.** If every child's sequence ends in its EOF message, the
parent returns exactly with the last message of all. Its table has distinct words, those of the
messages, each with the sum of its counts if an int holds it, and the output file is the same for
every interleaving. -/
theorem awaitChildProcesses_interleaving {bufSize : Nat} {seqs : List (List Message)}
    {contents : List (List WordCountPair)} (hseqs : List.Forall₂ (WellEnded bufSize) seqs contents)
    {buf : Bytes} (hbuf : buf.length = bufSize) {out : List Message}
    (hout : Interleaves seqs out) :
    ∃ a, awaitChildProcesses seqs.length (.start buf) out = .ok (.returned a []) ∧
      (∀ taken, taken <+: out → taken ≠ out →
        ∃ s, awaitChildProcesses seqs.length (.start buf) taken = .ok (.waiting s)) ∧
      (a.pairs.map (·.word)).Nodup ∧
      (∀ word, word ∈ a.pairs.map (·.word) ↔ word ∈ contents.flatten.map (·.word)) ∧
      (∀ p ∈ a.pairs, -2 ^ 31 ≤ wordSum contents.flatten p.word →
        wordSum contents.flatten p.word < 2 ^ 31 →
        p.count.toInt = wordSum contents.flatten p.word) ∧
      ∀ out', Interleaves seqs out' → ∀ buf' : Bytes, buf'.length = bufSize →
        ∃ a', awaitChildProcesses seqs.length (.start buf') out' = .ok (.returned a' []) ∧
          ∀ fs outFileName, writeOutputFile fs a' outFileName
            = writeOutputFile fs a outFileName := by
  obtain ⟨⟨a, ha, hrep⟩, hwait⟩ := await_start hseqs hbuf hout
  have hperm := perm_flatMap_pairsOf hseqs hout
  have hn : (Tally.keys (entries a.pairs)).Nodup :=
    hrep.entries_eq ▸ Tally.nodup_keys_bumpAll List.nodup_nil
  have hmem : ∀ {out' a'}, Interleaves seqs out' →
      Represents a' (Tally.bumpAll [] (entries (out'.flatMap pairsOf))) →
      ∀ word, word ∈ Tally.keys (entries a'.pairs) ↔ word ∈ contents.flatten.map (·.word) := by
    intro out' a' hout' hrep' word
    rw [hrep'.entries_eq, Tally.mem_keys_bumpAll, keys_entries,
      ((perm_flatMap_pairsOf hseqs hout').map _).mem_iff]
    simp
  have htotal : ∀ {out' a'}, Interleaves seqs out' →
      Represents a' (Tally.bumpAll [] (entries (out'.flatMap pairsOf))) →
      ∀ word, Tally.total (entries a'.pairs) word = Tally.total (entries contents.flatten) word := by
    intro out' a' hout' hrep' word
    rw [hrep'.entries_eq, Tally.total_bumpAll, Tally.total_nil, zero_add]
    exact Tally.total_perm ((perm_flatMap_pairsOf hseqs hout').map _) word
  refine ⟨a, ha, hwait, ?_, ?_, ?_, ?_⟩
  · rwa [keys_entries] at hn
  · intro word
    rw [← keys_entries]
    exact hmem hout hrep word
  · intro p hp hmin hmax
    have hentry : p.entry ∈ entries a.pairs := List.mem_map_of_mem hp
    have hcount : p.count = Tally.total (entries contents.flatten) p.word :=
      (Tally.total_eq_of_mem hn hentry).symm.trans (htotal hout hrep p.word)
    rw [hcount]
    exact toInt_total_entries hmin hmax
  · intro out' hout' buf' hbuf'
    obtain ⟨⟨a', ha', hrep'⟩, -⟩ := await_start hseqs hbuf' hout'
    refine ⟨a', ha', fun fs outFileName => ?_⟩
    have hn' : (Tally.keys (entries a'.pairs)).Nodup :=
      hrep'.entries_eq ▸ Tally.nodup_keys_bumpAll List.nodup_nil
    exact writeOutputFile_eq_of_total_eq hn' hn
      (fun word => (hmem hout' hrep' word).trans (hmem hout hrep word).symm)
      (fun word => (htotal hout' hrep' word).trans (htotal hout hrep word).symm) fs outFileName

/-- A data message of one pair. -/
def onePairMessage : Message :=
  intBytes 1 ++ encodePairs [{ word := CString.ofBytes [65], count := 2 }]

theorem onePairMessage_wellEnded : WellEnded 16 [onePairMessage, intBytes mqEofVal]
    ([{ word := CString.ofBytes [65], count := 2 }] ++ []) :=
  .data ⟨by decide, [], rfl⟩ (by decide) (.eof ⟨[], rfl⟩ (by decide))

theorem awaitChildProcesses_interleaving_two_children :
    ∃ a, awaitChildProcesses 2 (.start (List.replicate 16 7)) [onePairMessage, onePairMessage,
        intBytes mqEofVal, intBytes mqEofVal] = .ok (.returned a []) ∧
      (a.pairs.map (·.word)).Nodup := by
  obtain ⟨a, ha, -, hnodup, -⟩ := awaitChildProcesses_interleaving
    (.cons onePairMessage_wellEnded (.cons onePairMessage_wellEnded .nil))
    (by decide : (List.replicate 16 (7 : UInt8)).length = 16)
    (.take (i := 1) rfl (.take (i := 0) rfl (.take (i := 0) rfl (.take (i := 1) rfl
      (.done (by decide))))))
  exact ⟨a, ha, hnodup⟩

end Cs342.WordCount
