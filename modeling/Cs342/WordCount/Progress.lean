import Mathlib
import Cs342.WordCount.Delivery

/-!
# Progress of a `pword` child

Every message but the last is meant to move the index past a pair that no earlier message held.
Since a message starts with the pair its predecessor ended with, it takes two pairs in the first
message and three in a later one (`Advances`). Three words always fit from a message size of 256
on; with 128 the send loop may move on without a new pair behind it, or stand still for ever.
-/

namespace Cs342.WordCount

open ByteBuffer

section

variable {pairs : List WordCountPair} {msgSize : Nat}

/-- Every message that leaves pairs unsent moves the index past a pair that was not in an earlier
message. -/
def MakesProgress (pairs : List WordCountPair) (msgSize : Nat) : Prop :=
  ∀ k i sent i' message, childRun pairs msgSize k = .ok (.sending i, sent) →
    childStep pairs msgSize (.sending i) = .ok (some (.sending i', message)) →
    i' ≠ pairs.length →
    ∃ x pair, i ≤ x ∧ x < i' ∧ pairs[x]? = some pair ∧
      ∀ m ∈ sent, ∀ b, decodeMessage m = .ok (some b) → pair ∉ b

/-- Packing `rest`, whose first `again` pairs have been sent before: every message that leaves
pairs unsent ends at least two pairs after those. -/
inductive Advances (cap : Nat) : Nat → List WordCountPair → Prop
  | last {again : Nat} {rest : List WordCountPair} : payload rest ≤ cap → Advances cap again rest
  | more {again : Nat} {rest : List WordCountPair} : again + 2 ≤ fit cap rest →
      Advances cap 1 (leftover cap rest) → Advances cap again rest

theorem leftover_length_lt {cap : Nat} {rest : List WordCountPair} (htwo : 2 ≤ fit cap rest) :
    (leftover cap rest).length < rest.length := by
  have := fit_le_length cap rest
  unfold leftover
  split
  · simp only [List.length_nil]
    omega
  · rw [List.length_drop]
    omega

/-- If any three pairs fit into one message, every message advances. -/
theorem advances_of_three_fit {cap m : Nat} (hcap : 3 * m ≤ cap) :
    ∀ (rest : List WordCountPair) (again : Nat), again ≤ 1 → (∀ p ∈ rest, pairSize p ≤ m) →
      Advances cap again rest := by
  intro rest
  induction hn : rest.length using Nat.strong_induction_on generalizing rest with
  | _ n ih =>
      intro again hagain hpairs
      by_cases hall : payload rest ≤ cap
      · exact .last hall
      · -- fewer than three pairs would all fit
        have hthree : 3 ≤ fit cap rest := by
          match rest, hpairs with
          | [], _ => exact absurd (Nat.zero_le _) hall
          | [p], hpairs =>
              have := hpairs p (by simp)
              simp only [payload_cons, payload_nil] at hall
              omega
          | [p, q], hpairs =>
              have := hpairs p (by simp)
              have := hpairs q (by simp)
              simp only [payload_cons, payload_nil] at hall
              omega
          | p :: q :: r :: ps, hpairs =>
              have := hpairs p (by simp)
              have := hpairs q (by simp)
              have := hpairs r (by simp)
              refine le_fit (by simp) ?_
              simp only [List.take_succ_cons, List.take_zero, payload_cons, payload_nil]
              omega
        refine .more (by omega) (ih _ ?_ _ rfl 1 le_rfl fun p hp => ?_)
        · exact hn ▸ leftover_length_lt (by omega)
        · exact hpairs p ((leftover_suffix cap rest).subset hp)

/-! ## What the earlier messages held -/

/-- Nothing has been sent, or the pairs sent are those in front of the ones left and the first of
these. -/
def SentUpTo (pairs out rest : List WordCountPair) : Prop :=
  out = [] ∧ rest = pairs ∨
    out ≠ [] ∧ ∃ i, rest = pairs.drop i ∧ ∀ p, p ∈ out ↔ p ∈ pairs.take (i + 1)

/-- How many of the pairs left have been sent before. -/
def again (out : List WordCountPair) : Nat := if out = [] then 0 else 1

theorem mem_take_add {i k : Nat} (hk : 0 < k) {p : WordCountPair} :
    p ∈ pairs.take (i + 1) ∨ p ∈ (pairs.drop i).take k ↔ p ∈ pairs.take (i + k) := by
  have hsplit : pairs.take (i + k) = pairs.take i ++ (pairs.drop i).take k := List.take_add
  constructor
  · rintro (h | h)
    · exact (List.take_prefix_take_left (by omega)).subset h
    · rw [hsplit]
      exact List.mem_append_right _ h
  · intro h
    rw [hsplit, List.mem_append] at h
    exact h.imp_left fun h => (List.take_prefix_take_left (by omega)).subset h

theorem sentUpTo_step {cap : Nat} {out rest : List WordCountPair} (hpos : 0 < fit cap rest)
    (h : SentUpTo pairs out rest) :
    SentUpTo pairs (out ++ batch cap rest) (leftover cap rest) ∧ out ++ batch cap rest ≠ [] := by
  have hle := fit_le_length cap rest
  have hne : batch cap rest ≠ [] := by
    rw [batch, Ne, List.take_eq_nil_iff, not_or]
    exact ⟨by omega, List.ne_nil_of_length_pos (by omega)⟩
  have hne' : out ++ batch cap rest ≠ [] := by simp [hne]
  -- the index in front of the pairs left, and the pairs sent up to the end of the batch
  obtain ⟨i, rfl, hmem⟩ : ∃ i, rest = pairs.drop i ∧
      ∀ p, p ∈ out ++ batch cap rest ↔ p ∈ pairs.take (i + fit cap rest) := by
    rcases h with ⟨rfl, rfl⟩ | ⟨_, i, hrest, hout⟩
    · exact ⟨0, rfl, fun p => by rw [List.nil_append, Nat.zero_add, batch]⟩
    · refine ⟨i, hrest, fun p => ?_⟩
      rw [List.mem_append, hout, ← mem_take_add hpos, batch, ← hrest]
  refine ⟨Or.inr ⟨hne', ?_⟩, hne'⟩
  rw [List.length_drop] at hle
  unfold leftover
  split
  · next hk =>
      refine ⟨pairs.length, List.drop_length.symm, fun p => ?_⟩
      rw [hmem, List.take_of_length_le, List.take_of_length_le (by omega)]
      rw [hk, List.length_drop]
      omega
  · refine ⟨i + (fit cap (pairs.drop i) - 1), List.drop_drop, fun p => ?_⟩
    rw [hmem]
    congr! 2
    omega

/-- A pair is in some batch exactly when some message decodes to a list with it. -/
theorem mem_flatten_iff_decoded {sent : List Message} {batches : List (List WordCountPair)}
    (h : List.Forall₂ EncodesPairs sent batches) {pair : WordCountPair} :
    pair ∈ batches.flatten ↔
      ∃ m ∈ sent, ∃ b, decodeMessage m = .ok (some b) ∧ pair ∈ b := by
  induction h with
  | nil => simp
  | cons hb _ ih =>
      rw [List.flatten_cons, List.mem_append, ih]
      simp [decodeMessage_encodesPairs hb]

/-- A message that leaves pairs unsent moves the index past a new pair exactly if it ends two
pairs after the ones sent before. -/
theorem new_pair_iff (hnodup : pairs.Nodup) {sent : List Message}
    {batches : List (List WordCountPair)} (hsent : List.Forall₂ EncodesPairs sent batches)
    {i k : Nat} (hup : SentUpTo pairs batches.flatten (pairs.drop i)) (hk : i + k < pairs.length) :
    (∃ x pair, i ≤ x ∧ x < i + k - 1 ∧ pairs[x]? = some pair ∧
        ∀ m ∈ sent, ∀ b, decodeMessage m = .ok (some b) → pair ∉ b) ↔
      again batches.flatten + 2 ≤ k := by
  have hnew : ∀ pair, (∀ m ∈ sent, ∀ b, decodeMessage m = .ok (some b) → pair ∉ b) ↔
      pair ∉ batches.flatten := by
    intro pair
    rw [mem_flatten_iff_decoded hsent]
    simp only [not_exists, not_and]
  simp only [hnew]
  rcases hup with ⟨hnil, -⟩ | ⟨hne, j, hdrop, hmem⟩
  · -- in the first message every pair is new
    rw [again, if_pos hnil, hnil]
    constructor
    · rintro ⟨x, -, h₁, h₂, -⟩
      omega
    · intro h
      exact ⟨i, pairs[i], le_rfl, by omega, List.getElem?_eq_getElem _, List.not_mem_nil⟩
  · -- later the first pair is the last one of the message before, and no other is old
    have hij : j = i := by
      have := congrArg List.length hdrop
      rw [List.length_drop, List.length_drop] at this
      omega
    subst hij
    rw [again, if_neg hne]
    simp only [hmem]
    constructor
    · rintro ⟨x, pair, h₁, h₂, hx, hpair⟩
      by_contra hlt
      obtain ⟨hxlt, rfl⟩ := List.getElem?_eq_some_iff.mp hx
      exact hpair (List.mem_take_iff_getElem.mpr ⟨x, by omega, rfl⟩)
    · intro h
      refine ⟨j + 1, pairs[j + 1], by omega, by omega, List.getElem?_eq_getElem _, fun hin => ?_⟩
      obtain ⟨x, hx, heq⟩ := List.mem_take_iff_getElem.mp hin
      have := (hnodup.getElem_inj_iff).mp heq
      omega

/-! ## The exact condition -/

theorem Advances.neighboursFit {cap n : Nat} {rest : List WordCountPair}
    (h : Advances cap n rest) : NeighboursFit cap rest := by
  induction h with
  | last hall => exact neighboursFit_of_payload_le hall
  | more hk _ ih =>
      by_contra hneigh
      exact not_neighboursFit_leftover (by omega) hneigh ih

/-- A child that has ended and made progress on the way has packed so. -/
theorem advances_of_progress (hsize : msgSize ∈ validMsgSizes) (hfits : EachFits msgSize pairs)
    (hnodup : pairs.Nodup) (hneigh : NeighboursFit (msgSize - intSize) pairs)
    (hprog : MakesProgress pairs msgSize) :
    ∀ (d i k : Nat) (sent : List Message) (batches : List (List WordCountPair)),
      pairs.length - i ≤ d → childRun pairs msgSize k = .ok (.sending i, sent) →
      i ≤ pairs.length → List.Forall₂ EncodesPairs sent batches →
      SentUpTo pairs batches.flatten (pairs.drop i) →
      Advances (msgSize - intSize) (again batches.flatten) (pairs.drop i) := by
  intro d
  induction d with
  | zero =>
      intro i k sent batches hd _ hi _ _
      rw [List.drop_eq_nil_of_le (by omega)]
      exact .last (Nat.zero_le _)
  | succ d ih =>
      intro i k sent batches hd hrun hi hsent hup
      by_cases hall : payload (pairs.drop i) ≤ msgSize - intSize
      · exact .last hall
      · have hlt : fit (msgSize - intSize) (pairs.drop i) < (pairs.drop i).length :=
          Nat.lt_of_le_of_ne (fit_le_length _ _) fun h => hall (fit_eq_length_iff.mp h)
        have hlen := List.length_drop (i := i) (l := pairs)
        obtain ⟨child, message, hstep, -, ⟨hilt, henc, i', rfl, hi', hnext, hleft⟩ | ⟨h, -, -⟩⟩ :=
          childStep_sending hsize hfits hi
        · have hwithin : (ChildState.sending i).Within pairs := hi
          have hlower := childStep_left_lt hsize hfits hneigh hwithin hstep
          simp only [ChildState.left] at hlower
          have hpos : 0 < fit (msgSize - intSize) (pairs.drop i) := by
            refine fit_pos ?_ fun p hp => hfits p (List.mem_of_mem_drop hp)
            exact List.ne_nil_of_length_pos (by omega)
          rw [nextIndex, if_neg (by omega)] at hnext
          have hnew := hprog k i sent i' message hrun hstep (by omega)
          rw [hnext] at hnew
          -- the new pair tells how many the message holds, and the run goes on from its end
          have hk := (new_pair_iff hnodup hsent hup (by omega)).mp hnew
          obtain ⟨hup', hne⟩ := sentUpTo_step hpos hup
          have hrun' : childRun pairs msgSize (k + 1) = .ok (.sending i', sent ++ [message]) := by
            simp [childRun, hrun, hstep]
          have := ih i' (k + 1) (sent ++ [message]) (batches ++ [_]) (by omega) hrun' hi'
            (List.rel_append hsent (.cons henc .nil))
            (by rwa [List.flatten_append, List.flatten_singleton, hleft])
          rw [List.flatten_append, List.flatten_singleton, again, if_neg hne, hleft] at this
          exact .more hk this
        · omega

/-- A child that packs so makes progress. -/
theorem progress_of_advances (hsize : msgSize ∈ validMsgSizes) (hfits : EachFits msgSize pairs)
    (hnodup : pairs.Nodup) (hadv : Advances (msgSize - intSize) 0 pairs) :
    MakesProgress pairs msgSize := by
  intro k i sent i' message hrun hstep hi'
  -- along the run, what is left is still packed so
  obtain ⟨child, sent', hrun', hwithin, hinv⟩ := childRun_sent hsize hfits
    (Q := fun out rest => SentUpTo pairs out rest ∧ Advances (msgSize - intSize) (again out) rest)
    ⟨Or.inl ⟨rfl, rfl⟩, hadv⟩ (by
      rintro out rest hne hrest ⟨hup, hadv⟩
      obtain ⟨hup', hne'⟩ := sentUpTo_step (fit_pos hne fun p hp => hfits p (hrest.subset hp)) hup
      refine ⟨hup', ?_⟩
      rw [again, if_neg hne']
      cases hadv with
      | last hall =>
          rw [leftover_eq_nil (fit_eq_length_iff.mpr hall)]
          exact .last (Nat.zero_le _)
      | more _ hmore => exact hmore) k
  rw [hrun] at hrun'
  cases hrun'
  obtain ⟨batches, hsent, hup, hadv⟩ := hinv
  obtain ⟨child, message', hstep', -, ⟨hilt, -, j, rfl, -, hnext, -⟩ | ⟨-, -, rfl⟩⟩ :=
    childStep_sending hsize hfits hwithin
  · rw [hstep'] at hstep
    cases hstep
    have hlen := List.length_drop (i := i) (l := pairs)
    have hle := fit_le_length (msgSize - intSize) (pairs.drop i)
    have hlt : i + fit (msgSize - intSize) (pairs.drop i) < pairs.length := by
      by_contra h
      rw [nextIndex, if_pos (by omega)] at hnext
      exact hi' hnext
    rw [nextIndex, if_neg (by omega)] at hnext
    rw [hnext]
    refine (new_pair_iff hnodup hsent hup hlt).mpr ?_
    cases hadv with
    | last hall => have := fit_eq_length_iff.mpr hall; omega
    | more hk _ => exact hk
  · rw [hstep'] at hstep
    cases hstep

/-- **Termination and progress** for the table of a file. The send loop ends exactly if any two
neighbouring pairs fit into one message; it ends and every message that leaves pairs unsent moves
the index past a new pair exactly if the packing advances, as it does from a message size of 256
on. -/
theorem parsed_child_progress_iff {fs : FileSystem} {name : String} {a : WordCountArray}
    (hparse : parseInFile fs name = .ok a) (hsize : msgSize ∈ validMsgSizes) :
    ((∃ k msgs, childRun a.pairs msgSize k = .ok (.exited, msgs)) ↔
        NeighboursFit (msgSize - intSize) a.pairs) ∧
      ((∃ k msgs, childRun a.pairs msgSize k = .ok (.exited, msgs)) ∧
          MakesProgress a.pairs msgSize ↔
        Advances (msgSize - intSize) 0 a.pairs) ∧
      (256 ≤ msgSize → Advances (msgSize - intSize) 0 a.pairs) := by
  obtain ⟨stream, -, hent⟩ := parseInFile_eq_ok hparse
  obtain ⟨hnodup, hwords⟩ := pairs_of_fileTally hent
  have hfits := eachFits_of_strlen_le hsize hwords
  have hexit := exited_iff_neighboursFit hsize hfits
  refine ⟨hexit, ?_, ?_⟩
  · constructor
    · rintro ⟨hends, hprog⟩
      exact advances_of_progress hsize hfits hnodup (hexit.mp hends) hprog a.pairs.length 0 0 [] []
        (by omega) rfl (Nat.zero_le _) .nil (Or.inl ⟨rfl, rfl⟩)
    · intro hadv
      exact ⟨hexit.mpr hadv.neighboursFit, progress_of_advances hsize hfits hnodup hadv⟩
  · intro hbig
    refine advances_of_three_fit (m := wordWidth + 5) ?_ a.pairs 0 (by omega) fun p hp => ?_
    · unfold wordWidth intSize
      omega
    · have := hwords p hp
      unfold pairSize intSize
      omega

end

/-! ## A loop that never ends -/

/-- Two words of the scanner's full width. -/
def twoLongWords : Bytes := List.replicate 63 65 ++ [32] ++ List.replicate 63 66

theorem parseInFile_twoLongWords :
    parseInFile (sameFile twoLongWords) "in"
      = .ok { pairs := [repeatedPair 63 65, repeatedPair 63 66], allocatedSize := 2 } := by
  have h₁ : scanWord twoLongWords
      = some (List.replicate 63 65, [32] ++ List.replicate 63 66) := by decide +kernel
  have h₂ : scanWord ([32] ++ List.replicate 63 66) = some (List.replicate 63 66, []) := by
    decide +kernel
  rw [parseInFile, sameFile]
  dsimp only
  rw [countWords_some h₁]
  decide +kernel

theorem parsed_child_progress_iff_twoLongWords :
    ((∃ k msgs, childRun [repeatedPair 63 65, repeatedPair 63 66] 256 k = .ok (.exited, msgs)) ↔
        NeighboursFit (256 - intSize) [repeatedPair 63 65, repeatedPair 63 66]) ∧
      ((∃ k msgs, childRun [repeatedPair 63 65, repeatedPair 63 66] 256 k
            = .ok (.exited, msgs)) ∧ MakesProgress [repeatedPair 63 65, repeatedPair 63 66] 256 ↔
        Advances (256 - intSize) 0 [repeatedPair 63 65, repeatedPair 63 66]) ∧
      (256 ≤ 256 → Advances (256 - intSize) 0 [repeatedPair 63 65, repeatedPair 63 66]) :=
  parsed_child_progress_iff parseInFile_twoLongWords (by decide)

/-- In messages of 128 bytes the child sends the first of the two words for ever. -/
theorem child_twoLongWords_never_exits :
    128 ∈ validMsgSizes ∧
      ∃ a, parseInFile (sameFile twoLongWords) "in" = .ok a ∧
        (∀ p ∈ a.pairs, 0 < p.word.strlen ∧ p.word.strlen ≤ wordWidth) ∧
        ∀ k msgs, childRun a.pairs 128 k ≠ .ok (.exited, msgs) := by
  refine ⟨by decide, _, parseInFile_twoLongWords, by decide, fun k msgs h => ?_⟩
  have hfits : EachFits 128 [repeatedPair 63 65, repeatedPair 63 66] :=
    eachFits_of_strlen_le (by decide) (by decide)
  exact absurd ((exited_iff_neighboursFit (by decide) hfits).mp ⟨k, msgs, h⟩) (by decide)

end Cs342.WordCount
