import Mathlib
import Cs342.WordCount.Child

/-!
# What a `pword` child has sent

A child works on the pairs that are left, `pairs.drop i`: a message is the `batch` of them that
fits, and what is left afterwards, `leftover`, starts with the last pair of that batch again, unless
the batch was all. `SentInv` is the invariant of the send loop, open in the relation `Q` between
what has been sent and what is left; one step rule (`childStep_sent`) serves every such relation.

* The loop ends exactly if any two neighbouring pairs fit into one message
  (`exited_iff_neighboursFit`).
* A child that has ended has sent its pairs and the `resent` ones once more (`childRun_resent`).
-/

namespace Cs342.WordCount

open ByteBuffer

/-! ## Packing a list -/

/-- The pairs of the next message. -/
def batch (cap : Nat) (rest : List WordCountPair) : List WordCountPair := rest.take (fit cap rest)

/-- The pairs left after that message. -/
def leftover (cap : Nat) (rest : List WordCountPair) : List WordCountPair :=
  if fit cap rest = rest.length then [] else rest.drop (fit cap rest - 1)

/-- Any two neighbouring pairs fit into one message. -/
def NeighboursFit (cap : Nat) (pairs : List WordCountPair) : Prop :=
  pairs.IsChain fun p q => pairSize p + pairSize q ≤ cap

instance (cap : Nat) (pairs : List WordCountPair) : Decidable (NeighboursFit cap pairs) :=
  inferInstanceAs (Decidable (pairs.IsChain fun p q => pairSize p + pairSize q ≤ cap))

/-- The pairs that are sent twice: the last one of every message but the last. -/
def resent (cap : Nat) (rest : List WordCountPair) : List WordCountPair :=
  if 2 ≤ fit cap rest ∧ fit cap rest < rest.length then
    (leftover cap rest).take 1 ++ resent cap (leftover cap rest)
  else
    []
termination_by rest.length
decreasing_by
  next h =>
    rw [leftover, if_neg (by omega), List.length_drop]
    omega

theorem payload_take_le (pairs : List WordCountPair) {j k : Nat} (h : j ≤ k) :
    payload (pairs.take j) ≤ payload (pairs.take k) := by
  have hsplit := payload_append ((pairs.take k).take j) ((pairs.take k).drop j)
  rw [List.take_append_drop, List.take_take, Nat.min_eq_left h] at hsplit
  omega

/-- Whatever number of pairs fits, the run has as many. -/
theorem le_fit {cap j : Nat} {pairs : List WordCountPair} (hj : j ≤ pairs.length)
    (h : payload (pairs.take j) ≤ cap) : j ≤ fit cap pairs := by
  by_contra hlt
  have h₁ := lt_payload_take_fit_succ (by omega : fit cap pairs < pairs.length)
  have h₂ := payload_take_le pairs (by omega : fit cap pairs + 1 ≤ j)
  omega

theorem fit_pos {cap : Nat} {pairs : List WordCountPair} (hne : pairs ≠ [])
    (h : ∀ p ∈ pairs, pairSize p ≤ cap) : 0 < fit cap pairs := by
  cases pairs with
  | nil => exact absurd rfl hne
  | cons p ps =>
      refine le_fit (j := 1) (by simp) ?_
      simpa using h p List.mem_cons_self

/-- If neighbours fit, a message that leaves pairs unsent has two at least. -/
theorem NeighboursFit.two_le_fit {cap : Nat} {pairs : List WordCountPair}
    (h : NeighboursFit cap pairs) (hlen : 2 ≤ pairs.length) : 2 ≤ fit cap pairs := by
  match pairs, h, hlen with
  | p :: q :: ps, h, _ =>
      refine le_fit (by simp) ?_
      have := (List.isChain_cons_cons.mp h).1
      simpa using this

theorem NeighboursFit.suffix {cap : Nat} {pairs rest : List WordCountPair}
    (h : NeighboursFit cap pairs) (hrest : rest <:+ pairs) : NeighboursFit cap rest :=
  List.IsChain.suffix h hrest

/-- Pairs that all fit into one message are neighbours that fit. -/
theorem neighboursFit_of_payload_le {cap : Nat} {pairs : List WordCountPair}
    (h : payload pairs ≤ cap) : NeighboursFit cap pairs := by
  induction pairs with
  | nil => exact List.isChain_nil
  | cons p ps ih =>
      cases ps with
      | nil => exact List.isChain_singleton p
      | cons q qs =>
          simp only [payload_cons] at h ih
          exact List.isChain_cons_cons.mpr ⟨by omega, ih (by omega)⟩

theorem leftover_suffix (cap : Nat) (rest : List WordCountPair) : leftover cap rest <:+ rest := by
  unfold leftover
  split
  · exact List.nil_suffix
  · exact List.drop_suffix _ _

/-- A message that leaves pairs unsent splits them at its last pair. -/
theorem leftover_eq_cons {cap : Nat} {rest : List WordCountPair} (hpos : 0 < fit cap rest)
    (hlt : fit cap rest < rest.length) :
    ∃ p, p ∈ batch cap rest ∧ leftover cap rest = p :: rest.drop (fit cap rest) := by
  have hk : fit cap rest - 1 < rest.length := by omega
  refine ⟨rest[fit cap rest - 1], ?_, ?_⟩
  · rw [batch, List.mem_take_iff_getElem]
    exact ⟨fit cap rest - 1, by omega, rfl⟩
  · rw [leftover, if_neg (by omega), List.drop_eq_getElem_cons hk]
    congr 2
    omega

theorem batch_eq_self {cap : Nat} {rest : List WordCountPair} (h : fit cap rest = rest.length) :
    batch cap rest = rest := by
  rw [batch, h, List.take_length]

theorem leftover_eq_nil {cap : Nat} {rest : List WordCountPair} (h : fit cap rest = rest.length) :
    leftover cap rest = [] := if_pos h

theorem resent_nil (cap : Nat) : resent cap [] = [] := by
  rw [resent]
  simp

theorem resent_of_fit {cap : Nat} {rest : List WordCountPair} (h : fit cap rest = rest.length) :
    resent cap rest = [] := by
  rw [resent, if_neg (by omega)]

/-- What is sent twice is sent twice only, and is not the first pair. -/
theorem resent_sublist (cap : Nat) (rest : List WordCountPair) :
    (resent cap rest).Sublist rest.tail := by
  induction rest using resent.induct cap with
  | case1 rest h ih =>
      obtain ⟨p, -, hp⟩ := leftover_eq_cons (by omega) h.2
      have hdrop : leftover cap rest = rest.tail.drop (fit cap rest - 2) := by
        rw [leftover, if_neg (by omega), List.drop_tail]
        congr 1
        omega
      rw [resent, if_pos h]
      rw [hp, List.tail_cons] at ih
      have hcons : ([p] ++ resent cap (leftover cap rest)).Sublist (leftover cap rest) := by
        rw [hp]
        exact ih.cons_cons p
      have htake : (leftover cap rest).take 1 = [p] := by rw [hp]; rfl
      rw [htake]
      exact hcons.trans (hdrop ▸ List.drop_sublist _ _)
  | case2 rest h =>
      rw [resent, if_neg h]
      exact List.nil_sublist _

theorem resent_subset (cap : Nat) (rest : List WordCountPair) : resent cap rest ⊆ rest :=
  ((resent_sublist cap rest).trans (List.tail_sublist rest)).subset

/-- Taking one message off, the pairs that are left and the ones that will be sent twice keep what
they have together. -/
theorem perm_batch_leftover {cap : Nat} {rest : List WordCountPair}
    (h : fit cap rest = rest.length ∨ 2 ≤ fit cap rest) :
    (rest ++ resent cap rest).Perm
      (batch cap rest ++ (leftover cap rest ++ resent cap (leftover cap rest))) := by
  by_cases hk : fit cap rest = rest.length
  · rw [batch_eq_self hk, leftover_eq_nil hk, resent_of_fit hk, resent_nil, List.append_nil,
      List.append_nil, List.append_nil]
  · have hlt := Nat.lt_of_le_of_ne (fit_le_length cap rest) hk
    have htwo : 2 ≤ fit cap rest := h.resolve_left hk
    obtain ⟨p, -, hp⟩ := leftover_eq_cons (by omega) hlt
    rw [resent, if_pos ⟨htwo, hlt⟩, hp]
    have hsplit : batch cap rest ++ rest.drop (fit cap rest) = rest := List.take_append_drop _ _
    generalize resent cap (p :: rest.drop (fit cap rest)) = twice
    conv_lhs => rw [← hsplit]
    simp only [List.take_succ_cons, List.take_zero, List.append_assoc, List.cons_append,
      List.nil_append]
    exact List.perm_middle.append_left _

/-- What does not fit next to each other is still left after a message. -/
theorem not_neighboursFit_leftover {cap : Nat} {rest : List WordCountPair}
    (hpos : 0 < fit cap rest) (h : ¬ NeighboursFit cap rest) :
    ¬ NeighboursFit cap (leftover cap rest) := by
  have hne : fit cap rest ≠ rest.length := by
    intro hk
    exact h (neighboursFit_of_payload_le (fit_eq_length_iff.mp hk))
  have hlt := Nat.lt_of_le_of_ne (fit_le_length cap rest) hne
  intro hleft
  apply h
  -- the batch fits as a whole, and shares its last pair with what is left
  have hbatch : NeighboursFit cap (batch cap rest) :=
    neighboursFit_of_payload_le (payload_take_fit_le cap rest)
  rw [leftover, if_neg hne] at hleft
  unfold NeighboursFit batch at *
  rw [List.isChain_iff_getElem] at hbatch hleft ⊢
  intro x hx
  by_cases hxk : x + 1 < fit cap rest
  · have := hbatch x (by rw [List.length_take]; omega)
    simpa only [List.getElem_take] using this
  · obtain ⟨y, rfl⟩ : ∃ y, x = fit cap rest - 1 + y := ⟨x - (fit cap rest - 1), by omega⟩
    have := hleft y (by rw [List.length_drop]; omega)
    simpa only [List.getElem_drop, Nat.add_assoc] using this

/-! ## The send loop -/

section SendLoop

variable {pairs : List WordCountPair} {msgSize : Nat}

/-- Every pair fits into a message of its own. -/
def EachFits (msgSize : Nat) (pairs : List WordCountPair) : Prop :=
  ∀ p ∈ pairs, pairSize p ≤ msgSize - intSize

/-- The message sizes that `parse_arguments` accepts hold a count and stay below `INT_MAX`. -/
theorem bounds_of_mem_validMsgSizes (h : msgSize ∈ validMsgSizes) :
    128 ≤ msgSize ∧ msgSize < 2 ^ 31 := by
  simp only [validMsgSizes, List.mem_cons, List.not_mem_nil, or_false] at h
  omega

/-- Words of the scanner's width fit into the smallest message. -/
theorem eachFits_of_strlen_le (h : msgSize ∈ validMsgSizes)
    (hwords : ∀ p ∈ pairs, p.word.strlen ≤ wordWidth) : EachFits msgSize pairs := by
  intro p hp
  have h₁ := (bounds_of_mem_validMsgSizes h).1
  have h₂ := hwords p hp
  simp only [pairSize, intSize, wordWidth] at h₂ ⊢
  omega

/-- The index has not left the array. -/
def ChildState.Within (pairs : List WordCountPair) : ChildState → Prop
  | .sending i => i ≤ pairs.length
  | .exited => True

/-- What the send loop keeps: the messages hold batches of pairs, followed by one EOF message in
the end, and `Q` relates what they hold together to what is left. -/
def SentInv (pairs : List WordCountPair)
    (Q : List WordCountPair → List WordCountPair → Prop) (child : ChildState)
    (sent : List Message) : Prop :=
  match child with
  | .sending i => ∃ batches, List.Forall₂ EncodesPairs sent batches ∧
      Q batches.flatten (pairs.drop i)
  | .exited => ∃ data eof batches, sent = data ++ [eof] ∧
      List.Forall₂ EncodesPairs data batches ∧ EncodesEof eof ∧ Q batches.flatten []

theorem eofMessage_eq (hsize : intSize ≤ msgSize) :
    ∃ message, eofMessage msgSize = .ok message ∧ message.length = msgSize ∧
      EncodesEof message := by
  refine ⟨intBytes mqEofVal ++ List.replicate (msgSize - intSize) 0, ?_, ?_, _, rfl⟩
  · rw [eofMessage, store_start (by simpa using hsize), length_intBytes, List.drop_replicate]
  · simp only [List.length_append, length_intBytes, List.length_replicate]
    omega

/-- **One step of a child** in terms of what is left: a batch and the move to the leftover, or the
EOF message. -/
theorem childStep_sending (hsize : msgSize ∈ validMsgSizes) (hfits : EachFits msgSize pairs)
    {i : Nat} (hi : i ≤ pairs.length) :
    ∃ child message, childStep pairs msgSize (.sending i) = .ok (some (child, message)) ∧
      message.length = msgSize ∧
      (i < pairs.length ∧ EncodesPairs message (batch (msgSize - intSize) (pairs.drop i)) ∧
          (∃ i', child = .sending i' ∧ i' ≤ pairs.length ∧
            i' = nextIndex pairs.length i (fit (msgSize - intSize) (pairs.drop i)) ∧
            pairs.drop i' = leftover (msgSize - intSize) (pairs.drop i)) ∨
        i = pairs.length ∧ EncodesEof message ∧ child = .exited) := by
  obtain ⟨hmin, hmax⟩ := bounds_of_mem_validMsgSizes hsize
  have hint : intSize ≤ msgSize := by unfold intSize; omega
  by_cases hlt : i < pairs.length
  · have hpos : 0 < fit (msgSize - intSize) (pairs.drop i) := by
      refine fit_pos ?_ fun p hp => hfits p (List.mem_of_mem_drop hp)
      rw [Ne, List.drop_eq_nil_iff]
      omega
    obtain ⟨message, hbuild, hlen, henc⟩ := buildMessage_eq hint hmax hlt hpos
    have hk := fit_le_length (msgSize - intSize) (pairs.drop i)
    rw [List.length_drop] at hk
    refine ⟨_, message, ?_, hlen, Or.inl ⟨hlt, henc, _, rfl, ?_, rfl, ?_⟩⟩
    · rw [childStep, if_pos (by omega), hbuild]
      rfl
    · unfold nextIndex
      split <;> omega
    · unfold nextIndex leftover
      rw [List.length_drop, List.drop_drop]
      split
      · rw [if_pos (by omega), List.drop_length]
      · rw [if_neg (by omega)]
        congr 1
        omega
  · have hi : i = pairs.length := by omega
    obtain ⟨message, heof, hlen, henc⟩ := eofMessage_eq hint
    refine ⟨.exited, message, ?_, hlen, Or.inr ⟨hi, henc, rfl⟩⟩
    rw [childStep, if_neg (by omega), heof]
    rfl

/-- A child that has not ended sends, and stays within the array. -/
theorem childStep_within (hsize : msgSize ∈ validMsgSizes) (hfits : EachFits msgSize pairs)
    {child : ChildState} (hwithin : child.Within pairs) :
    childStep pairs msgSize child = .ok none ∧ child = .exited ∨
      ∃ child' message, childStep pairs msgSize child = .ok (some (child', message)) ∧
        child'.Within pairs ∧ message.length = msgSize := by
  cases child with
  | exited => exact Or.inl ⟨rfl, rfl⟩
  | sending i =>
      obtain ⟨child', message, hstep, hlen, hcase⟩ := childStep_sending hsize hfits hwithin
      refine Or.inr ⟨child', message, hstep, ?_, hlen⟩
      rcases hcase with ⟨_, _, i', rfl, hi', _⟩ | ⟨_, _, rfl⟩
      · exact hi'
      · trivial

/-- **Step rule of the send loop.** A relation between what is sent and what is left that every
batch keeps is kept by the child. -/
theorem childStep_sent (hsize : msgSize ∈ validMsgSizes) (hfits : EachFits msgSize pairs)
    {Q : List WordCountPair → List WordCountPair → Prop}
    (hQ : ∀ out rest, rest ≠ [] → rest <:+ pairs → Q out rest →
      Q (out ++ batch (msgSize - intSize) rest) (leftover (msgSize - intSize) rest))
    {child child' : ChildState} {message : Message} {sent : List Message}
    (hwithin : child.Within pairs) (hinv : SentInv pairs Q child sent)
    (hstep : childStep pairs msgSize child = .ok (some (child', message))) :
    SentInv pairs Q child' (sent ++ [message]) := by
  cases child with
  | exited => cases hstep
  | sending i =>
      obtain ⟨child₁, message₁, hstep₁, _, hcase⟩ := childStep_sending hsize hfits hwithin
      rw [hstep₁] at hstep
      cases hstep
      obtain ⟨batches, hbatches, hq⟩ := hinv
      rcases hcase with ⟨hlt, henc, i', rfl, _, _, hdrop⟩ | ⟨hi, henc, rfl⟩
      · refine ⟨batches ++ [_], List.rel_append hbatches (List.Forall₂.cons henc .nil), ?_⟩
        rw [List.flatten_append, List.flatten_singleton, hdrop]
        refine hQ _ _ ?_ (List.drop_suffix _ _) hq
        rw [Ne, List.drop_eq_nil_iff]
        omega
      · refine ⟨sent, message, batches, rfl, hbatches, henc, ?_⟩
        rwa [hi, List.drop_length] at hq

/-- **Run rule of the send loop.** -/
theorem childRun_sent (hsize : msgSize ∈ validMsgSizes) (hfits : EachFits msgSize pairs)
    {Q : List WordCountPair → List WordCountPair → Prop} (hinit : Q [] pairs)
    (hQ : ∀ out rest, rest ≠ [] → rest <:+ pairs → Q out rest →
      Q (out ++ batch (msgSize - intSize) rest) (leftover (msgSize - intSize) rest)) (k : Nat) :
    ∃ child sent, childRun pairs msgSize k = .ok (child, sent) ∧ child.Within pairs ∧
      SentInv pairs Q child sent := by
  induction k with
  | zero => exact ⟨.sending 0, [], rfl, Nat.zero_le _, [], .nil, hinit⟩
  | succ k ih =>
      obtain ⟨child, sent, hrun, hwithin, hinv⟩ := ih
      unfold childRun
      rw [hrun, Outcome.ok_bind]
      dsimp only
      rcases childStep_within hsize hfits hwithin with ⟨hstep, -⟩ | ⟨child', message, hstep, hw, -⟩
      · rw [hstep, Outcome.ok_bind]
        exact ⟨child, sent, rfl, hwithin, hinv⟩
      · rw [hstep, Outcome.ok_bind]
        exact ⟨child', sent ++ [message], rfl, hw, childStep_sent hsize hfits hQ hwithin hinv hstep⟩

end SendLoop

end Cs342.WordCount
