import Mathlib
import Cs342.WordCount.Sending

/-!
# Termination and delivery of a `pword` child

Whether the send loop of `run_child_actions` ends depends on neighbouring pairs only: a message
moves the index past at least one pair exactly when two pairs fit into it. What a child that has
ended has delivered is its table and, because the index is set back after every overflow, the last
pair of every message but the last once more.
-/

namespace Cs342.WordCount

open ByteBuffer

section

variable {pairs : List WordCountPair} {msgSize : Nat}

/-! ## Termination -/

/-- The messages still to come at most, if every message moves the index. -/
def ChildState.left (pairs : List WordCountPair) : ChildState → Nat
  | .sending i => pairs.length - i + 1
  | .exited => 0

/-- If neighbours fit, every message gets the child ahead. -/
theorem childStep_left_lt (hsize : msgSize ∈ validMsgSizes) (hfits : EachFits msgSize pairs)
    (hneigh : NeighboursFit (msgSize - intSize) pairs) {child child' : ChildState}
    {message : Message} (hwithin : child.Within pairs)
    (hstep : childStep pairs msgSize child = .ok (some (child', message))) :
    child'.left pairs < child.left pairs := by
  cases child with
  | exited => cases hstep
  | sending i =>
      obtain ⟨child₁, message₁, hstep₁, _, hcase⟩ := childStep_sending hsize hfits hwithin
      rw [hstep₁] at hstep
      cases hstep
      rcases hcase with ⟨hlt, -, i', rfl, hi', hnext, -⟩ | ⟨-, -, rfl⟩
      · have hk := fit_le_length (msgSize - intSize) (pairs.drop i)
        have htwo := (hneigh.suffix (List.drop_suffix i pairs)).two_le_fit
        have hone : 0 < fit (msgSize - intSize) (pairs.drop i) := by
          refine fit_pos ?_ fun p hp => hfits p (List.mem_of_mem_drop hp)
          rw [Ne, List.drop_eq_nil_iff]
          omega
        rw [List.length_drop] at hk htwo
        -- a message of two pairs or more moves the index, in spite of the pair sent again
        have : i < i' := by
          rw [hnext, nextIndex]
          split
          · exact hlt
          · have := htwo (by omega)
            omega
        simp only [ChildState.left]
        omega
      · simp [ChildState.left]

/-- After as many messages as there are pairs, and one, the child has ended. -/
theorem childRun_exits (hsize : msgSize ∈ validMsgSizes) (hfits : EachFits msgSize pairs)
    (hneigh : NeighboursFit (msgSize - intSize) pairs) :
    ∃ msgs, childRun pairs msgSize (pairs.length + 1) = .ok (.exited, msgs) := by
  -- either the run has ended, or each message has taken one from what is left
  have hrun : ∀ k, ∃ child sent, childRun pairs msgSize k = .ok (child, sent) ∧
      child.Within pairs ∧ child.left pairs + k ≤ pairs.length + 1 ∨
        ∃ sent, childRun pairs msgSize k = .ok (.exited, sent) := by
    intro k
    induction k with
    | zero => exact ⟨.sending 0, [], Or.inl ⟨rfl, Nat.zero_le _, le_of_eq (by simp [ChildState.left])⟩⟩
    | succ k ih =>
        obtain ⟨child, sent, ⟨hk, hwithin, hleft⟩ | ⟨sent, hk⟩⟩ := ih
        · rcases childStep_within hsize hfits hwithin with
            ⟨hstep, rfl⟩ | ⟨child', message, hstep, hwithin', -⟩
          · refine ⟨.exited, sent, Or.inr ⟨sent, ?_⟩⟩
            simp [childRun, hk, hstep]
          · have := childStep_left_lt hsize hfits hneigh hwithin hstep
            refine ⟨child', sent ++ [message], Or.inl ⟨?_, hwithin', by omega⟩⟩
            simp [childRun, hk, hstep]
        · refine ⟨.exited, sent, Or.inr ⟨sent, ?_⟩⟩
          simp [childRun, hk, childStep]
  obtain ⟨child, sent, ⟨hk, -, hleft⟩ | h⟩ := hrun (pairs.length + 1)
  · cases child with
    | exited => exact ⟨sent, hk⟩
    | sending i => simp only [ChildState.left] at hleft; omega
  · exact h

/-- How what has been sent and what is left add up: if neighbours fit, to the pairs and the resent
ones once more; otherwise some neighbours that do not fit are still left. -/
def Accounts (cap : Nat) (pairs out rest : List WordCountPair) : Prop :=
  (NeighboursFit cap pairs → (out ++ (rest ++ resent cap rest)).Perm (pairs ++ resent cap pairs)) ∧
    (¬ NeighboursFit cap pairs → ¬ NeighboursFit cap rest)

theorem Accounts.init (cap : Nat) (pairs : List WordCountPair) : Accounts cap pairs [] pairs :=
  ⟨fun _ => .refl _, id⟩

theorem Accounts.step (hfits : EachFits msgSize pairs) {out rest : List WordCountPair}
    (hne : rest ≠ []) (hrest : rest <:+ pairs)
    (h : Accounts (msgSize - intSize) pairs out rest) :
    Accounts (msgSize - intSize) pairs (out ++ batch (msgSize - intSize) rest)
      (leftover (msgSize - intSize) rest) := by
  have hpos : 0 < fit (msgSize - intSize) rest :=
    fit_pos hne fun p hp => hfits p (hrest.subset hp)
  refine ⟨fun hneigh => ?_, fun hneigh => not_neighboursFit_leftover hpos (h.2 hneigh)⟩
  rw [List.append_assoc]
  refine .trans (.symm ((perm_batch_leftover ?_).append_left out)) (h.1 hneigh)
  have hle := fit_le_length (msgSize - intSize) rest
  have htwo := (hneigh.suffix hrest).two_le_fit
  omega

/-- A child that has nothing left has sent its pairs, and the resent ones once more. -/
theorem Accounts.done {cap : Nat} {out : List WordCountPair} (h : Accounts cap pairs out []) :
    NeighboursFit cap pairs ∧ out.Perm (pairs ++ resent cap pairs) := by
  have hneigh : NeighboursFit cap pairs := by
    by_contra hneigh
    exact h.2 hneigh List.isChain_nil
  have hperm := h.1 hneigh
  rw [resent_nil, List.append_nil, List.append_nil] at hperm
  exact ⟨hneigh, hperm⟩

/-- **Termination**: the send loop ends exactly if any two neighbouring pairs fit into one
message. -/
theorem exited_iff_neighboursFit (hsize : msgSize ∈ validMsgSizes)
    (hfits : EachFits msgSize pairs) :
    (∃ k msgs, childRun pairs msgSize k = .ok (.exited, msgs)) ↔
      NeighboursFit (msgSize - intSize) pairs := by
  constructor
  · rintro ⟨k, msgs, hk⟩
    by_contra hneigh
    obtain ⟨child, sent, hrun, -, hinv⟩ := childRun_sent hsize hfits (Accounts.init _ _)
      (fun _ _ => Accounts.step hfits) k
    rw [hk] at hrun
    cases hrun
    obtain ⟨_, _, _, _, _, _, hdone⟩ := hinv
    exact hneigh hdone.done.1
  · intro hneigh
    obtain ⟨msgs, h⟩ := childRun_exits hsize hfits hneigh
    exact ⟨_, msgs, h⟩

/-! ## Delivery -/

/-- The messages are data messages and one EOF message at their end; received, with any bytes
behind them in the buffer, the data messages hold these pairs in this order. -/
def Delivers (msgs : List Message) (pairs : List WordCountPair) : Prop :=
  ∃ data eof batches, msgs = data ++ [eof] ∧
    List.Forall₂ (fun message b => ∀ tail, decodeMessage (message ++ tail) = .ok (some b))
      data batches ∧
    (∀ tail, decodeMessage (eof ++ tail) = .ok none) ∧ batches.flatten = pairs

/-- What well-formed messages deliver. -/
theorem delivers_of_encodes {data : List Message} {eof : Message}
    {batches : List (List WordCountPair)} (hdata : List.Forall₂ EncodesPairs data batches)
    (heof : EncodesEof eof) : Delivers (data ++ [eof]) batches.flatten :=
  ⟨data, eof, batches, rfl,
    hdata.imp fun _ _ h tail => decodeMessage_encodesPairs (h.append tail),
    fun tail => decodeMessage_encodesEof (heof.append tail), rfl⟩

/-- Messages deliver one list of pairs only. -/
theorem Delivers.unique {msgs : List Message} {ps qs : List WordCountPair}
    (hp : Delivers msgs ps) (hq : Delivers msgs qs) : ps = qs := by
  obtain ⟨data, eof, bs, rfl, hbs, -, rfl⟩ := hp
  obtain ⟨data', eof', cs, hmsgs, hcs, -, rfl⟩ := hq
  obtain rfl : data = data' := (List.append_inj' hmsgs rfl).1
  have huniq : bs = cs := by
    clear hmsgs
    induction hbs generalizing cs with
    | nil => cases hcs; rfl
    | cons hb _ ih =>
        cases hcs with
        | cons hc hcs =>
            have := (hb []).symm.trans (hc [])
            rw [Option.some.inj (Outcome.ok.inj this), ih _ hcs]
  rw [huniq]

/-- **What a child that has ended has delivered**: its pairs, and the resent ones once more. -/
theorem childRun_resent (hsize : msgSize ∈ validMsgSizes) (hfits : EachFits msgSize pairs)
    {k : Nat} {msgs : List Message} (hk : childRun pairs msgSize k = .ok (.exited, msgs)) :
    ∃ ps, Delivers msgs ps ∧ ps.Perm (pairs ++ resent (msgSize - intSize) pairs) := by
  obtain ⟨child, sent, hrun, -, hinv⟩ := childRun_sent hsize hfits (Accounts.init _ _)
    (fun _ _ => Accounts.step hfits) k
  rw [hk] at hrun
  cases hrun
  obtain ⟨data, eof, batches, rfl, hdata, heof, hq⟩ := hinv
  exact ⟨_, delivers_of_encodes hdata heof, hq.done.2⟩

/-- Pairs that all fit into one message are delivered as they are. -/
theorem childRun_delivers_of_payload_le (hsize : msgSize ∈ validMsgSizes)
    (hfits : EachFits msgSize pairs) (hall : payload pairs ≤ msgSize - intSize)
    {k : Nat} {msgs : List Message} (hk : childRun pairs msgSize k = .ok (.exited, msgs)) :
    Delivers msgs pairs := by
  obtain ⟨child, sent, hrun, -, hinv⟩ := childRun_sent hsize hfits
    (Q := fun out rest => out ++ rest = pairs) rfl (by
      intro out rest _ _ hq
      have hrest : payload rest ≤ msgSize - intSize := by
        rw [← hq, payload_append] at hall
        omega
      have hk := fit_eq_length_iff.mpr hrest
      rw [batch_eq_self hk, leftover_eq_nil hk, List.append_nil, hq]) k
  rw [hk] at hrun
  cases hrun
  obtain ⟨data, eof, batches, rfl, hdata, heof, hq⟩ := hinv
  rw [List.append_nil] at hq
  exact hq ▸ delivers_of_encodes hdata heof

/-- Nothing is resent exactly when one message holds all. -/
theorem resent_eq_nil_iff (hfits : EachFits msgSize pairs)
    (hneigh : NeighboursFit (msgSize - intSize) pairs) :
    resent (msgSize - intSize) pairs = [] ↔ payload pairs ≤ msgSize - intSize := by
  rw [← fit_eq_length_iff]
  constructor
  · intro h
    by_contra hne
    have hlt := Nat.lt_of_le_of_ne (fit_le_length (msgSize - intSize) pairs) hne
    have hpos : 0 < fit (msgSize - intSize) pairs :=
      fit_pos (List.ne_nil_of_length_pos (by omega)) hfits
    have htwo := hneigh.two_le_fit (by omega)
    obtain ⟨p, -, hp⟩ := leftover_eq_cons hpos hlt
    rw [resent, if_pos ⟨htwo, hlt⟩, hp] at h
    simp at h
  · exact resent_of_fit

/-- **Exact delivery.** Whenever the send loop ends it has delivered the table, each pair once and
in order, exactly if it either never ends, because two neighbouring pairs do not fit into one
message, or sends a single message, because all pairs do. -/
theorem childRun_delivers_iff (hsize : msgSize ∈ validMsgSizes)
    (hwords : ∀ p ∈ pairs, p.word.strlen ≤ wordWidth) :
    (∀ k msgs, childRun pairs msgSize k = .ok (.exited, msgs) → Delivers msgs pairs) ↔
      ¬ NeighboursFit (msgSize - intSize) pairs ∨ payload pairs ≤ msgSize - intSize := by
  have hfits := eachFits_of_strlen_le hsize hwords
  constructor
  · intro h
    by_cases hneigh : NeighboursFit (msgSize - intSize) pairs
    · obtain ⟨msgs, hk⟩ := childRun_exits hsize hfits hneigh
      obtain ⟨ps, hps, hperm⟩ := childRun_resent hsize hfits hk
      have hlen := hperm.length_eq
      rw [hps.unique (h _ _ hk), List.length_append] at hlen
      right
      rw [← resent_eq_nil_iff hfits hneigh, ← List.length_eq_zero_iff]
      omega
    · exact Or.inl hneigh
  · rintro (hneigh | hall) k msgs hk
    · exact absurd ((exited_iff_neighboursFit hsize hfits).mp ⟨k, msgs, hk⟩) hneigh
    · exact childRun_delivers_of_payload_le hsize hfits hall hk

/-- The word of `n` times the byte `b`, counted once. -/
def repeatedPair (n : Nat) (b : UInt8) : WordCountPair where
  word := CString.ofBytes (List.replicate n b)
  count := 1

/-- Three words of 40 bytes: two of them fill a message of 128 bytes. -/
def threeLongPairs : List WordCountPair :=
  [repeatedPair 40 65, repeatedPair 40 66, repeatedPair 40 67]

theorem childRun_delivers_iff_threeLongPairs :
    (∀ k msgs, childRun threeLongPairs 256 k = .ok (.exited, msgs) →
        Delivers msgs threeLongPairs) ↔
      ¬ NeighboursFit (256 - intSize) threeLongPairs ∨ payload threeLongPairs ≤ 256 - intSize :=
  childRun_delivers_iff (by decide) (by decide)

/-- In messages of 128 bytes the second of the three words is sent twice. -/
theorem childRun_threeLongPairs_repeats :
    (128 ∈ validMsgSizes ∧
        ∀ p ∈ threeLongPairs, 0 < p.word.strlen ∧ p.word.strlen ≤ wordWidth) ∧
      ∃ msgs, childRun threeLongPairs 128 3 = .ok (.exited, msgs) ∧
        Delivers msgs [repeatedPair 40 65, repeatedPair 40 66, repeatedPair 40 66,
          repeatedPair 40 67] ∧
        ¬ Delivers msgs threeLongPairs := by
  refine ⟨⟨by decide, by decide⟩, ?_⟩
  have hrun : childRun threeLongPairs 128 3 = .ok (.exited,
      [intBytes 2 ++ encodePairs [repeatedPair 40 65, repeatedPair 40 66] ++ List.replicate 34 0,
        intBytes 2 ++ encodePairs [repeatedPair 40 66, repeatedPair 40 67] ++
          List.replicate 34 0] ++ [intBytes mqEofVal ++ List.replicate 124 0]) := by
    decide +kernel
  have hdelivers : Delivers _ [[repeatedPair 40 65, repeatedPair 40 66],
      [repeatedPair 40 66, repeatedPair 40 67]].flatten :=
    delivers_of_encodes
      (.cons ⟨by decide, List.replicate 34 0, rfl⟩
        (.cons ⟨by decide, List.replicate 34 0, rfl⟩ .nil)) ⟨List.replicate 124 0, rfl⟩
  refine ⟨_, hrun, hdelivers, fun h => ?_⟩
  exact absurd (hdelivers.unique h) (by decide)

end

end Cs342.WordCount
