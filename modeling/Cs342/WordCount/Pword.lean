import Mathlib
import Cs342.Library.System
import Cs342.WordCount.Delivery
import Cs342.WordCount.Parent
import Cs342.WordCount.Tword

/-!
# `pword`: one process per file (`proj01/src/pword.c`)

`main` forks a child for every input file and then receives; a child parses its file and sends its
table. All children share one bounded message queue, which is empty at the start and keeps the order
of the sends. A step of the system is one fork or one receive of `main`, or one child's parse or
send; who moves next is up to the schedule.

On every schedule the messages received and queued are an interleaving of what the children have
sent (`PwordInv`), so when `main` finishes its table is that of `Parent.lean`: all the pairs of all
tables, and the resent ones once more (`pword_finished`). If neighbouring pairs fit in every table
no schedule blocks, and every schedule ends (`exists_pword_finished`).
-/

namespace Cs342.WordCount

open ByteBuffer

/-! ## The system -/

/-- The queue's `struct mq_attr`: how many messages it holds, and how long they may be. -/
structure MqAttr where
  maxmsg : Nat
  msgsize : Nat

/-- A child process: not forked yet, before `parse_in_file`, in its send loop, or ended before its
EOF message by `exit` or a crash. -/
inductive ChildProcess where
  | unforked
  | parsing
  | sending (pairs : List WordCountPair) (child : ChildState)
  | aborted

/-- Where `main` is: in `spawn_child_processes` at the value of `i`, in `await_child_processes`, or
done. -/
inductive PwordMain where
  | spawning (i : Nat)
  | awaiting (parent : ParentState)
  | exited (result : Outcome Bytes)

structure PwordState where
  main : PwordMain
  children : Nat → ChildProcess
  queue : List Message

inductive PwordLabel where
  | main
  | child (i : Nat)

namespace PwordState

variable (fs : FileSystem) (cliArgs : CommandLineArgs) (attr : MqAttr) (buf : Bytes)

def start : PwordState where
  main := .spawning 0
  children := fun _ => .unforked
  queue := []

def setChild (s : PwordState) (i : Nat) (child : ChildProcess) : PwordState :=
  { s with children := Function.update s.children i child }

/-- One step of `main`; `buf` is what `malloc` returns for the receive buffer. -/
def stepMain (s : PwordState) : Option PwordState :=
  match s.main with
  | .spawning i =>
    if i ≠ cliArgs.inFileCount then
      some { s.setChild i .parsing with main := .spawning (i + 1) }
    else
      some { s with main := .awaiting (.start buf) }
  | .awaiting parent =>
    if parent.completedChildrenCount < cliArgs.inFileCount then
      match s.queue with
      | [] => none
      | message :: queue =>
        match parent.receive message with
        | .ok parent => some { s with main := .awaiting parent, queue := queue }
        | .exit code message => some { s with main := .exited (.exit code message) }
        | .undefined => some { s with main := .exited .undefined }
    else
      some { s with main := .exited (writeOutputFile fs parent.pairArray cliArgs.outFileName) }
  | .exited _ => none

/-- One step of child `i`. `mq_send` refuses a message that is too long and waits while the queue
is full. -/
def stepChild (i : Nat) (s : PwordState) : Option PwordState :=
  match s.children i with
  | .unforked => none
  | .aborted => none
  | .parsing =>
    match cliArgs.inFileNames[i]? with
    | none => some (s.setChild i .aborted)
    | some name =>
      match parseInFile fs name with
      | .ok pairArray => some (s.setChild i (.sending pairArray.pairs (.sending 0)))
      | .exit _ _ => some (s.setChild i .aborted)
      | .undefined => some (s.setChild i .aborted)
  | .sending pairs child =>
    match childStep pairs cliArgs.msgSize child with
    | .ok none => none
    | .ok (some (child, message)) =>
      if attr.msgsize < message.length then
        some (s.setChild i (.sending pairs child))
      else if s.queue.length < attr.maxmsg then
        some { s.setChild i (.sending pairs child) with queue := s.queue ++ [message] }
      else
        none
    | .exit _ _ => some (s.setChild i .aborted)
    | .undefined => some (s.setChild i .aborted)

end PwordState

/-- The program on a file system, a command line, a queue and the memory of its buffer. -/
def pword (fs : FileSystem) (cliArgs : CommandLineArgs) (attr : MqAttr) (buf : Bytes) :
    System PwordState PwordLabel where
  init := PwordState.start
  step
    | .main => PwordState.stepMain fs cliArgs buf
    | .child i => PwordState.stepChild fs cliArgs attr i

/-! ## The tables of the files -/

/-- The pairs of a file's table. -/
def filePairs (stream : Bytes) : List WordCountPair :=
  (fileTally stream).map fun e => { word := e.1, count := e.2 }

theorem entries_filePairs (stream : Bytes) : entries (filePairs stream) = fileTally stream := by
  simp [entries, filePairs, WordCountPair.entry, Function.comp_def]

theorem eq_filePairs {pairs : List WordCountPair} {stream : Bytes}
    (h : entries pairs = fileTally stream) : pairs = filePairs stream :=
  entries_inj.mp (h.trans (entries_filePairs stream).symm)

theorem mem_words_filePairs {stream : Bytes} {w : CString} :
    w ∈ (filePairs stream).map (·.word) ↔ w ∈ tableWords stream := by
  rw [← keys_entries, entries_filePairs, mem_keys_fileTally]

theorem filePairs_eachFits {msgSize : Nat} (hsize : msgSize ∈ validMsgSizes) (stream : Bytes) :
    EachFits msgSize (filePairs stream) :=
  eachFits_of_strlen_le hsize (pairs_of_fileTally (entries_filePairs stream)).2

/-! ## EOF messages -/

/-- The test `incoming_pairs_count == MQ_EOF_VAL`. -/
def isEof (message : Message) : Bool := decide (decodeMessage message = .ok none)

theorem isEof_of_encodesEof {message : Message} (h : EncodesEof message) :
    isEof message = true := by
  simp [isEof, decodeMessage_encodesEof h]

theorem isEof_of_encodesPairs {message : Message} {pairs : List WordCountPair}
    (h : EncodesPairs message pairs) : isEof message = false := by
  simp [isEof, decodeMessage_encodesPairs h]

/-- Has the child sent its EOF message? -/
def ChildProcess.done : ChildProcess → Bool
  | .sending _ .exited => true
  | _ => false

/-- A received message is a data or an EOF message. -/
def Wellformed (message : Message) : Prop :=
  (∃ pairs, EncodesPairs message pairs) ∨ EncodesEof message

theorem wellformed_of_forall₂ {data : List Message} {batches : List (List WordCountPair)}
    (h : List.Forall₂ EncodesPairs data batches) :
    data.countP isEof = 0 ∧ ∀ m ∈ data, Wellformed m := by
  induction h with
  | nil => simp
  | cons henc _ ih =>
      refine ⟨?_, List.forall_mem_cons.mpr ⟨Or.inl ⟨_, henc⟩, ih.2⟩⟩
      rw [List.countP_cons_of_neg (by simp [isEof_of_encodesPairs henc]), ih.1]

theorem SentInv.wellformed {pairs : List WordCountPair}
    {Q : List WordCountPair → List WordCountPair → Prop} {child : ChildState}
    {sent : List Message} (h : SentInv pairs Q child sent) :
    sent.countP isEof = (if child = .exited then 1 else 0) ∧ ∀ m ∈ sent, Wellformed m := by
  cases child with
  | sending i =>
      obtain ⟨batches, hsent, -⟩ := h
      simpa using wellformed_of_forall₂ hsent
  | exited =>
      obtain ⟨data, eof, batches, rfl, hdata, heof, -⟩ := h
      obtain ⟨hcount, hwell⟩ := wellformed_of_forall₂ hdata
      constructor
      · simp [List.countP_append, hcount, isEof_of_encodesEof heof]
      · intro m hm
        rcases List.mem_append.mp hm with hm | hm
        · exact hwell m hm
        · exact Or.inr (List.mem_singleton.mp hm ▸ heof)

/-- Data messages in front of an EOF message are a well-ended sequence. -/
theorem wellEnded_of_forall₂ {bufSize : Nat} {data : List Message} {eof : Message}
    {batches : List (List WordCountPair)} (h : List.Forall₂ EncodesPairs data batches)
    (heof : EncodesEof eof) (hlen : ∀ m ∈ data ++ [eof], m.length ≤ bufSize) :
    WellEnded bufSize (data ++ [eof]) batches.flatten := by
  induction h with
  | nil => exact .eof heof (hlen eof (by simp))
  | cons henc _ ih =>
      exact .data henc (hlen _ (by simp)) (ih fun m hm => hlen m (List.mem_cons_of_mem _ hm))

/-! ## What holds on every schedule -/

section Invariant

variable (cliArgs : CommandLineArgs) (attr : MqAttr) (buf : Bytes) (files : List Bytes)

/-- A child and what it has sent. -/
def ChildInv (i : Nat) (sent : List Message) : ChildProcess → Prop
  | .unforked => sent = []
  | .parsing => sent = []
  | .sending pairs child =>
    pairs = filePairs (files.getD i []) ∧ child.Within pairs ∧
      SentInv pairs (Accounts (cliArgs.msgSize - intSize) pairs) child sent ∧
      ∀ m ∈ sent, m.length = cliArgs.msgSize
  | .aborted => False

/-- `main` and the messages it has taken. -/
def MainInv (fs : FileSystem) (s : PwordState) (taken : List Message) : Prop :=
  match s.main with
  | .spawning i => i ≤ cliArgs.inFileCount ∧ taken = [] ∧
      ∀ j < cliArgs.inFileCount, i ≤ j ↔ s.children j = .unforked
  | .awaiting parent =>
      (∀ j < cliArgs.inFileCount, s.children j ≠ .unforked) ∧
      (∃ t, Represents parent.pairArray t) ∧ parent.buf.length = attr.msgsize ∧
      parent.completedChildrenCount = taken.countP isEof ∧
      ∀ rest, awaitChildProcesses cliArgs.inFileCount (.start buf) (taken ++ rest)
        = awaitChildProcesses cliArgs.inFileCount parent rest
  | .exited result => ∃ a, result = writeOutputFile fs a cliArgs.outFileName ∧
      cliArgs.inFileCount ≤ taken.countP isEof ∧
      ∀ rest, awaitChildProcesses cliArgs.inFileCount (.start buf) (taken ++ rest)
        = .ok (.returned a rest)

/-- The invariant of `pword`: the messages taken and queued interleave what the children have
sent. -/
def PwordInv (fs : FileSystem) (s : PwordState) : Prop :=
  ∃ (sent : Nat → List Message) (taken : List Message),
    Interleaves ((List.range cliArgs.inFileCount).map sent) (taken ++ s.queue) ∧
    (∀ i < cliArgs.inFileCount, ChildInv cliArgs files i (sent i) (s.children i)) ∧
    (∀ i, cliArgs.inFileCount ≤ i → s.children i = .unforked) ∧
    MainInv cliArgs attr buf fs s taken

end Invariant

/-- The surroundings of a run: readable files, an accepted message size that the queue takes, room
for a message in the queue, and a receive buffer as long as `mq_getattr` says. -/
structure PwordSetup (fs : FileSystem) (cliArgs : CommandLineArgs) (attr : MqAttr) (buf : Bytes)
    (files : List Bytes) : Prop where
  readable : Readable fs cliArgs files
  size_valid : cliArgs.msgSize ∈ validMsgSizes
  size_le : cliArgs.msgSize ≤ attr.msgsize
  maxmsg_pos : 0 < attr.maxmsg
  buf_length : buf.length = attr.msgsize

theorem map_range_update {α : Type} (f : Nat → α) (n i : Nat) (x : α) :
    (List.range n).map (Function.update f i x) = ((List.range n).map f).set i x := by
  apply List.ext_getElem
  · simp
  · intro j h₁ h₂
    rw [List.getElem_set]
    by_cases hij : i = j
    · subst hij
      simp
    · simp [hij, Ne.symm hij]

theorem countP_flatten_map {α ι : Type} {p : α → Bool} {f : ι → List α} {done : ι → Bool}
    {l : List ι} (h : ∀ i ∈ l, (f i).countP p = if done i then 1 else 0) :
    (l.map f).flatten.countP p = l.countP done := by
  induction l with
  | nil => rfl
  | cons i l ih =>
      obtain ⟨hi, hl⟩ := List.forall_mem_cons.mp h
      rw [List.map_cons, List.flatten_cons, List.countP_append, List.countP_cons, ih hl, hi,
        Nat.add_comm]

section Steps

variable {fs : FileSystem} {cliArgs : CommandLineArgs} {attr : MqAttr} {buf : Bytes}
  {files : List Bytes} {s s' : PwordState}

theorem ChildInv.sent_wellformed {i : Nat} {sent : List Message} {child : ChildProcess}
    (h : ChildInv cliArgs files i sent child) :
    sent.countP isEof = (if child.done then 1 else 0) ∧
      ∀ m ∈ sent, Wellformed m ∧ m.length = cliArgs.msgSize := by
  cases child with
  | unforked => cases h; simp [ChildProcess.done]
  | parsing => cases h; simp [ChildProcess.done]
  | sending pairs child =>
      obtain ⟨-, -, hsent, hlen⟩ := h
      obtain ⟨hcount, hwell⟩ := hsent.wellformed
      refine ⟨?_, fun m hm => ⟨hwell m hm, hlen m hm⟩⟩
      rw [hcount]
      cases child <;> rfl
  | aborted => exact absurd h id

/-- The messages that have been taken or wait in the queue. -/
theorem wellformed_of_inv {sent : Nat → List Message} {messages : List Message}
    (hout : Interleaves ((List.range cliArgs.inFileCount).map sent) messages)
    (hchild : ∀ i < cliArgs.inFileCount, ChildInv cliArgs files i (sent i) (s.children i)) :
    messages.countP isEof = (List.range cliArgs.inFileCount).countP (fun i => (s.children i).done) ∧
      ∀ m ∈ messages, Wellformed m ∧ m.length = cliArgs.msgSize := by
  constructor
  · rw [hout.perm_flatten.countP_eq]
    exact countP_flatten_map fun i hi => (hchild i (List.mem_range.mp hi)).sent_wellformed.1
  · intro m hm
    obtain ⟨l, hl, hml⟩ := List.mem_flatten.mp (hout.perm_flatten.subset hm)
    obtain ⟨i, hi, rfl⟩ := List.mem_map.mp hl
    exact (hchild i (List.mem_range.mp hi)).sent_wellformed.2 m hml

/-- The parent takes any message of the queue. -/
theorem receive_wellformed {parent : ParentState} {t : List (CString × BitVec 32)}
    (hrep : Represents parent.pairArray t) {message : Message} (hwell : Wellformed message)
    (hlen : message.length ≤ parent.buf.length) :
    ∃ parent', parent.receive message = .ok parent' ∧
      (∃ t, Represents parent'.pairArray t) ∧ parent'.buf.length = parent.buf.length ∧
      parent'.completedChildrenCount = parent.completedChildrenCount + [message].countP isEof := by
  rcases hwell with ⟨pairs, henc⟩ | henc
  · obtain ⟨parent', hrec, hrep', hcount, hbuf⟩ := receive_encodesPairs hrep henc hlen
    exact ⟨parent', hrec, ⟨_, hrep'⟩, hbuf, by simp [hcount, isEof_of_encodesPairs henc]⟩
  · obtain ⟨parent', hrec, hrep', hcount, hbuf⟩ := receive_encodesEof hrep henc hlen
    exact ⟨parent', hrec, ⟨_, hrep'⟩, hbuf, by simp [hcount, isEof_of_encodesEof henc]⟩

theorem pword_start_inv : PwordInv cliArgs attr buf files fs PwordState.start := by
  refine ⟨fun _ => [], [], .done ?_, fun i _ => rfl, fun i _ => rfl, Nat.zero_le _, rfl, ?_⟩
  · simp
  · intro j _
    simp [PwordState.start]

/-- **What `main` can do**: fork the next child, start to receive, take a message, or write the
output. -/
theorem stepMain_cases (setup : PwordSetup fs cliArgs attr buf files) {sent : Nat → List Message}
    {taken : List Message}
    (hout : Interleaves ((List.range cliArgs.inFileCount).map sent) (taken ++ s.queue))
    (hchild : ∀ i < cliArgs.inFileCount, ChildInv cliArgs files i (sent i) (s.children i))
    (hmain : MainInv cliArgs attr buf fs s taken) (h : s.stepMain fs cliArgs buf = some s') :
    (∃ i < cliArgs.inFileCount, s.main = .spawning i ∧ s.children i = .unforked ∧
      s' = { s.setChild i .parsing with main := .spawning (i + 1) }) ∨
    (s.main = .spawning cliArgs.inFileCount ∧ s' = { s with main := .awaiting (.start buf) }) ∨
    (∃ parent message queue parent', s.main = .awaiting parent ∧
      parent.completedChildrenCount < cliArgs.inFileCount ∧ s.queue = message :: queue ∧
      parent.receive message = .ok parent' ∧ (∃ t, Represents parent'.pairArray t) ∧
      parent'.buf.length = attr.msgsize ∧
      parent'.completedChildrenCount = parent.completedChildrenCount + [message].countP isEof ∧
      s' = { s with main := .awaiting parent', queue := queue }) ∨
    (∃ parent, s.main = .awaiting parent ∧
      cliArgs.inFileCount ≤ parent.completedChildrenCount ∧
      s' = { s with
        main := .exited (writeOutputFile fs parent.pairArray cliArgs.outFileName) }) := by
  unfold MainInv at hmain
  unfold PwordState.stepMain at h
  cases hm : s.main with
  | spawning i =>
      rw [hm] at h hmain
      obtain ⟨hle, -, hunforked⟩ := hmain
      dsimp only at h
      split at h
      · next hne =>
          cases h
          have hi : s.children i = .unforked := (hunforked i (by omega)).mp le_rfl
          exact Or.inl ⟨i, by omega, rfl, hi, rfl⟩
      · next heq =>
          cases h
          rw [not_not.mp heq]
          exact Or.inr (Or.inl ⟨rfl, rfl⟩)
  | awaiting parent =>
      rw [hm] at h hmain
      obtain ⟨-, ⟨t, hrep⟩, hbuf, -, -⟩ := hmain
      dsimp only at h
      split at h
      · next hlt =>
          cases hq : s.queue with
          | nil => rw [hq] at h; cases h
          | cons message queue =>
              rw [hq] at h hout
              -- a queued message is one a child has sent, so it decodes and fits the buffer
              obtain ⟨hwell, hlen⟩ := (wellformed_of_inv hout hchild).2 message (by simp)
              obtain ⟨parent', hrec, hrep', hbuf', hcount'⟩ := receive_wellformed hrep hwell
                (by rw [hlen, hbuf]; exact setup.size_le)
              dsimp only at h
              rw [hrec] at h
              cases h
              exact Or.inr (Or.inr (Or.inl ⟨parent, message, queue, parent', rfl, hlt, rfl, hrec,
                hrep', hbuf'.trans hbuf, hcount', rfl⟩))
      · next hge =>
          cases h
          exact Or.inr (Or.inr (Or.inr ⟨parent, rfl, not_lt.mp hge, rfl⟩))
  | exited result =>
      rw [hm] at h
      cases h

/-- **What a child can do**: parse its file, or send its next message while the queue has room. -/
theorem stepChild_cases (setup : PwordSetup fs cliArgs attr buf files) {i : Nat}
    (hi : i < cliArgs.inFileCount) {sent : List Message}
    (hown : ChildInv cliArgs files i sent (s.children i))
    (h : s.stepChild fs cliArgs attr i = some s') :
    (s.children i = .parsing ∧
      s' = s.setChild i (.sending (filePairs (files.getD i [])) (.sending 0))) ∨
    (∃ child child' message, s.children i = .sending (filePairs (files.getD i [])) child ∧
      childStep (filePairs (files.getD i [])) cliArgs.msgSize child
        = .ok (some (child', message)) ∧
      child'.Within (filePairs (files.getD i [])) ∧ message.length = cliArgs.msgSize ∧
      s' = { s.setChild i (.sending (filePairs (files.getD i [])) child') with
        queue := s.queue ++ [message] }) := by
  unfold PwordState.stepChild at h
  cases hc : s.children i with
  | unforked => rw [hc] at h; cases h
  | aborted => rw [hc] at h; cases h
  | parsing =>
      rw [hc] at h
      obtain ⟨name, stream, a, hname, hfile, hparse, hent⟩ := setup.readable.parse hi
      have hstream : files.getD i [] = stream := by simp [hfile]
      dsimp only at h
      rw [hname] at h
      dsimp only at h
      rw [hparse] at h
      cases h
      rw [eq_filePairs hent, hstream]
      exact Or.inl ⟨rfl, rfl⟩
  | sending pairs child =>
      rw [hc] at h hown
      obtain ⟨rfl, hwithin, -, -⟩ := hown
      dsimp only at h
      rcases childStep_within setup.size_valid (filePairs_eachFits setup.size_valid _) hwithin with
        ⟨hstep, rfl⟩ | ⟨child', message, hstep, hwithin', hlen⟩
      · rw [hstep] at h
        cases h
      · -- `mq_send` accepts the length, and then only the room matters
        rw [hstep] at h
        dsimp only at h
        rw [if_neg (by rw [hlen]; exact not_lt.mpr setup.size_le)] at h
        split at h
        · cases h
          exact Or.inr ⟨child, child', message, rfl, hstep, hwithin', hlen, rfl⟩
        · cases h

/-- Nobody but `main` moves a child that does not exist. -/
theorem lt_of_stepChild {i : Nat}
    (hbeyond : ∀ i, cliArgs.inFileCount ≤ i → s.children i = .unforked)
    (h : s.stepChild fs cliArgs attr i = some s') : i < cliArgs.inFileCount := by
  by_contra hge
  simp [PwordState.stepChild, hbeyond i (by omega)] at h

/-- Children other than the one that moves keep their invariant. -/
theorem ChildInv.update {sent : Nat → List Message} {i : Nat} {x : List Message}
    {child : ChildProcess}
    (hchild : ∀ j < cliArgs.inFileCount, ChildInv cliArgs files j (sent j) (s.children j))
    (hx : ChildInv cliArgs files i x child) :
    ∀ j < cliArgs.inFileCount, ChildInv cliArgs files j (Function.update sent i x j)
      (Function.update s.children i child j) := by
  intro j hj
  by_cases hji : j = i
  · subst hji
    rwa [Function.update_self, Function.update_self]
  · rw [Function.update_of_ne hji, Function.update_of_ne hji]
    exact hchild j hj

theorem unforked_update {i : Nat} (hi : i < cliArgs.inFileCount) {child : ChildProcess}
    (hbeyond : ∀ j, cliArgs.inFileCount ≤ j → s.children j = .unforked) :
    ∀ j, cliArgs.inFileCount ≤ j → Function.update s.children i child j = .unforked := by
  intro j hj
  rw [Function.update_of_ne (by omega)]
  exact hbeyond j hj

/-- A step of `main` keeps the invariant. -/
theorem pword_stepMain_inv (setup : PwordSetup fs cliArgs attr buf files)
    (hinv : PwordInv cliArgs attr buf files fs s) (h : s.stepMain fs cliArgs buf = some s') :
    PwordInv cliArgs attr buf files fs s' := by
  obtain ⟨sent, taken, hout, hchild, hbeyond, hmain⟩ := hinv
  rcases stepMain_cases setup hout hchild hmain h with
    ⟨i, hi, hm, hc, rfl⟩ | ⟨hm, rfl⟩ |
    ⟨parent, message, queue, parent', hm, hlt, hq, hrec, hrep, hbuf, hcount, rfl⟩ |
    ⟨parent, hm, hge, rfl⟩
  · unfold MainInv at hmain
    rw [hm] at hmain
    obtain ⟨-, rfl, hunforked⟩ := hmain
    -- the new child has sent nothing, as before the fork
    have hnew : ChildInv cliArgs files i (sent i) .parsing := by
      have := hchild i hi
      rwa [hc] at this
    have hothers := ChildInv.update hchild hnew
    rw [Function.update_eq_self] at hothers
    refine ⟨sent, [], hout, hothers, unforked_update hi hbeyond, by omega, rfl, fun j hj => ?_⟩
    show i + 1 ≤ j ↔ Function.update s.children i .parsing j = .unforked
    by_cases hji : j = i
    · subst hji
      simp
    · rw [Function.update_of_ne hji, ← hunforked j hj]
      omega
  · unfold MainInv at hmain
    rw [hm] at hmain
    obtain ⟨-, rfl, hunforked⟩ := hmain
    refine ⟨sent, [], hout, hchild, hbeyond, fun j hj hj' => ?_,
      ⟨[], initWordCountArray_represents⟩, setup.buf_length, rfl, fun rest => rfl⟩
    have := (hunforked j hj).mpr hj'
    omega
  · unfold MainInv at hmain
    rw [hm] at hmain
    obtain ⟨hforked, -, -, hcount', hawait⟩ := hmain
    -- the message moves from the queue to those taken, and their sequence is the same
    refine ⟨sent, taken ++ [message], ?_, hchild, hbeyond, hforked, hrep, hbuf, ?_, fun rest => ?_⟩
    · rwa [List.append_assoc, List.singleton_append, ← hq]
    · rw [hcount, hcount', List.countP_append]
    · rw [List.append_assoc, hawait]
      exact await_of_receive hlt hrec rest
  · unfold MainInv at hmain
    rw [hm] at hmain
    obtain ⟨-, -, -, hcount, hawait⟩ := hmain
    refine ⟨sent, taken, hout, hchild, hbeyond, parent.pairArray, rfl, by omega, fun rest => ?_⟩
    rw [hawait]
    exact await_of_completed hge rest

/-- `main` does not see what a forked child does. -/
theorem MainInv.setChild {taken queue : List Message} {i : Nat} {child : ChildProcess}
    (h : MainInv cliArgs attr buf fs s taken) (hi : s.children i ≠ .unforked)
    (hchild : child ≠ .unforked) :
    MainInv cliArgs attr buf fs { s.setChild i child with queue := queue } taken := by
  have hsame : ∀ j, Function.update s.children i child j = .unforked ↔
      s.children j = .unforked := by
    intro j
    by_cases hji : j = i
    · subst hji
      simp [hi, hchild]
    · rw [Function.update_of_ne hji]
  unfold MainInv at h ⊢
  simp only [PwordState.setChild, hsame, Ne]
  exact h

/-- A step of a child keeps the invariant: it only starts its send loop or sends one message. -/
theorem pword_stepChild_inv (setup : PwordSetup fs cliArgs attr buf files)
    (hinv : PwordInv cliArgs attr buf files fs s) {i : Nat}
    (h : s.stepChild fs cliArgs attr i = some s') : PwordInv cliArgs attr buf files fs s' := by
  obtain ⟨sent, taken, hout, hchild, hbeyond, hmain⟩ := hinv
  have hi := lt_of_stepChild hbeyond h
  have hown := hchild i hi
  rcases stepChild_cases setup hi hown h with
    ⟨hc, rfl⟩ | ⟨child, child', message, hc, hstep, hwithin', hlen', rfl⟩
  · rw [hc] at hown
    have hsent : sent i = [] := hown
    have hnew : ChildInv cliArgs files i (sent i)
        (.sending (filePairs (files.getD i [])) (.sending 0)) := by
      rw [hsent]
      exact ⟨rfl, Nat.zero_le _, ⟨[], .nil, Accounts.init _ _⟩, by simp⟩
    have hothers := ChildInv.update hchild hnew
    rw [Function.update_eq_self] at hothers
    exact ⟨sent, taken, hout, hothers, unforked_update hi hbeyond,
      hmain.setChild (by simp [hc]) (by simp)⟩
  · rw [hc] at hown
    obtain ⟨-, hwithin, hsent, hlen⟩ := hown
    have hfits := filePairs_eachFits setup.size_valid (files.getD i [])
    have hnew : ChildInv cliArgs files i (sent i ++ [message])
        (.sending (filePairs (files.getD i [])) child') := by
      refine ⟨rfl, hwithin', ?_, fun m hm => ?_⟩
      · exact childStep_sent setup.size_valid hfits (fun _ _ => Accounts.step hfits) hwithin hsent
          hstep
      · rcases List.mem_append.mp hm with hm | hm
        · exact hlen m hm
        · exact List.mem_singleton.mp hm ▸ hlen'
    refine ⟨Function.update sent i (sent i ++ [message]), taken, ?_, ChildInv.update hchild hnew,
      unforked_update hi hbeyond, hmain.setChild (by simp [hc]) (by simp)⟩
    -- the sent message is the last of its child and the last of the queue
    rw [map_range_update, ← List.append_assoc]
    exact hout.snoc message (by simp [hi])

theorem pword_step_inv (setup : PwordSetup fs cliArgs attr buf files) (l : PwordLabel)
    (hinv : PwordInv cliArgs attr buf files fs s)
    (h : (pword fs cliArgs attr buf).step l s = some s') :
    PwordInv cliArgs attr buf files fs s' := by
  cases l with
  | main => exact pword_stepMain_inv setup hinv h
  | child i => exact pword_stepChild_inv setup hinv h

/-! ## The end of a run -/

/-- The pairs that all the children together send twice. -/
def resentEntries (cliArgs : CommandLineArgs) (files : List Bytes) : List (CString × BitVec 32) :=
  files.flatMap fun stream => entries (resent (cliArgs.msgSize - intSize) (filePairs stream))

theorem eq_map_getD (files : List Bytes) :
    (List.range files.length).map (files.getD · []) = files := by
  apply List.ext_getElem
  · simp
  · intro i h₁ h₂
    simp [h₂]

/-- What a child that has sent its EOF message has sent. -/
theorem ChildInv.wellEnded (setup : PwordSetup fs cliArgs attr buf files) {i : Nat}
    {sent : List Message} {child : ChildProcess} (h : ChildInv cliArgs files i sent child)
    (hdone : child.done = true) :
    ∃ pairs, WellEnded attr.msgsize sent pairs ∧
      NeighboursFit (cliArgs.msgSize - intSize) (filePairs (files.getD i [])) ∧
      pairs.Perm (filePairs (files.getD i []) ++
        resent (cliArgs.msgSize - intSize) (filePairs (files.getD i []))) := by
  match child, hdone with
  | .sending pairs .exited, _ =>
      obtain ⟨rfl, -, ⟨data, eof, batches, rfl, hdata, heof, hq⟩, hlen⟩ := h
      refine ⟨batches.flatten, wellEnded_of_forall₂ hdata heof fun m hm => ?_, hq.done⟩
      rw [hlen m hm]
      exact setup.size_le

/-- When as many EOF messages have arrived as there are children, every child has ended. -/
theorem children_done {sent : Nat → List Message} {taken : List Message}
    (hout : Interleaves ((List.range cliArgs.inFileCount).map sent) (taken ++ s.queue))
    (hchild : ∀ i < cliArgs.inFileCount, ChildInv cliArgs files i (sent i) (s.children i))
    (hcount : cliArgs.inFileCount ≤ taken.countP isEof) :
    ∀ i < cliArgs.inFileCount, (s.children i).done = true := by
  have hall := (wellformed_of_inv hout hchild).1
  rw [List.countP_append] at hall
  have hle := List.countP_le_length (p := fun i => (s.children i).done)
    (l := List.range cliArgs.inFileCount)
  rw [List.length_range] at hle
  have heq : (List.range cliArgs.inFileCount).countP (fun i => (s.children i).done)
      = (List.range cliArgs.inFileCount).length := by
    rw [List.length_range]
    omega
  intro i hi
  exact List.countP_eq_length.mp heq i (List.mem_range.mpr hi)

section Sums

variable {pairs : List WordCountPair}

/-- Sending pairs twice brings no new words. -/
theorem mem_keys_of_resent
    (hsum : pairs.Perm (files.flatMap fun stream =>
      filePairs stream ++ resent (cliArgs.msgSize - intSize) (filePairs stream))) (w : CString) :
    w ∈ Tally.keys (Tally.bumpAll [] (entries pairs)) ↔ w ∈ files.flatMap tableWords := by
  have hwords : ∀ stream, w ∈ (filePairs stream ++
      resent (cliArgs.msgSize - intSize) (filePairs stream)).map (·.word) ↔
        w ∈ tableWords stream := by
    intro stream
    rw [List.map_append, List.mem_append, mem_words_filePairs, or_iff_left_iff_imp,
      ← mem_words_filePairs]
    exact fun h => List.map_subset _ (resent_subset _ _) h
  rw [Tally.mem_keys_bumpAll, keys_entries, (hsum.map _).mem_iff, List.map_flatMap]
  simp only [Tally.keys_nil, List.not_mem_nil, false_or, List.mem_flatMap, hwords]

/-- The totals are those of the tables, and the resent pairs once more. -/
theorem total_of_resent
    (hsum : pairs.Perm (files.flatMap fun stream =>
      filePairs stream ++ resent (cliArgs.msgSize - intSize) (filePairs stream))) (w : CString) :
    Tally.total (Tally.bumpAll [] (entries pairs)) w
      = Tally.total (mergedTally files) w + Tally.total (resentEntries cliArgs files) w := by
  have hentries : (entries pairs).Perm (files.flatMap fun stream =>
      fileTally stream ++ entries (resent (cliArgs.msgSize - intSize) (filePairs stream))) := by
    refine (hsum.map WordCountPair.entry).trans (.of_eq ?_)
    rw [List.map_flatMap]
    refine List.flatMap_congr fun stream _ => ?_
    rw [List.map_append, ← entries_filePairs]
    rfl
  rw [Tally.total_bumpAll, Tally.total_nil, zero_add, Tally.total_perm hentries,
    Tally.total_flatMap_append, total_flatMap_fileTally, resentEntries]

end Sums

/-- **A finished run**: neighbouring pairs fit in every table, and `main` has written the merged
tally with the resent pairs added. -/
theorem pword_finished (setup : PwordSetup fs cliArgs attr buf files)
    (hinv : PwordInv cliArgs attr buf files fs s) {result : Outcome Bytes}
    (hresult : s.main = .exited result) :
    (∀ stream ∈ files, NeighboursFit (cliArgs.msgSize - intSize) (filePairs stream)) ∧
      ∃ a t, result = writeOutputFile fs a cliArgs.outFileName ∧ Represents a t ∧
        (Tally.keys t).Nodup ∧ (∀ w, w ∈ Tally.keys t ↔ w ∈ files.flatMap tableWords) ∧
        ∀ w, Tally.total t w
          = Tally.total (mergedTally files) w + Tally.total (resentEntries cliArgs files) w := by
  obtain ⟨sent, taken, hout, hchild, -, hmain⟩ := hinv
  unfold MainInv at hmain
  rw [hresult] at hmain
  obtain ⟨a, hres, hcount, hawait⟩ := hmain
  -- all the EOF messages have been taken, so every child has ended
  have hdone := children_done hout hchild hcount
  have hended := fun i (hi : i < cliArgs.inFileCount) =>
    (hchild i hi).wellEnded setup (hdone i hi)
  choose! pairs hwell hneigh hperm using hended
  have hfiles : (List.range cliArgs.inFileCount).map (files.getD · []) = files := by
    rw [setup.readable.length_eq, eq_map_getD]
  refine ⟨fun stream hstream => ?_, a, ?_⟩
  · rw [← hfiles] at hstream
    obtain ⟨i, hi, rfl⟩ := List.mem_map.mp hstream
    exact hneigh i (List.mem_range.mp hi)
  -- so all messages have been taken, and the table is that of an interleaving
  have hseqs : List.Forall₂ (WellEnded attr.msgsize)
      ((List.range cliArgs.inFileCount).map sent)
      ((List.range cliArgs.inFileCount).map pairs) := by
    rw [List.forall₂_map_left_iff, List.forall₂_map_right_iff, List.forall₂_same]
    exact fun i hi => hwell i (List.mem_range.mp hi)
  obtain ⟨⟨a', ha', hrep⟩, -⟩ := await_start hseqs setup.buf_length hout
  have hpairs := perm_flatMap_pairsOf hseqs hout
  rw [List.length_map, List.length_range, hawait] at ha'
  obtain ⟨rfl, -⟩ : a = a' ∧ s.queue = [] := by simpa using ha'
  have hsum : ((taken ++ s.queue).flatMap pairsOf).Perm (files.flatMap fun stream =>
      filePairs stream ++ resent (cliArgs.msgSize - intSize) (filePairs stream)) := by
    refine hpairs.trans ?_
    conv_rhs => rw [← hfiles]
    rw [List.flatMap_map, ← List.flatMap_def]
    exact List.Perm.flatMap_left _ fun i hi => hperm i (List.mem_range.mp hi)
  exact ⟨_, hres, hrep, Tally.nodup_keys_bumpAll List.nodup_nil, mem_keys_of_resent hsum,
    total_of_resent hsum⟩

end Steps

end Cs342.WordCount
