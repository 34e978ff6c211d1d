import Mathlib
import Cs342.WordCount.Pword

/-!
# Every schedule of `pword` ends

If neighbouring pairs fit in every table, each step leaves fewer (`pword_step_lower`), and short of
the end either `main` can move, or it waits for a message while the queue is empty and some child
has not sent its EOF message, which that child can then work towards (`pword_moves`).
-/

namespace Cs342.WordCount

open ByteBuffer

/-- The steps a child has left at most, two for every message: its send and its receipt. -/
def ChildProcess.rank (stream : Bytes) : ChildProcess → Nat
  | .unforked => 2 * ((filePairs stream).length + 1) + 1
  | .parsing => 2 * ((filePairs stream).length + 1) + 1
  | .sending pairs child => 2 * child.left pairs
  | .aborted => 0

/-- What is left of `main` besides receiving. -/
def PwordMain.rank (n : Nat) : PwordMain → Nat
  | .spawning i => n - i + 2
  | .awaiting _ => 1
  | .exited _ => 0

/-- The steps that are left at most. -/
def PwordState.remaining (files : List Bytes) (n : Nat) (s : PwordState) : Nat :=
  s.main.rank n + (∑ i ∈ Finset.range n, (s.children i).rank (files.getD i [])) + s.queue.length

theorem sum_rank_update (files : List Bytes) (s : PwordState) {n i : Nat} (hi : i < n)
    (child : ChildProcess) :
    (∑ j ∈ Finset.range n, (Function.update s.children i child j).rank (files.getD j [])) +
        (s.children i).rank (files.getD i [])
      = (∑ j ∈ Finset.range n, (s.children j).rank (files.getD j [])) +
        child.rank (files.getD i []) := by
  have hmem : i ∈ Finset.range n := Finset.mem_range.mpr hi
  rw [← Finset.add_sum_erase _ _ hmem, ← Finset.add_sum_erase _ _ hmem]
  have hsame : ∀ j ∈ (Finset.range n).erase i,
      (Function.update s.children i child j).rank (files.getD j [])
        = (s.children j).rank (files.getD j []) := by
    intro j hj
    rw [Function.update_of_ne (Finset.ne_of_mem_erase hj)]
  rw [Finset.sum_congr rfl hsame, Function.update_self]
  omega

section

variable {fs : FileSystem} {cliArgs : CommandLineArgs} {attr : MqAttr} {buf : Bytes}
  {files : List Bytes} {s s' : PwordState}

/-- If neighbouring pairs fit in every table, every step leaves fewer. -/
theorem pword_step_lower (setup : PwordSetup fs cliArgs attr buf files)
    (hneigh : ∀ stream ∈ files, NeighboursFit (cliArgs.msgSize - intSize) (filePairs stream))
    (l : PwordLabel) (hinv : PwordInv cliArgs attr buf files fs s)
    (h : (pword fs cliArgs attr buf).step l s = some s') :
    s'.remaining files cliArgs.inFileCount < s.remaining files cliArgs.inFileCount := by
  obtain ⟨sent, taken, hout, hchild, hbeyond, hmain⟩ := hinv
  unfold PwordState.remaining
  cases l with
  -- `main` takes one from its own rank or from the queue
  | main =>
      rcases stepMain_cases setup hout hchild hmain h with
        ⟨i, hi, hm, hc, rfl⟩ | ⟨hm, rfl⟩ |
        ⟨parent, message, queue, parent', hm, -, hq, -, -, -, -, rfl⟩ | ⟨parent, hm, -, rfl⟩
      · have hsum := sum_rank_update files s hi .parsing
        rw [hc, ChildProcess.rank, ChildProcess.rank] at hsum
        simp only [hm, PwordMain.rank, PwordState.setChild]
        omega
      · simp only [hm, PwordMain.rank]
        omega
      · simp only [hm, hq, PwordMain.rank, List.length_cons]
        omega
      · simp only [hm, PwordMain.rank]
        omega
  | child i =>
      have hi := lt_of_stepChild hbeyond h
      have hown := hchild i hi
      rcases stepChild_cases setup hi hown h with
        ⟨hc, rfl⟩ | ⟨child, child', message, hc, hstep, -, -, rfl⟩
      · have hsum := sum_rank_update files s hi
          (.sending (filePairs (files.getD i [])) (.sending 0))
        rw [hc, ChildProcess.rank, ChildProcess.rank, ChildState.left] at hsum
        simp only [PwordState.setChild]
        omega
      · rw [hc] at hown
        obtain ⟨-, hwithin, -, -⟩ := hown
        have hmem : files.getD i [] ∈ files := by
          have : i < files.length := setup.readable.length_eq ▸ hi
          simp [this]
        have hlower := childStep_left_lt setup.size_valid (filePairs_eachFits setup.size_valid _)
          (hneigh _ hmem) hwithin hstep
        -- the rank counts a message twice as long as it has not been sent, once in the queue
        have hsum := sum_rank_update files s hi
          (.sending (filePairs (files.getD i [])) child')
        rw [hc, ChildProcess.rank, ChildProcess.rank] at hsum
        simp only [PwordState.setChild, List.length_append, List.length_singleton]
        omega

/-- A child that has been forked and has not sent its EOF message can move while the queue has
room. -/
theorem stepChild_of_not_done (setup : PwordSetup fs cliArgs attr buf files) {i : Nat}
    (hi : i < cliArgs.inFileCount) {sent : List Message}
    (hown : ChildInv cliArgs files i sent (s.children i)) (hforked : s.children i ≠ .unforked)
    (hnot : ¬ (s.children i).done = true) (hroom : s.queue.length < attr.maxmsg) :
    ∃ s', s.stepChild fs cliArgs attr i = some s' := by
  unfold PwordState.stepChild
  cases hc : s.children i with
  | unforked => exact absurd hc hforked
  | aborted => rw [hc] at hown; exact absurd hown id
  | parsing =>
      obtain ⟨name, stream, a, hname, -, hparse, -⟩ := setup.readable.parse hi
      dsimp only
      rw [hname]
      dsimp only
      rw [hparse]
      exact ⟨_, rfl⟩
  | sending pairs child =>
      rw [hc] at hown hnot
      obtain ⟨rfl, hwithin, -, -⟩ := hown
      rcases childStep_within setup.size_valid (filePairs_eachFits setup.size_valid _) hwithin with
        ⟨-, rfl⟩ | ⟨child', message, hstep, -, hlen⟩
      · exact absurd rfl hnot
      · dsimp only
        rw [hstep]
        dsimp only
        rw [if_neg (by rw [hlen]; exact not_lt.mpr setup.size_le), if_pos hroom]
        exact ⟨_, rfl⟩

/-- Short of the end `main` can move, or it waits for a child that can. -/
theorem pword_moves (setup : PwordSetup fs cliArgs attr buf files)
    (hinv : PwordInv cliArgs attr buf files fs s) (hend : ¬ ∃ result, s.main = .exited result) :
    ∃ l s', (pword fs cliArgs attr buf).step l s = some s' := by
  obtain ⟨sent, taken, hout, hchild, hbeyond, hmain⟩ := hinv
  unfold MainInv at hmain
  cases hm : s.main with
  | spawning i =>
      refine ⟨.main, ?_⟩
      show ∃ s', s.stepMain fs cliArgs buf = some s'
      unfold PwordState.stepMain
      rw [hm]
      dsimp only
      split
      · exact ⟨_, rfl⟩
      · exact ⟨_, rfl⟩
  | awaiting parent =>
      rw [hm] at hmain
      obtain ⟨hforked, ⟨t, hrep⟩, hbuf, hcount, hawait⟩ := hmain
      by_cases hlt : parent.completedChildrenCount < cliArgs.inFileCount
      · cases hq : s.queue with
        | cons message queue =>
            rw [hq] at hout
            obtain ⟨hwell, hlen⟩ := (wellformed_of_inv hout hchild).2 message (by simp)
            obtain ⟨parent', hrec, -⟩ := receive_wellformed hrep hwell
              (by rw [hlen, hbuf]; exact setup.size_le)
            refine ⟨.main, ?_⟩
            show ∃ s', s.stepMain fs cliArgs buf = some s'
            unfold PwordState.stepMain
            rw [hm]
            dsimp only
            rw [if_pos hlt, hq]
            dsimp only
            rw [hrec]
            exact ⟨_, rfl⟩
        | nil =>
            -- not all EOF messages have been sent, so some child has not ended
            rw [hq, List.append_nil] at hout
            have hsent := (wellformed_of_inv hout hchild).1
            obtain ⟨i, hi, hnot⟩ : ∃ i < cliArgs.inFileCount, ¬ (s.children i).done = true := by
              by_contra hall
              push Not at hall
              have : (List.range cliArgs.inFileCount).countP (fun i => (s.children i).done)
                  = (List.range cliArgs.inFileCount).length :=
                List.countP_eq_length.mpr fun i hi => hall i (List.mem_range.mp hi)
              rw [List.length_range] at this
              omega
            refine ⟨.child i, stepChild_of_not_done setup hi (hchild i hi) (hforked i hi) hnot ?_⟩
            rw [hq]
            exact setup.maxmsg_pos
      · refine ⟨.main, ?_⟩
        show ∃ s', s.stepMain fs cliArgs buf = some s'
        unfold PwordState.stepMain
        rw [hm]
        dsimp only
        rw [if_neg hlt]
        exact ⟨_, rfl⟩
  | exited result => exact absurd ⟨result, hm⟩ hend

/-- **`pword` can finish**: if neighbouring pairs fit in every table, some schedule ends. -/
theorem exists_pword_finished (setup : PwordSetup fs cliArgs attr buf files)
    (hneigh : ∀ stream ∈ files, NeighboursFit (cliArgs.msgSize - intSize) (filePairs stream)) :
    ∃ schedule s result,
      (pword fs cliArgs attr buf).run schedule (pword fs cliArgs attr buf).init = some s ∧
        s.main = .exited result := by
  obtain ⟨schedule, s, hrun, result, hresult⟩ := System.exists_run
    (P := PwordInv cliArgs attr buf files fs) (m := PwordState.remaining files cliArgs.inFileCount)
    (fun s l s' => pword_step_inv setup l) (fun s l s' => pword_step_lower setup hneigh l)
    (fun s => pword_moves setup) pword_start_inv
  exact ⟨schedule, s, result, hrun, hresult⟩

end

end Cs342.WordCount
