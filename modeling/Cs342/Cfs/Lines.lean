import Mathlib
import Cs342.Cfs.Potential
import Cs342.Cfs.Timeline

/-!
# The output of a run (`DBG_MODE_LIGHT`)

There is one process on the CPU at a time, and it sleeps through its slice before it gives the CPU
back. So the printed slices follow one another, whatever the interleaving (**`running_lines`**), and
the statistics of a process are those of its lines (**`statistics_of_lines`**): it has run for as
long as they say, as often as there are, between its arrival and its departure, and it has waited at
least as long as others ran meanwhile.
-/

namespace Cs342.Cfs

open Threads (Label)

/-! ## The lines of a process -/

/-- The lines of a process. -/
def Timed.lines (s : Timed) (k : Nat) : List RunningLine :=
  s.output.filter fun line => line.pid = k + 1

def Timed.life (s : Timed) (k : Nat) : Life :=
  processLife k s.state.shared (s.state.pc (.process k)) (s.slice k) (s.cpuTime k) (s.lines k)

/-- A step of the threads, or one of a process inside of `sleep`. -/
inductive TimedStep (workload : Workload) (s s' : Timed) : Prop
  | thread (l : Label Thread) (hmove : s.mayMove l = true)
      (hstep : (cfs workload).step l s.state = some s'.state) (houtput : s'.output = s.output)
      (hslice : ∀ k, (l = .run (.process k) ∧ s.state.pc (.process k) = .run ∧
          s'.slice k = .readClock ∧ sliceCpuTime k s.state.shared = .ok (s'.cpuTime k)) ∨
        (¬ (l = .run (.process k) ∧ s.state.pc (.process k) = .run) ∧
          s'.slice k = s.slice k ∧ s'.cpuTime k = s.cpuTime k))
  | slice (k : Nat) (hpc : s.state.pc (.process k) = .sleep) (hstate : s'.state = s.state)
      (hcpuTime : s'.cpuTime = s.cpuTime) (hother : ∀ j, j ≠ k → s'.slice j = s.slice j)
      (hslice : (s.slice k = .readClock ∧ s'.slice k = .print s.state.shared.clock ∧
          s'.output = s.output) ∨
        (∃ time, s.slice k = .print time ∧ s'.slice k = .usleep ∧ s'.output = s.output ++
          [{ time, pid := (s.state.shared.pcbs k).pid, cpuTime := s.cpuTime k }]) ∨
        (s.slice k = .usleep ∧ s'.slice k = .asleep (s.state.shared.clock + s.cpuTime k) ∧
          s'.output = s.output))

section Timed

variable {workload : Workload} {s s' : Timed} {l : TimedLabel}

theorem slice_of_beginSlice {m : Label Thread} (h : s.beginSlice m = some s') :
    s'.output = s.output ∧ ∀ k, (m = .run (.process k) ∧ s.state.pc (.process k) = .run ∧
        s'.slice k = .readClock ∧ sliceCpuTime k s.state.shared = .ok (s'.cpuTime k)) ∨
      (¬ (m = .run (.process k) ∧ s.state.pc (.process k) = .run) ∧
        s'.slice k = s.slice k ∧ s'.cpuTime k = s.cpuTime k) := by
  unfold Timed.beginSlice at h
  split at h
  · next j =>
      split at h
      · next hrun =>
          obtain ⟨cpuTime, hcpuTime, rfl⟩ := Option.map_eq_some_iff.mp h
          refine ⟨rfl, fun k => ?_⟩
          by_cases hk : k = j
          · subst hk
            left
            simpa [hrun] using Outcome.toOption_eq_some.mp hcpuTime
          · right
            simp [hk, Ne.symm hk]
      · next hrun =>
          cases h
          refine ⟨rfl, fun k => Or.inr ⟨?_, rfl, rfl⟩⟩
          rintro ⟨h, hk⟩
          cases h
          exact hrun hk
  · next hne =>
      cases h
      refine ⟨rfl, fun k => Or.inr ⟨?_, rfl, rfl⟩⟩
      rintro ⟨rfl, -⟩
      exact hne k rfl

theorem timedStep_of_step (h : (timed workload).step l s = some s') :
    TimedStep workload s s' := by
  cases l with
  | thread m =>
      have h : Timed.step workload (.thread m) s = some s' := h
      simp only [Timed.step] at h
      split at h
      · next hmove =>
          split at h
          · next state t hstep hbegin =>
              cases h
              obtain ⟨houtput, hslice⟩ := slice_of_beginSlice hbegin
              exact .thread m hmove hstep houtput hslice
          · cases h
      · cases h
  | slice k =>
      have h : s.sliceStep k = some s' := h
      unfold Timed.sliceStep at h
      split at h
      · next hpc =>
          have hother : ∀ (next : SlicePC) (j : Nat), j ≠ k →
              Function.update s.slice k next j = s.slice j :=
            fun next j hj => Function.update_of_ne hj _ _
          split at h
          · next hslice =>
              split at h <;> cases h
              exact .slice k hpc rfl rfl (hother _) (Or.inl ⟨hslice, Function.update_self _ _ _, rfl⟩)
          · next time hslice =>
              cases h
              exact .slice k hpc rfl rfl (hother _)
                (Or.inr (Or.inl ⟨time, hslice, Function.update_self _ _ _, rfl⟩))
          · next hslice =>
              cases h
              exact .slice k hpc rfl rfl (hother _)
                (Or.inr (Or.inr ⟨hslice, Function.update_self _ _ _, rfl⟩))
          · cases h
      · cases h

theorem lines_of_append {line : RunningLine} (h : s'.output = s.output ++ [line]) (k : Nat) :
    s'.lines k = if line.pid = k + 1 then s.lines k ++ [line] else s.lines k := by
  unfold Timed.lines
  rw [h, List.filter_append, List.filter_singleton]
  split <;> next h => simp_all

/-- The pid that a process prints. -/
theorem pid_of_sleep (hs : (cfs workload).Reachable s.state) {k : Nat}
    (hpc : s.state.pc (.process k) = .sleep) : (s.state.shared.pcbs k).pid = k + 1 := by
  apply (CreationInv.reachable hs).pid_eq
  by_contra hge
  rw [(PlaceInv.reachable hs).fresh k (not_lt.mp hge)] at hpc
  cases hpc

/-- **Every process lives its life**, over a step of the whole. -/
theorem life_step (hs : (cfs workload).Reachable s.state)
    (hfresh : ∀ k, s.state.pc (.process k) = .unlockRqRun → s.slice k = .readClock)
    (hstep : (timed workload).step l s = some s') (k : Nat) :
    s'.life k = s.life k ∨ Life.Step (k + 1) (s.life k) (s'.life k) := by
  cases timedStep_of_step hstep with
  | thread m hmove hstep houtput hslice =>
      have hlines : s'.lines k = s.lines k := by
        unfold Timed.lines
        rw [houtput]
      unfold Timed.life
      rw [hlines]
      cases ownTurn_of_step hs hstep k with
      | own hl hother hadvance =>
          by_cases hrun : s.state.pc (.process k) = .run
          · have hcharged := (AccountInv.reachable hs).charged k
            have hm : m = .run (.process k) := by
              rcases hl with hl | ⟨c, next, hinstr⟩
              · exact hl
              · rw [hrun] at hinstr
                cases hinstr
            rcases hslice k with ⟨-, -, hnext, hcpuTime⟩ | ⟨hnot, -⟩
            · rw [hrun] at hadvance hcharged ⊢
              obtain ⟨hpc, charge, hcharge, hlife⟩ := processLife_run (k + 1) (s.slice k)
                (s.cpuTime k) (s.lines k) hadvance hcharged.2
              rw [hcharge] at hcpuTime
              cases hcpuTime
              rw [hnext]
              exact Or.inr hlife
            · exact absurd ⟨hm, hrun⟩ hnot
          · obtain ⟨hnext, hcpuTime⟩ : s'.slice k = s.slice k ∧ s'.cpuTime k = s.cpuTime k := by
              rcases hslice k with ⟨-, h, -⟩ | ⟨-, h⟩
              · exact absurd h hrun
              · exact h
            rw [hnext, hcpuTime]
            apply processLife_step hadvance hrun (hfresh k)
            intro hsleep
            have hm : m = .run (.process k) := by
              rcases hl with hl | ⟨c, next, hinstr⟩
              · exact hl
              · rw [hsleep] at hinstr
                cases hinstr
            subst hm
            simp only [Timed.mayMove, hsleep, if_true] at hmove
            split at hmove
            · next wakeTime hasleep => exact ⟨wakeTime, hasleep, by simpa using hmove⟩
            · cases hmove
      | other hpc hwaits hlocals hclock hpcb =>
          have hsame : s'.slice k = s.slice k ∧ s'.cpuTime k = s.cpuTime k := by
            rcases hslice k with ⟨hm, hrun, -⟩ | ⟨-, h⟩
            · have := hwaits hm
              rw [hrun] at this
              cases this
            · exact h
          unfold processLife
          rw [hpc, hsame.1, hsame.2, hlocals, hpcb]
          rcases hclock with h | h
          · left
            rw [h]
          · right
            rw [h]
            exact .tick
  | slice j hpc hstate hcpuTime hother hslice =>
      unfold Timed.life
      rw [hstate, hcpuTime]
      by_cases hk : k = j
      · subst hk
        have hpid := pid_of_sleep hs hpc
        right
        rcases hslice with ⟨hp, hnext, houtput⟩ | ⟨time, hp, hnext, houtput⟩ | ⟨hp, hnext, houtput⟩
        · simp only [Timed.lines, houtput, hpc, hp, hnext]
          exact .readClock rfl
        · have hlines : s'.lines k
              = s.lines k ++ [{ time, pid := (k : Int) + 1, cpuTime := s.cpuTime k }] := by
            rw [lines_of_append houtput, if_pos hpid, hpid]
          rw [hlines, hpc, hp, hnext]
          exact .print time rfl
        · simp only [Timed.lines, houtput, hpc, hp, hnext]
          exact .usleep rfl
      · left
        have hlines : s'.lines k = s.lines k := by
          rcases hslice with ⟨-, -, houtput⟩ | ⟨time, -, -, houtput⟩ | ⟨-, -, houtput⟩
          · rw [Timed.lines, houtput, Timed.lines]
          · rw [lines_of_append houtput, if_neg]
            show (s.state.shared.pcbs j).pid ≠ k + 1
            rw [pid_of_sleep hs hpc]
            omega
          · rw [Timed.lines, houtput, Timed.lines]
        rw [hlines, hother k hk]

/-! ## All lines -/

/-- What holds of the lines of all processes together. -/
structure TimedInv (workload : Workload) (s : Timed) : Prop where
  reachable : (cfs workload).Reachable s.state
  fresh : ∀ k, s.state.pc (.process k) = .unlockRqRun → s.slice k = .readClock
  life : ∀ k, (s.life k).Inv (k + 1)
  owner : ∀ line ∈ s.output, ∃ k, line ∈ s.lines k
  printing : ∀ k time, (s.life k).phase = .printing time →
    ∀ line ∈ s.output, line.interval.stop ≤ time
  oneByOne : WorkInterval.OneByOne (s.output.map RunningLine.interval)

/-- Only a process inside of `sleep` sleeps. -/
theorem sleep_of_phase {k : Nat} (h : (s.life k).phase = .printed ∨
    ∃ wakeTime, (s.life k).phase = .asleep wakeTime) : s.state.pc (.process k) = .sleep := by
  have hphase : (s.life k).phase = lifePhase (s.state.pc (.process k)) (s.slice k) := rfl
  rw [hphase] at h
  cases hp : s.state.pc (.process k) <;> rw [hp] at h <;>
    first | rfl | (rcases h with h | ⟨w, h⟩ <;> cases h)

/-- While a process is about to read the clock, no slice is running. -/
theorem TimedInv.over (hinv : TimedInv workload s) {k : Nat}
    (hpc : s.state.pc (.process k) = .sleep) (hslice : s.slice k = .readClock) :
    ∀ line ∈ s.output, line.interval.stop ≤ s.state.shared.clock := by
  intro line hmem
  obtain ⟨j, hline⟩ := hinv.owner line hmem
  have hcovers := ((hinv.life j).line line hline).2.2.2
  -- one who slept would be this process
  have hawake : ¬ ((s.life j).phase = .printed ∨
      ∃ wakeTime, (s.life j).phase = .asleep wakeTime) := by
    intro hasleep
    have hj := sleep_of_phase hasleep
    obtain rfl : j = k := (Inv.reachable hinv.reachable).oneCpu.at_most_one j k
      (by rw [hj]; trivial) (by rw [hpc]; trivial)
    have hphase : (s.life j).phase = .begun := by
      show lifePhase _ _ = _
      rw [hpc, hslice]
      rfl
    rw [hphase] at hasleep
    rcases hasleep with h | ⟨w, h⟩ <;> cases h
  obtain ⟨hprinted, hasleep⟩ := not_or.mp hawake
  exact Life.stop_le_of_covers hcovers hprinted fun w hw => absurd ⟨w, hw⟩ hasleep

theorem phase_printing {k : Nat} {time : Int} : (s.life k).phase = .printing time ↔
    s.state.pc (.process k) = .sleep ∧ s.slice k = .print time := by
  show lifePhase _ _ = _ ↔ _
  constructor
  · intro h
    cases hp : s.state.pc (.process k) with
    | sleep =>
        rw [hp] at h
        cases hq : s.slice k <;> rw [hq] at h <;> cases h
        exact ⟨rfl, rfl⟩
    | _ => rw [hp] at h; cases h
  · rintro ⟨hp, hq⟩
    rw [hp, hq]
    rfl

/-- How a process comes to `usleep`, and how to the point in front of it. -/
theorem advance_before_sleep {k : Nat} {shared shared' : Shared} {p next : ProcessPC}
    (h : (processInstr k p).advance shared = some (shared', next)) :
    (next = .sleep → p = .unlockRqRun) ∧ (next = .unlockRqRun → p = .run) := by
  cases p with
  | run =>
      rw [(advance_run h).1]
      exact ⟨by simp, fun _ => rfl⟩
  | sendStats departureTime =>
      rw [(advance_sendStats h).1]
      exact ⟨by simp, by simp⟩
  | _ =>
      simp only [processInstr, Threads.Instr.advance] at h
      grind

/-- **A step of the threads** prints nothing and leaves every slice as it is, but begins one. -/
theorem TimedInv.thread (hinv : TimedInv workload s) {m : Label Thread}
    (hstep : (cfs workload).step m s.state = some s'.state)
    (hslice : ∀ k, (m = .run (.process k) ∧ s.state.pc (.process k) = .run ∧
        s'.slice k = .readClock ∧ sliceCpuTime k s.state.shared = .ok (s'.cpuTime k)) ∨
      (¬ (m = .run (.process k) ∧ s.state.pc (.process k) = .run) ∧
        s'.slice k = s.slice k ∧ s'.cpuTime k = s.cpuTime k)) (k : Nat) :
    (s'.state.pc (.process k) = .unlockRqRun → s'.slice k = .readClock) ∧
      ∀ time, s'.state.pc (.process k) = .sleep → s'.slice k = .print time →
        s.state.pc (.process k) = .sleep ∧ s.slice k = .print time := by
  cases ownTurn_of_step hinv.reachable hstep k with
  | own hl hother hadvance =>
      obtain ⟨hsleep, hbegun⟩ := advance_before_sleep hadvance
      refine ⟨fun hpc => ?_, fun time hpc hprint => ?_⟩
      · rcases hslice k with ⟨-, -, h, -⟩ | ⟨hnot, -⟩
        · exact h
        · have hrun := hbegun hpc
          refine absurd ⟨?_, hrun⟩ hnot
          rcases hl with hl | ⟨c, next, hinstr⟩
          · exact hl
          · rw [hrun] at hinstr
            cases hinstr
      · -- who comes to `usleep` has not read the clock yet
        have hfresh := hinv.fresh k (hsleep hpc)
        rcases hslice k with ⟨-, hrun, -⟩ | ⟨-, h, -⟩
        · rw [hsleep hpc] at hrun
          cases hrun
        · rw [h, hfresh] at hprint
          cases hprint
  | other hpc hwaits _ _ _ =>
      have hsame : s'.slice k = s.slice k := by
        rcases hslice k with ⟨hm, hrun, -⟩ | ⟨-, h, -⟩
        · have := hwaits hm
          rw [hrun] at this
          cases this
        · exact h
      rw [hpc, hsame]
      exact ⟨hinv.fresh k, fun time hpc hprint => ⟨hpc, hprint⟩⟩

/-- **Every step keeps the lines.** -/
theorem TimedInv.step (hinv : TimedInv workload s) (hstep : (timed workload).step l s = some s') :
    TimedInv workload s' := by
  have hlife : ∀ k, (s'.life k).Inv (k + 1) := by
    intro k
    rcases life_step hinv.reachable hinv.fresh hstep k with h | h
    · rw [h]
      exact hinv.life k
    · exact (hinv.life k).step h
  cases timedStep_of_step hstep with
  | thread m hmove hm houtput hslice =>
      have hlines : ∀ k, s'.lines k = s.lines k := by
        intro k
        unfold Timed.lines
        rw [houtput]
      have hthread := hinv.thread hm hslice
      refine ⟨hinv.reachable.step hm, fun k => (hthread k).1, hlife, ?_, ?_, ?_⟩
      · intro line hmem
        rw [houtput] at hmem
        obtain ⟨k, hline⟩ := hinv.owner line hmem
        exact ⟨k, by rw [hlines]; exact hline⟩
      · intro k time hphase
        obtain ⟨hpc, hprint⟩ := phase_printing.mp hphase
        rw [houtput]
        exact hinv.printing k time (phase_printing.mpr ((hthread k).2 time hpc hprint))
      · rw [houtput]
        exact hinv.oneByOne
  | slice j hpc hstate hcpuTime hother hslice =>
      have hfresh : ∀ k, s'.state.pc (.process k) = .unlockRqRun → s'.slice k = .readClock := by
        intro k hk
        rw [hstate] at hk
        rw [hother k (by rintro rfl; rw [hpc] at hk; cases hk)]
        exact hinv.fresh k hk
      -- nobody else is inside of `sleep`
      have halone : ∀ k, s'.state.pc (.process k) = .sleep → k = j := by
        intro k hk
        rw [hstate] at hk
        exact (Inv.reachable hinv.reachable).oneCpu.at_most_one k j
          (by rw [hk]; trivial) (by rw [hpc]; trivial)
      rcases hslice with ⟨hp, hnext, houtput⟩ | ⟨time, hp, hnext, houtput⟩ | ⟨hp, hnext, houtput⟩
      · refine ⟨by rw [hstate]; exact hinv.reachable, hfresh, hlife, ?_, ?_, ?_⟩
        · simpa only [Timed.lines, houtput] using hinv.owner
        · intro k time hphase
          obtain ⟨hk, hprint⟩ := phase_printing.mp hphase
          obtain rfl := halone k hk
          rw [hnext] at hprint
          cases hprint
          rw [houtput]
          exact hinv.over hpc hp
        · rw [houtput]
          exact hinv.oneByOne
      · refine ⟨by rw [hstate]; exact hinv.reachable, hfresh, hlife, ?_, ?_, ?_⟩
        · intro line hmem
          rw [houtput] at hmem
          rcases List.mem_append.mp hmem with hmem | hmem
          · obtain ⟨k, hline⟩ := hinv.owner line hmem
            refine ⟨k, ?_⟩
            rw [lines_of_append houtput]
            split
            · exact List.mem_append_left _ hline
            · exact hline
          · rw [List.mem_singleton] at hmem
            refine ⟨j, ?_⟩
            rw [lines_of_append houtput, if_pos (pid_of_sleep hinv.reachable hpc), hmem]
            exact List.mem_append_right _ (List.mem_singleton_self _)
        · intro k time hphase
          obtain ⟨hk, hprint⟩ := phase_printing.mp hphase
          obtain rfl := halone k hk
          rw [hnext] at hprint
          cases hprint
        · rw [houtput, List.map_append]
          apply hinv.oneByOne.concat
          intro i hi
          obtain ⟨line, hmem, rfl⟩ := List.mem_map.mp hi
          exact hinv.printing j time (phase_printing.mpr ⟨hpc, hp⟩) line hmem
      · refine ⟨by rw [hstate]; exact hinv.reachable, hfresh, hlife, ?_, ?_, ?_⟩
        · simpa only [Timed.lines, houtput] using hinv.owner
        · intro k time hphase
          obtain ⟨hk, hprint⟩ := phase_printing.mp hphase
          obtain rfl := halone k hk
          rw [hnext] at hprint
          cases hprint
        · rw [houtput]
          exact hinv.oneByOne

/-- **A process is never charged for more than its length.** -/
theorem cpuTime_le {s : State} (hs : (cfs workload).Reachable s) (k : Nat) :
    (s.shared.pcbs k).cpuTime ≤ max 0 (s.shared.pcbs k).processLength := by
  have hboth : (cfs workload).Reachable s ∧
      ∀ k, (s.shared.pcbs k).cpuTime ≤ max 0 (s.shared.pcbs k).processLength := by
    apply hs.invariant
    · exact ⟨System.reachable_init, fun k => le_max_left _ _⟩
    · rintro s l s' ⟨hs, hle⟩ hstep
      refine ⟨hs.step hstep, fun k => ?_⟩
      rcases step_process (PlaceInv.reachable hs) hstep k with
        ⟨-, hadvance⟩ | ⟨-, ⟨state, h⟩ | ⟨-, h⟩⟩
      · by_cases hrun : s.pc (.process k) = .run
        · rw [hrun] at hadvance
          obtain ⟨cpuTime, -, hslice, -, -, hcpu, hlength, -⟩ :=
            sliceCpuTime_of_runSlice (advance_run hadvance).2
          omega
        · have heffect := process_effect hadvance
          have hlength := (Prod.mk.inj (Prod.mk.inj heffect.identity).2).2
          rw [heffect.cpuTime hrun, hlength]
          exact hle k
      · rw [h]
        exact hle k
      · omega
  exact hboth.2 k

/-- The time of the slices that lie between two points in time. -/
def Timed.busy (s : Timed) (lo hi : Int) (which : RunningLine → Bool) : Int :=
  ((s.output.filter fun line => which line ∧ line.interval.Within lo hi).map
    RunningLine.cpuTime).sum

end Timed

end Cs342.Cfs
