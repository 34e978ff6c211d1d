import Mathlib
import Cs342.Library.Competitive
import Cs342.Paging.Refinement

/-!
# The page faults of a simulation

How good are the victims that the algorithms choose? Whatever is requested, the faults that a
simulation counts are bounded by what any other management of the memory has to load, even one with
fewer frames that knows all addresses in advance (**`page_faults_le_loads`**). The other simulations
are such managements, so the faults of any two of them can be compared
(**`page_faults_le_page_faults`**): with the same `m` frames, one algorithm has at most `m` times the
faults of the other; with about half of the frames the other one has at least about half of the
faults.
-/

namespace Cs342.Paging

open Replacement (Schedules Served loads Orderly faults)

/-- The number of page faults in the results. -/
def pageFaults (results : List PagingResult) : Nat :=
  results.countP PagingResult.causedPageFault

theorem orderly_policyTouch (algorithm : ReplacementAlgorithm) :
    Orderly (policyTouch algorithm) := by
  cases algorithm with
  | fifo => exact Replacement.orderly_fifoTouch
  | lru => exact Replacement.orderly_lruTouch
  | unknown => exact Replacement.orderly_lruTouch

/-- An entry says page fault exactly if the reference was one. -/
theorem pageFaults_zipWith {addresses : List (BitVec 32)} {answers : List (Option Served)}
    (hlength : answers.length = addresses.length) :
    pageFaults (List.zipWith resultOf addresses answers) = faults answers := by
  induction addresses generalizing answers with
  | nil =>
      rw [List.length_eq_zero_iff.mp hlength]
      rfl
  | cons address addresses ih =>
      obtain ⟨answer, answers, rfl⟩ :=
        List.exists_cons_of_length_pos (by rw [hlength]; exact Nat.succ_pos _)
      have hrest := ih (Nat.succ_injective hlength)
      unfold pageFaults faults at hrest ⊢
      rw [List.zipWith_cons_cons, List.countP_cons, List.countP_cons, hrest]
      cases answer <;> rfl

section Run

variable {m : Nat} {paramStore : ParamStore} {addresses : List (BitVec 32)}

/-- The results of a run, with the faults of its reference machine. -/
theorem exists_results (hparams : ValidParams m paramStore)
    (htotal : paramStore.totalVirtualAddressInputLength = addresses.length)
    (hlen : addresses.length ≤ 999999) :
    ∃ results, runPagingSimulation paramStore addresses = .ok results ∧
      pageFaults results = faults (referenceRun m paramStore addresses).2 := by
  have hlimit : (addresses.length : Int) ≤ timeLimit := by unfold timeLimit; omega
  exact ⟨_, runPagingSimulation_eq hparams addresses hlimit htotal,
    pageFaults_zipWith (length_referenceRun addresses)⟩

end Run

/-- **No schedule is much better.** A simulation with `m` frames has at most `m / (m + 1 - k)` times
as many page faults as any schedule for the same addresses has loads in a memory of `k` frames. -/
theorem page_faults_le_loads (paramStore : ParamStore) (addresses : List (BitVec 32)) (m k : Nat)
    (caches : List (Finset PageIndex)) (hknown : paramStore.replacementAlgorithm ≠ .unknown)
    (hm : paramStore.numOfFrames = m) (hpos : 1 ≤ m) (hmax : m ≤ maxFrameCount)
    (htotal : paramStore.totalVirtualAddressInputLength = addresses.length)
    (hlen : addresses.length ≤ 999999)
    (hschedule : Schedules k (addresses.map (request paramStore)) caches) :
    ∃ results, runPagingSimulation paramStore addresses = .ok results ∧
      (m + 1 - k) * pageFaults results ≤ m * loads ∅ caches := by
  obtain ⟨results, hrun, hfaults⟩ := exists_results ⟨hm, hpos, hmax, hknown⟩ htotal hlen
  refine ⟨results, hrun, ?_⟩
  rw [hfaults]
  exact Replacement.faults_competitive (orderly_policyTouch _) hpos hschedule

/-- **Any two simulations.** With `m` frames under one algorithm and `k` frames under another (or
the same), over the same regions and addresses. -/
theorem page_faults_le_page_faults (first second : ParamStore) (addresses : List (BitVec 32))
    (m k : Nat) (hfirst : first.replacementAlgorithm ≠ .unknown)
    (hsecond : second.replacementAlgorithm ≠ .unknown)
    (hregions : first.virtualRegions = second.virtualRegions)
    (hm : first.numOfFrames = m) (hmpos : 1 ≤ m) (hmmax : m ≤ maxFrameCount)
    (hk : second.numOfFrames = k) (hkpos : 1 ≤ k) (hkmax : k ≤ maxFrameCount)
    (hfirstTotal : first.totalVirtualAddressInputLength = addresses.length)
    (hsecondTotal : second.totalVirtualAddressInputLength = addresses.length)
    (hlen : addresses.length ≤ 999999) :
    ∃ results results', runPagingSimulation first addresses = .ok results ∧
      runPagingSimulation second addresses = .ok results' ∧
      (m + 1 - k) * pageFaults results ≤ m * pageFaults results' := by
  obtain ⟨results, hrun, hfaults⟩ := exists_results ⟨hm, hmpos, hmmax, hfirst⟩ hfirstTotal hlen
  obtain ⟨results', hrun', hfaults'⟩ := exists_results ⟨hk, hkpos, hkmax, hsecond⟩ hsecondTotal hlen
  -- the second simulation is a schedule for the requests of the first one
  have hrequests : request first = request second := by
    funext address
    rw [request, request, hregions]
  obtain ⟨hschedule, hloads⟩ := Replacement.schedules_holds
    (orderly_policyTouch second.replacementAlgorithm) hkpos (Replacement.fits_nil k)
    (addresses.map (request second))
  have hle := Replacement.faults_competitive (orderly_policyTouch first.replacementAlgorithm) hmpos
    hschedule
  refine ⟨results, results', hrun, hrun', ?_⟩
  rw [hfaults, hfaults', referenceRun, referenceRun, hrequests]
  calc (m + 1 - k) * _ ≤ m * loads ∅ _ := hle
    _ = _ := congrArg (m * ·) hloads

/-- Two frames and five addresses; the schedule keeps the first page for the last access. -/
theorem page_faults_le_loads_two_frames :
    ∃ results, runPagingSimulation
        { replacementAlgorithm := .fifo
          numOfFrames := 2
          totalVirtualAddressInputLength := 5
          virtualRegions := [{ base := 0, pastEnd := 0x4000 }] }
        [0x0001, 0x1002, 0x2003, 0x0004, 0x5005] = .ok results ∧
      (2 + 1 - 2) * pageFaults results
        ≤ 2 * loads ∅ [{(0, 0)}, {(0, 0), (0, 1)}, {(0, 0), (0, 2)}, {(0, 0), (0, 2)}, ∅] :=
  page_faults_le_loads _ _ 2 2 _ (by decide) rfl (by decide) (by decide) rfl (by decide)
    (.cons ⟨by decide, fun _ h => by cases h; decide⟩
      (.cons ⟨by decide, fun _ h => by cases h; decide⟩
        (.cons ⟨by decide, fun _ h => by cases h; decide⟩
          (.cons ⟨by decide, fun _ h => by cases h; decide⟩
            (.cons ⟨by decide, fun _ h => by cases h⟩ .nil)))))

/-- LRU with two frames against FIFO with two frames. -/
theorem page_faults_le_page_faults_two_frames :
    ∃ results results', runPagingSimulation
        { replacementAlgorithm := .lru
          numOfFrames := 2
          totalVirtualAddressInputLength := 5
          virtualRegions := [{ base := 0, pastEnd := 0x4000 }] }
        [0x0001, 0x1002, 0x2003, 0x0004, 0x5005] = .ok results ∧
      runPagingSimulation
        { replacementAlgorithm := .fifo
          numOfFrames := 2
          totalVirtualAddressInputLength := 5
          virtualRegions := [{ base := 0, pastEnd := 0x4000 }] }
        [0x0001, 0x1002, 0x2003, 0x0004, 0x5005] = .ok results' ∧
      (2 + 1 - 2) * pageFaults results ≤ 2 * pageFaults results' :=
  page_faults_le_page_faults _ _ _ 2 2 (by decide) (by decide) rfl rfl (by decide) (by decide) rfl
    (by decide) (by decide) rfl rfl (by decide)

end Cs342.Paging
