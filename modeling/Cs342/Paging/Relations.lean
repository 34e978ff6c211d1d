import Mathlib
import Cs342.Paging.Refinement

/-!
# Two simulations compared

Both results are read off the reference machines. One more frame under LRU keeps at least the same
pages valid, and adds no fault (**`lru_inclusion`**). References outside every region leave no trace
in the results of the others (**`exceptions_transparent`**): they move the clock only, and the
machines have none.
-/

namespace Cs342.Paging

open Replacement (Served access serve lruAccess OneFrameMore FaultsWith)

/-! ## One more frame -/

/-- The same simulation with another number of frames. -/
def ParamStore.withFrames (paramStore : ParamStore) (m : Nat) : ParamStore :=
  { paramStore with numOfFrames := m }

section Frames

variable {paramStore : ParamStore} {m : Nat}

theorem referenceRun_withFrames (halgorithm : paramStore.replacementAlgorithm = .lru)
    (addresses : List (BitVec 32)) :
    referenceRun m (paramStore.withFrames m) addresses
      = serve (lruAccess m) [] (addresses.map (request paramStore)) := by
  show serve (access (policyTouch paramStore.replacementAlgorithm) m) []
    (addresses.map (request paramStore)) = _
  rw [halgorithm]
  rfl

/-- The two reference machines, which the two simulations refine. -/
theorem referenceRun_includes (halgorithm : paramStore.replacementAlgorithm = .lru) (hpos : 1 ≤ m)
    (addresses : List (BitVec 32)) :
    OneFrameMore m (referenceRun m (paramStore.withFrames m) addresses).1
        (referenceRun (m + 1) (paramStore.withFrames (m + 1)) addresses).1 ∧
      List.Forall₂ FaultsWith (referenceRun (m + 1) (paramStore.withFrames (m + 1)) addresses).2
        (referenceRun m (paramStore.withFrames m) addresses).2 := by
  rw [referenceRun_withFrames halgorithm, referenceRun_withFrames halgorithm]
  exact Replacement.serve_includes hpos (Replacement.oneFrameMore_nil m) _

theorem Refines.resident_of_mem {addresses : List (BitVec 32)} {s : SimulationState}
    (hs : Refines m paramStore addresses s) {p : PageIndex} :
    Resident s.memory.outerTable p ↔
      ∃ frame, (p, frame) ∈ (referenceRun m paramStore addresses).1 := by
  constructor
  · intro hp
    obtain ⟨frame, -, hframe⟩ := hs.inv.frame_used p hp
    exact ⟨frame, (hs.sim.mem_iff p frame).mpr ⟨hp, hframe⟩⟩
  · rintro ⟨frame, hmem⟩
    exact ((hs.sim.mem_iff p frame).mp hmem).1

/-- A fault in the results is a fault of the machine. -/
theorem causedPageFault_resultOf (address : BitVec 32) (served : Option Served) :
    (resultOf address served).causedPageFault = true ↔
      ∃ s, served = some s ∧ s.fault = true := by
  cases served with
  | none => simp [resultOf, exceptionResult]
  | some s => simp [resultOf, servedResult]

/-- The faults of the first list are faults of the second. -/
theorem faults_zipWith (addresses : List (BitVec 32)) {first second : List (Option Served)}
    (h : List.Forall₂ FaultsWith first second) :
    List.Forall₂ (fun r r' => r.causedPageFault = true → r'.causedPageFault = true)
      (List.zipWith resultOf addresses first) (List.zipWith resultOf addresses second) := by
  induction h generalizing addresses with
  | nil => simp
  | cons hfault _ ih =>
      cases addresses with
      | nil => exact .nil
      | cons address addresses =>
          refine .cons (fun hcaused => ?_) (ih addresses)
          obtain ⟨served, hserved, hf⟩ := (causedPageFault_resultOf _ _).mp hcaused
          exact (causedPageFault_resultOf _ _).mpr (hfault served hserved hf)

theorem countP_le_of_forall₂ {α : Type} {p : α → Bool} {xs ys : List α}
    (h : List.Forall₂ (fun x y => p x = true → p y = true) xs ys) :
    xs.countP p ≤ ys.countP p := by
  induction h with
  | nil => exact le_rfl
  | cons hxy _ ih =>
      rw [List.countP_cons, List.countP_cons]
      split
      · next hx => rw [if_pos (hxy hx)]; omega
      · omega

end Frames

/-- **Inclusion**: after every reference the pages that are valid with `m` frames are valid with
`m + 1`; each fault with `m + 1` frames is one with `m`, so their number does not grow. -/
theorem lru_inclusion (paramStore : ParamStore) (addresses : List (BitVec 32)) (m : Nat)
    (halgorithm : paramStore.replacementAlgorithm = .lru) (hpos : 1 ≤ m) (hmax : m < maxFrameCount)
    (htotal : paramStore.totalVirtualAddressInputLength = addresses.length)
    (hlen : addresses.length ≤ 999999) :
    (∀ k ≤ addresses.length, ∃ s s',
      simulate (paramStore.withFrames m) (addresses.take k) = .ok s ∧
      simulate (paramStore.withFrames (m + 1)) (addresses.take k) = .ok s' ∧
      ∀ p, Resident s.memory.outerTable p → Resident s'.memory.outerTable p) ∧
    ∃ results results',
      runPagingSimulation (paramStore.withFrames m) addresses = .ok results ∧
      runPagingSimulation (paramStore.withFrames (m + 1)) addresses = .ok results' ∧
      List.Forall₂ (fun r' r => r'.causedPageFault = true → r.causedPageFault = true)
        results' results ∧
      results'.countP (·.causedPageFault) ≤ results.countP (·.causedPageFault) := by
  have hknown : paramStore.replacementAlgorithm ≠ .unknown := by rw [halgorithm]; decide
  have hsmall : ValidParams m (paramStore.withFrames m) := ⟨rfl, hpos, hmax.le, hknown⟩
  have hlarge : ValidParams (m + 1) (paramStore.withFrames (m + 1)) :=
    ⟨rfl, Nat.le_add_left 1 m, hmax, hknown⟩
  refine ⟨fun k hk => ?_, ?_⟩
  · have hlength : (addresses.take k).length = k := List.length_take_of_le hk
    have hlimit : ((addresses.take k).length : Int) ≤ timeLimit := by unfold timeLimit; omega
    have hroom : ((addresses.take k).length : Int) ≤ paramStore.totalVirtualAddressInputLength := by
      omega
    obtain ⟨s, hs, hrefines⟩ := simulate_refines hsmall (addresses.take k) hlimit hroom
    obtain ⟨s', hs', hrefines'⟩ := simulate_refines hlarge (addresses.take k) hlimit hroom
    refine ⟨s, s', hs, hs', fun p hp => ?_⟩
    obtain ⟨frame, hmem⟩ := hrefines.resident_of_mem.mp hp
    have hincl := (referenceRun_includes halgorithm hpos (addresses.take k)).1
    exact hrefines'.resident_of_mem.mpr (hincl.mem hmem)
  · have hlimit : (addresses.length : Int) ≤ timeLimit := by unfold timeLimit; omega
    have hfaults := faults_zipWith addresses
      (referenceRun_includes halgorithm hpos addresses).2
    exact ⟨_, _, runPagingSimulation_eq hsmall addresses hlimit htotal,
      runPagingSimulation_eq hlarge addresses hlimit htotal, hfaults,
      countP_le_of_forall₂ hfaults⟩

/-- Four references under two and three frames: the last one faults with two frames only. -/
theorem lru_inclusion_two_frames :
    ∃ results results',
      runPagingSimulation
          { replacementAlgorithm := .lru
            numOfFrames := 2
            totalVirtualAddressInputLength := 4
            virtualRegions := [{ base := 0, pastEnd := 0x4000 }] }
          [0x0000, 0x1000, 0x2000, 0x0000] = .ok results ∧
      runPagingSimulation
          { replacementAlgorithm := .lru
            numOfFrames := 3
            totalVirtualAddressInputLength := 4
            virtualRegions := [{ base := 0, pastEnd := 0x4000 }] }
          [0x0000, 0x1000, 0x2000, 0x0000] = .ok results' ∧
      List.Forall₂ (fun r' r => r'.causedPageFault = true → r.causedPageFault = true)
        results' results ∧
      results'.countP (·.causedPageFault) ≤ results.countP (·.causedPageFault) :=
  (lru_inclusion
    { replacementAlgorithm := .lru
      numOfFrames := 2
      totalVirtualAddressInputLength := 4
      virtualRegions := [{ base := 0, pastEnd := 0x4000 }] }
    [0x0000, 0x1000, 0x2000, 0x0000] 2 rfl (by decide) (by decide) rfl (by decide)).2

/-! ## References outside every region -/

/-- The addresses that lie in a region. -/
def legalAddresses (paramStore : ParamStore) (addresses : List (BitVec 32)) : List (BitVec 32) :=
  addresses.filter (isVirtualAddressInRange paramStore.virtualRegions)

/-- The same simulation of another number of addresses. -/
def ParamStore.withLength (paramStore : ParamStore) (n : Nat) : ParamStore :=
  { paramStore with totalVirtualAddressInputLength := n }

/-- The entries of the addresses that lie in a region. -/
def legalResults (paramStore : ParamStore) (addresses : List (BitVec 32))
    (results : List PagingResult) : List PagingResult :=
  ((addresses.zip results).filter
    fun e => isVirtualAddressInRange paramStore.virtualRegions e.1).map Prod.snd

/-- A machine serves the legal addresses the same, with or without the others. -/
theorem legalResults_serve
    (access : Replacement.Resident PageIndex → PageIndex → Replacement.Resident PageIndex × Served)
    (resident : Replacement.Resident PageIndex) (paramStore : ParamStore)
    (addresses : List (BitVec 32)) :
    legalResults paramStore addresses (List.zipWith resultOf addresses
        (serve access resident (addresses.map (request paramStore))).2)
      = List.zipWith resultOf (legalAddresses paramStore addresses)
          (serve access resident
            ((legalAddresses paramStore addresses).map (request paramStore))).2 := by
  induction addresses generalizing resident with
  | nil => rfl
  | cons address addresses ih =>
      by_cases hlegal : isVirtualAddressInRange paramStore.virtualRegions address = true
      · have hkept : legalAddresses paramStore (address :: addresses)
            = address :: legalAddresses paramStore addresses := List.filter_cons_of_pos hlegal
        have hrequest : request paramStore address = some (pageOf address) := request_of_inRange hlegal
        rw [hkept, List.map_cons, List.map_cons, hrequest]
        simp only [serve, List.zipWith_cons_cons]
        rw [← ih]
        simp [legalResults, hlegal]
      · have hdropped : legalAddresses paramStore (address :: addresses)
            = legalAddresses paramStore addresses := List.filter_cons_of_neg hlegal
        have hrequest : request paramStore address = none := request_of_outOfRange hlegal
        rw [hdropped, List.map_cons, hrequest]
        simp only [serve, List.zipWith_cons_cons]
        rw [← ih]
        simp [legalResults, hlegal]

/-- **Transparency**: without the addresses outside every region the simulation gives the other
addresses the same entries, in the same order. -/
theorem exceptions_transparent (paramStore : ParamStore) (addresses : List (BitVec 32)) (m : Nat)
    (halgorithm : paramStore.replacementAlgorithm ≠ .unknown) (hm : paramStore.numOfFrames = m)
    (hpos : 1 ≤ m) (hmax : m ≤ maxFrameCount)
    (htotal : paramStore.totalVirtualAddressInputLength = addresses.length)
    (hlen : addresses.length ≤ 999999) :
    ∃ results, runPagingSimulation paramStore addresses = .ok results ∧
      runPagingSimulation (paramStore.withLength (legalAddresses paramStore addresses).length)
          (legalAddresses paramStore addresses)
        = .ok (legalResults paramStore addresses results) := by
  have hlimit : (addresses.length : Int) ≤ timeLimit := by unfold timeLimit; omega
  have hle : (legalAddresses paramStore addresses).length ≤ addresses.length :=
    List.length_filter_le _ _
  have hparams : ValidParams m paramStore := ⟨hm, hpos, hmax, halgorithm⟩
  have hparams' : ValidParams m
      (paramStore.withLength (legalAddresses paramStore addresses).length) :=
    ⟨hm, hpos, hmax, halgorithm⟩
  refine ⟨_, runPagingSimulation_eq hparams addresses hlimit htotal, ?_⟩
  rw [referenceRun, legalResults_serve]
  exact runPagingSimulation_eq hparams' _ (by omega) rfl

/-- One frame, and an illegal address between two legal ones. -/
theorem exceptions_transparent_one_frame :
    ∃ results,
      runPagingSimulation
          { replacementAlgorithm := .fifo
            numOfFrames := 1
            totalVirtualAddressInputLength := 3
            virtualRegions := [{ base := 0, pastEnd := 0x4000 }] }
          [0x0001, 0x5000, 0x1002] = .ok results ∧
      runPagingSimulation
          { replacementAlgorithm := .fifo
            numOfFrames := 1
            totalVirtualAddressInputLength := 2
            virtualRegions := [{ base := 0, pastEnd := 0x4000 }] }
          [0x0001, 0x1002]
        = .ok (legalResults
            { replacementAlgorithm := .fifo
              numOfFrames := 1
              totalVirtualAddressInputLength := 3
              virtualRegions := [{ base := 0, pastEnd := 0x4000 }] }
            [0x0001, 0x5000, 0x1002] results) :=
  exceptions_transparent _ _ 1 (by decide) rfl (by decide) (by decide) rfl (by decide)

end Cs342.Paging
