import Mathlib
import Cs342.Paging.Refinement
import Cs342.Paging.Runs

/-!
# Victims in runs of any length

The invariant of the tables holds after any number of references, as long as the simulation is
defined at all, so a memory without a free frame always has valid pages to choose from. Whether the
searches find one depends on their limit alone: **`victims_found_iff`**. The clock passes the limit
with the millionth reference, and a page that is loaded then is never found
(`victims_not_found`).
-/

namespace Cs342.Paging

/-- The search has found a valid page with the smallest time of all. -/
def FindsOldest (found : Option PageIndex) (time : Page → Int) (outerTable : OuterTable) : Prop :=
  ∃ victim, found = some victim ∧ Resident outerTable victim ∧
    ∀ q, Resident outerTable q → time (outerTable victim) ≤ time (outerTable q)

theorem findsOldest_fifo (outerTable : OuterTable) :
    FindsOldest (getFifoPage outerTable) Page.pageInTime outerTable
      ↔ BelowLimit Page.pageInTime outerTable :=
  ⟨fun ⟨_, hfound, _⟩ => belowLimit_of_getFifoPage hfound, getFifoPage_eq⟩

theorem findsOldest_lru (outerTable : OuterTable) :
    FindsOldest (getLruPage outerTable) Page.lastUsedTime outerTable
      ↔ BelowLimit Page.lastUsedTime outerTable :=
  ⟨fun ⟨_, hfound, _⟩ => belowLimit_of_getLruPage hfound, getLruPage_eq⟩

/-- **Victims.** After references of any number, when no frame is free: some page is valid, and
each search finds the oldest valid page exactly if some valid page has a time below the limit, as
all have in the first 999999 references. -/
theorem victims_found_iff (paramStore : ParamStore) (addresses : List (BitVec 32)) (m : Nat)
    (s : SimulationState) (halgorithm : paramStore.replacementAlgorithm ≠ .unknown)
    (hm : paramStore.numOfFrames = m) (hpos : 1 ≤ m) (hmax : m ≤ maxFrameCount)
    (hs : simulate paramStore addresses = .ok s)
    (hfull : findFirstFreeFrame paramStore s.memory.frames = .ok (-1)) :
    (∃ p, Resident s.memory.outerTable p) ∧
      (FindsOldest (getFifoPage s.memory.outerTable) Page.pageInTime s.memory.outerTable ↔
        ∃ p, Resident s.memory.outerTable p ∧ (s.memory.outerTable p).pageInTime < 999999) ∧
      (FindsOldest (getLruPage s.memory.outerTable) Page.lastUsedTime s.memory.outerTable ↔
        ∃ p, Resident s.memory.outerTable p ∧ (s.memory.outerTable p).lastUsedTime < 999999) ∧
      (s.t < 999999 →
        ∀ p, Resident s.memory.outerTable p → (s.memory.outerTable p).pageInTime < 999999 ∧
          (s.memory.outerTable p).lastUsedTime < 999999) := by
  obtain ⟨-, -, used, hinv⟩ := simulate_inv halgorithm hs
  rw [hm, frameBound_natCast hmax] at hinv
  have hused : 0 < used := by
    rw [findFirstFreeFrame_eq hinv hm hmax] at hfull
    by_contra hzero
    rw [if_pos (by omega)] at hfull
    cases hfull
  obtain ⟨p, hp, -⟩ := hinv.frame_held 0 hused
  refine ⟨⟨p, hp⟩, findsOldest_fifo _, findsOldest_lru _, fun ht q hq => ?_⟩
  have := hinv.times q hq
  omega

/-- One frame, and one page to bring in. -/
def onePage : ParamStore where
  replacementAlgorithm := .lru
  numOfFrames := 1
  totalVirtualAddressInputLength := 1
  virtualRegions := [{ base := 0, pastEnd := 0x4000 }]

theorem victims_found_iff_one_page :
    ∃ s, simulate onePage [0] = .ok s ∧
      (∃ p, Resident s.memory.outerTable p) ∧
      (FindsOldest (getFifoPage s.memory.outerTable) Page.pageInTime s.memory.outerTable ↔
        ∃ p, Resident s.memory.outerTable p ∧ (s.memory.outerTable p).pageInTime < 999999) ∧
      (FindsOldest (getLruPage s.memory.outerTable) Page.lastUsedTime s.memory.outerTable ↔
        ∃ p, Resident s.memory.outerTable p ∧ (s.memory.outerTable p).lastUsedTime < 999999) ∧
      (s.t < 999999 →
        ∀ p, Resident s.memory.outerTable p → (s.memory.outerTable p).pageInTime < 999999 ∧
          (s.memory.outerTable p).lastUsedTime < 999999) := by
  have hparams : ValidParams 1 onePage := ⟨rfl, le_rfl, by decide, by decide⟩
  obtain ⟨s, hs, hrefines⟩ := simulate_refines hparams [0] (by decide) (by decide)
  have hinv : MemoryInv 1 1 s.t s.memory := hrefines.inv
  have hfull : findFirstFreeFrame onePage s.memory.frames = .ok (-1) := by
    rw [findFirstFreeFrame_eq hinv rfl (by decide), if_neg (by decide)]
  exact ⟨s, hs, victims_found_iff onePage [0] 1 s (by decide) rfl le_rfl (by decide) hs hfull⟩

/-- One frame. -/
def oneFrame : ParamStore where
  replacementAlgorithm := .fifo
  numOfFrames := 1
  totalVirtualAddressInputLength := 1000001
  virtualRegions := [{ base := 0, pastEnd := 0x4000 }]

/-- As many references outside the region as the limit counts, and one inside. -/
def lateLoad : List (BitVec 32) := List.replicate 999999 0x4000 ++ [0]

/-- The page is loaded at time 1000000, and neither search finds it for the next reference. -/
theorem victims_not_found :
    ∃ s, simulate oneFrame lateLoad = .ok s ∧
      isVirtualAddressInRange oneFrame.virtualRegions 0x1000 = true ∧
      (s.memory.outerTable (pageOf 0x1000)).valid = false ∧
      findFirstFreeFrame oneFrame s.memory.frames = .ok (-1) ∧
      ¬ FindsOldest (getFifoPage s.memory.outerTable) Page.pageInTime s.memory.outerTable ∧
      ¬ FindsOldest (getLruPage s.memory.outerTable) Page.lastUsedTime s.memory.outerTable := by
  have hparams : ValidParams 1 oneFrame := ⟨rfl, le_rfl, by decide, by decide⟩
  have hlength : (List.replicate 999999 (0x4000 : BitVec 32)).length = 999999 :=
    List.length_replicate
  obtain ⟨s, hs, hrefines⟩ := simulate_refines hparams (List.replicate 999999 0x4000)
    (by rw [hlength]; decide) (by rw [hlength]; decide)
  have htime : s.t = 999999 := hrefines.time.trans hlength
  have hnone : request oneFrame 0x4000 = none := by decide
  have hempty : (referenceRun 1 oneFrame (List.replicate 999999 0x4000)).1 = [] := by
    rw [referenceRun, List.map_replicate, hnone, Replacement.serve_replicate_none]
  have hinv : MemoryInv 1 0 s.t s.memory := by
    have h := hrefines.inv
    rw [hempty] at h
    exact h
  have hvacant : ∀ p, ¬ Resident s.memory.outerTable p := by
    intro p hp
    obtain ⟨f, hf, -⟩ := hinv.frame_used p hp
    cases hf
  have hslot := (hrefines.slot 0 (by rw [hlength]; decide)).1
  have hrange : isVirtualAddressInRange oneFrame.virtualRegions 0 = true := by decide
  obtain ⟨used', memory', fault, frame, hok, hstep⟩ := simulateAddress_inRange hparams hinv
    (fun h => by cases h) hslot hrange
  have hrun : simulate oneFrame lateLoad = .ok {
      t := s.t + 1
      memory := memory'
      results := s.results.set s.t (servedResult 0 fault frame) } := by
    rw [lateLoad, simulate_concat, hs, Outcome.ok_bind, hok]
  have hpage : InTable (pageOf 0) := pageOf_lt 0
  have hlater := hstep.inv hinv (Nat.lt_succ_self _) hpage
  -- the only step from an empty memory is a load into the first frame
  cases hstep with
  | hit hres _ => exact absurd hres (hvacant _)
  | fill hnot hlt =>
      have hkept : ∀ p, Resident (fillFrame 0 (s.t + 1) (pageOf 0) s.memory).outerTable p →
          p = pageOf 0 :=
        fun p hp => ((resident_fillFrame hpage).mp hp).resolve_right (hvacant p)
      have hlate : ∀ p, Resident (fillFrame 0 (s.t + 1) (pageOf 0) s.memory).outerTable p →
          (fillFrame 0 (s.t + 1) (pageOf 0) s.memory).outerTable p = loadedPage 0 1000000 := by
        intro p hp
        rw [hkept p hp, fillFrame_self, htime]
      refine ⟨_, hrun, by decide, ?_, ?_, ?_, ?_⟩
      · by_contra hvalid
        have hres : Resident (fillFrame 0 (s.t + 1) (pageOf 0) s.memory).outerTable
            (pageOf 0x1000) := ⟨pageOf_lt _, by simpa using hvalid⟩
        exact absurd (hkept _ hres) (by decide)
      · rw [findFirstFreeFrame_eq hlater rfl (by decide), if_neg (by decide)]
      · rw [findsOldest_fifo]
        rintro ⟨p, hp, hlt⟩
        rw [hlate p hp] at hlt
        exact absurd hlt (by decide)
      · rw [findsOldest_lru]
        rintro ⟨p, hp, hlt⟩
        rw [hlate p hp] at hlt
        exact absurd hlt (by decide)

end Cs342.Paging
