import Mathlib
import Cs342.Library.Argmin
import Cs342.Library.Outcome
import Cs342.Paging.Address

/-!
# The paging simulation (`run_paging_simulation`)

The simulated memory is a table of frames, of which only a flag is kept, and a two-level table of
pages with their frames and two times. A `struct page*` is the pair of its indices; a pointer that
was never assigned points nowhere (`none`). The results are an array that the loop fills entry by
entry.
-/

namespace Cs342.Paging

/-- `enum replacement_algorithm`, and any other int the command line may hold. -/
inductive ReplacementAlgorithm where
  | lru
  | fifo
  | unknown
  deriving DecidableEq

/-- What the simulation reads of `struct param_store`; the addresses come from its iterator. -/
structure ParamStore where
  replacementAlgorithm : ReplacementAlgorithm
  numOfFrames : Int
  totalVirtualAddressInputLength : Int
  virtualRegions : List VirtualRegion

/-- `struct page`. -/
structure Page where
  frame : Int
  valid : Bool
  pageInTime : Int
  lastUsedTime : Int
  deriving DecidableEq

/-- `struct page*`. -/
abbrev PageIndex := Nat × Nat

/-- `outer_table[i].inner_pages[j]`. -/
abbrev OuterTable := PageIndex → Page

/-- `MAX_FRAME_COUNT`. -/
def maxFrameCount : Nat := 1000

/-- `struct memory_frame`. -/
structure MemoryFrame where
  taken : Bool
  deriving DecidableEq

/-- `struct paging_result`; two of its fields are not initialised. -/
structure PagingResult where
  virtualAddress : Option (BitVec 32)
  physicalAddress : Option Int
  replacedFrameIndex : Int
  causedPageFault : Bool
  unusedMemoryAccessException : Bool
  deriving DecidableEq

/-! ## The tables -/

/-- The index lies in both tables. -/
def InTable (page : PageIndex) : Prop := page.1 < pageTableLength ∧ page.2 < pageTableLength

instance (page : PageIndex) : Decidable (InTable page) :=
  inferInstanceAs (Decidable (_ ∧ _))

/-- `*page`. -/
def pageAt (outerTable : OuterTable) (page : PageIndex) : Outcome Page :=
  if InTable page then .ok (outerTable page) else .undefined

/-- The pages in the order of the two nested loops. -/
def pageIndices : List PageIndex :=
  (List.range pageTableLength).flatMap fun i => (List.range pageTableLength).map fun j => (i, j)

/-- The time no stored time is meant to reach. -/
def timeLimit : Int := 999999

/-- The nested loops of `get_fifo_page` and `get_lru_page`: the valid page with the smallest time
below the limit. -/
def getOldestPage (indices : List PageIndex) (time : Page → Int) (outerTable : OuterTable) :
    Option PageIndex :=
  (Argmin.scan (fun page => time (outerTable page)) (fun page => (outerTable page).valid)
    timeLimit indices).2

def getFifoPage (outerTable : OuterTable) : Option PageIndex :=
  getOldestPage pageIndices Page.pageInTime outerTable

def getLruPage (outerTable : OuterTable) : Option PageIndex :=
  getOldestPage pageIndices Page.lastUsedTime outerTable

/-- Both candidates are computed, and the debug output, which is switched on, reads the frames of
both. The one of the chosen algorithm is returned. -/
def getVictimPage (paramStore : ParamStore) (outerTable : OuterTable) : Outcome PageIndex := do
  let replacementFifo ← Outcome.ofOption (getFifoPage outerTable)
  let replacementLru ← Outcome.ofOption (getLruPage outerTable)
  match paramStore.replacementAlgorithm with
  | .fifo => return replacementFifo
  | .lru => return replacementLru
  | .unknown => .exit 1 "error: unknown replacement algorithm given\n"

/-- The loop of `find_first_free_frame` at `i`, on the frames from `i` on. -/
def firstFreeFrom (numOfFrames : Int) : Int → List MemoryFrame → Outcome Int
  | i, [] => if i ≠ numOfFrames then .undefined else .ok (-1)
  | i, frame :: frames =>
    if i ≠ numOfFrames then
      if !frame.taken then .ok i else firstFreeFrom numOfFrames (i + 1) frames
    else
      .ok (-1)

def findFirstFreeFrame (paramStore : ParamStore) (frames : List MemoryFrame) : Outcome Int :=
  firstFreeFrom paramStore.numOfFrames 0 frames

/-- `frames[i].taken = 1`. -/
def takeFrame (frames : List MemoryFrame) (i : Int) : Outcome (List MemoryFrame) :=
  if 0 ≤ i ∧ i < frames.length then .ok (frames.set i.toNat { taken := true }) else .undefined

def initOuterPageTable : OuterTable := fun _ =>
  { frame := -1, valid := false, pageInTime := -1, lastUsedTime := -1 }

def initFrameTable : List MemoryFrame := List.replicate maxFrameCount { taken := false }

/-- A result as `init_paging_result_store` leaves it. -/
def initPagingResult : PagingResult where
  virtualAddress := none
  physicalAddress := none
  replacedFrameIndex := -1
  causedPageFault := false
  unusedMemoryAccessException := false

/-- The loop up to a negative length never ends, and leaves the array at once. -/
def initPagingResultStore (paramStore : ParamStore) : Outcome (List PagingResult) :=
  if paramStore.totalVirtualAddressInputLength < 0 then .undefined
  else .ok (List.replicate paramStore.totalVirtualAddressInputLength.toNat initPagingResult)

/-! ## The loop -/

/-- The two tables. -/
structure Memory where
  frames : List MemoryFrame
  outerTable : OuterTable

/-- The variables of the loop. -/
structure SimulationState where
  t : Nat
  memory : Memory
  results : List PagingResult

/-- The body of `if (!page->valid)`. -/
def handlePageFault (paramStore : ParamStore) (t : Nat) (page : PageIndex) (memory : Memory)
    (currentResult : PagingResult) : Outcome (Memory × PagingResult) := do
  let currentResult := { currentResult with causedPageFault := true }
  let freeFrameIndex ← findFirstFreeFrame paramStore memory.frames
  let (freeFrameIndex, outerTable) ←
    if freeFrameIndex = -1 then do
      let victimPage ← getVictimPage paramStore memory.outerTable
      let outerTable := Function.update memory.outerTable victimPage
        { memory.outerTable victimPage with valid := false }
      Outcome.ok ((outerTable victimPage).frame, outerTable)
    else
      Outcome.ok (freeFrameIndex, memory.outerTable)
  let frames ← takeFrame memory.frames freeFrameIndex
  let outerTable := Function.update outerTable page
    { outerTable page with frame := freeFrameIndex, valid := true, pageInTime := t }
  return ({ frames := frames, outerTable := outerTable },
    { currentResult with replacedFrameIndex := (outerTable page).frame })

/-- One iteration, on the next address of the iterator. -/
def simulateAddress (paramStore : ParamStore) (s : SimulationState) (address : BitVec 32) :
    Outcome SimulationState := do
  let currentResult ← Outcome.ofOption s.results[s.t]?
  let t := s.t + 1
  let currentResult := { currentResult with virtualAddress := some address }
  if !isVirtualAddressInRange paramStore.virtualRegions address then
    let currentResult := { currentResult with unusedMemoryAccessException := true }
    return { s with t := t, results := s.results.set s.t currentResult }
  else
    let logicalAddress := getLogicalAddress address
    let page := (logicalAddress.outerIndex, logicalAddress.innerIndex)
    let found ← pageAt s.memory.outerTable page
    let (memory, currentResult) ←
      if !found.valid then handlePageFault paramStore t page s.memory currentResult
      else Outcome.ok (s.memory, currentResult)
    let outerTable := Function.update memory.outerTable page
      { memory.outerTable page with lastUsedTime := t }
    let currentResult := { currentResult with
      physicalAddress := some
        (getPhysicalAddress (outerTable page).frame logicalAddress.pageOffset) }
    return {
      t := t
      memory := { memory with outerTable := outerTable }
      results := s.results.set s.t currentResult }

/-- The state of `run_paging_simulation` after these addresses. -/
def simulate (paramStore : ParamStore) (addresses : List (BitVec 32)) :
    Outcome SimulationState := do
  let results ← initPagingResultStore paramStore
  addresses.foldlM (simulateAddress paramStore)
    { t := 0
      memory := { frames := initFrameTable, outerTable := initOuterPageTable }
      results := results }

/-- The state before the first address. -/
def initialState (paramStore : ParamStore) : SimulationState where
  t := 0
  memory := { frames := initFrameTable, outerTable := initOuterPageTable }
  results := List.replicate paramStore.totalVirtualAddressInputLength.toNat initPagingResult

theorem simulate_nil_eq_ok {paramStore : ParamStore} {s : SimulationState} :
    simulate paramStore [] = .ok s ↔
      0 ≤ paramStore.totalVirtualAddressInputLength ∧ s = initialState paramStore := by
  unfold simulate initPagingResultStore
  split
  · next hneg =>
      constructor
      · intro h
        cases h
      · rintro ⟨h, -⟩
        exact absurd hneg (not_lt.mpr h)
  · next hneg =>
      rw [and_iff_right (not_lt.mp hneg)]
      constructor
      · intro h
        cases h
        rfl
      · rintro rfl
        rfl

/-- One address more is one iteration more. -/
theorem simulate_concat (paramStore : ParamStore) (addresses : List (BitVec 32))
    (address : BitVec 32) :
    simulate paramStore (addresses ++ [address])
      = simulate paramStore addresses >>= fun s => simulateAddress paramStore s address := by
  unfold simulate
  rw [bind_assoc]
  congr 1
  funext results
  rw [List.foldlM_append]
  congr 1
  funext s
  rw [List.foldlM_cons]
  exact bind_pure _

def runPagingSimulation (paramStore : ParamStore) (addresses : List (BitVec 32)) :
    Outcome (List PagingResult) := do
  let s ← simulate paramStore addresses
  return s.results

end Cs342.Paging
