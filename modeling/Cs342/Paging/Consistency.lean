import Mathlib
import Cs342.Paging.Refinement

/-!
# The tables between two iterations

What holds of the tables after any number of iterations, whichever algorithm is chosen
(**`simulate_consistent`**): a valid page has a frame of its own, the frame table marks exactly the
frames of valid pages, and the times tell valid pages apart. So the translation of resident
addresses is injective, and the results hold physical addresses of the simulated memory.
-/

namespace Cs342.Paging

/-- The physical address of a virtual one under the current table. -/
def translate (outerTable : OuterTable) (address : BitVec 32) : Int :=
  let logicalAddress := getLogicalAddress address
  getPhysicalAddress (outerTable (logicalAddress.outerIndex, logicalAddress.innerIndex)).frame
    logicalAddress.pageOffset

/-- The page table, the frame table and the clock agree. -/
structure Consistent (m : Nat) (s : SimulationState) : Prop where
  frame_range : ∀ p, Resident s.memory.outerTable p →
    0 ≤ (s.memory.outerTable p).frame ∧ (s.memory.outerTable p).frame < m
  frame_ne : ∀ p q, Resident s.memory.outerTable p → Resident s.memory.outerTable q → p ≠ q →
    (s.memory.outerTable p).frame ≠ (s.memory.outerTable q).frame
  taken_iff : ∀ f < maxFrameCount, s.memory.frames[f]? = some { taken := true } ↔
    ∃ p, Resident s.memory.outerTable p ∧ (s.memory.outerTable p).frame = (f : Int)
  pageInTime_ne : ∀ p q, Resident s.memory.outerTable p → Resident s.memory.outerTable q → p ≠ q →
    (s.memory.outerTable p).pageInTime ≠ (s.memory.outerTable q).pageInTime
  lastUsedTime_ne : ∀ p q, Resident s.memory.outerTable p → Resident s.memory.outerTable q →
    p ≠ q → (s.memory.outerTable p).lastUsedTime ≠ (s.memory.outerTable q).lastUsedTime
  times : ∀ p, Resident s.memory.outerTable p →
    (s.memory.outerTable p).pageInTime ≤ (s.memory.outerTable p).lastUsedTime ∧
      (s.memory.outerTable p).lastUsedTime ≤ s.t

theorem taken_framesInUse {used f : Nat} (hf : f < maxFrameCount) :
    (framesInUse used)[f]? = some { taken := true } ↔ f < used := by
  unfold framesInUse
  by_cases h : f < used
  · simp [List.getElem?_append, h]
  · rw [List.getElem?_append_right (by simpa using h), List.getElem?_replicate,
      List.length_replicate, if_pos (by omega)]
    simp [h]

theorem MemoryInv.consistent {m used : Nat} {s : SimulationState}
    (hinv : MemoryInv m used s.t s.memory) : Consistent m s := by
  have hle := hinv.used_le
  refine ⟨?_, ?_, ?_, ?_, ?_, hinv.times⟩
  · intro p hp
    obtain ⟨f, hf, hframe⟩ := hinv.frame_used p hp
    omega
  · intro p q hp hq hne heq
    exact hne (hinv.frame_inj p q hp hq heq)
  · intro f hf
    rw [hinv.frames_eq, taken_framesInUse hf]
    constructor
    · exact hinv.frame_held f
    · rintro ⟨p, hp, hframe⟩
      obtain ⟨f', hf', hframe'⟩ := hinv.frame_used p hp
      omega
  · intro p q hp hq hne heq
    exact hne (hinv.pageIn_inj p q hp hq heq)
  · intro p q hp hq hne heq
    exact hne (hinv.lastUsed_inj p q hp hq heq)

theorem translate_eq (outerTable : OuterTable) (address : BitVec 32) :
    translate outerTable address
      = (outerTable (pageOf address)).frame * 2 ^ 12 + (address.toNat % 2 ^ 12 : Nat) := by
  rw [translate, getLogicalAddress_eq]
  rfl

/-- Resident addresses have physical addresses of their own. -/
theorem Consistent.translate_ne {m : Nat} {s : SimulationState} (hs : Consistent m s)
    {a b : BitVec 32} (hne : a ≠ b) (ha : Resident s.memory.outerTable (pageOf a))
    (hb : Resident s.memory.outerTable (pageOf b)) :
    translate s.memory.outerTable a ≠ translate s.memory.outerTable b := by
  intro heq
  rw [translate_eq, translate_eq] at heq
  -- the offsets are below the page size, so they agree and the frames do
  have hoffset : a.toNat % 2 ^ 12 = b.toNat % 2 ^ 12 := by omega
  have hframe : (s.memory.outerTable (pageOf a)).frame = (s.memory.outerTable (pageOf b)).frame := by
    omega
  have hpage : pageOf a = pageOf b := by
    by_contra h
    exact hs.frame_ne _ _ ha hb h hframe
  exact hne (eq_of_pageOf_eq hpage hoffset)

/-- The physical address of an entry lies in the first `m` frames, at the offset of the virtual
one. -/
def GoodResult (m : Nat) (result : PagingResult) : Prop :=
  ∀ virtualAddress physicalAddress, result.virtualAddress = some virtualAddress →
    result.physicalAddress = some physicalAddress →
    0 ≤ physicalAddress ∧ physicalAddress < m * 4096 ∧
      physicalAddress % 4096 = (virtualAddress.toNat % 4096 : Nat)

theorem goodResult_served {m frame : Nat} (address : BitVec 32) (fault : Bool) (hframe : frame < m) :
    GoodResult m (servedResult address fault frame) := by
  intro virtualAddress physicalAddress hv hp
  simp only [servedResult, Option.some.injEq] at hv hp
  subst hv hp
  omega

theorem Refines.goodResult {m : Nat} {paramStore : ParamStore} {addresses : List (BitVec 32)}
    {s : SimulationState} (hs : Refines m paramStore addresses s) :
    ∀ result ∈ s.results, GoodResult m result := by
  intro result hresult
  rw [hs.results] at hresult
  rcases List.mem_append.mp hresult with h | h
  · rw [← List.map_uncurry_zip_eq_zipWith] at h
    obtain ⟨⟨address, served⟩, hmem, rfl⟩ := List.mem_map.mp h
    cases served with
    | none =>
        intro virtualAddress physicalAddress _ hp
        cases hp
    | some served =>
        exact goodResult_served address served.fault
          (hs.frames served (List.of_mem_zip hmem).2)
  · rw [List.eq_of_mem_replicate h]
    intro virtualAddress physicalAddress hv
    cases hv

/-- **The tables are consistent after every iteration.** -/
theorem simulate_consistent (paramStore : ParamStore) (addresses : List (BitVec 32)) (m : Nat)
    (halgorithm : paramStore.replacementAlgorithm ≠ .unknown) (hm : paramStore.numOfFrames = m)
    (hpos : 1 ≤ m) (hmax : m ≤ maxFrameCount)
    (htotal : paramStore.totalVirtualAddressInputLength = addresses.length)
    (hlen : addresses.length ≤ 999999) :
    ∀ k ≤ addresses.length, ∃ s, simulate paramStore (addresses.take k) = .ok s ∧
      Consistent m s ∧
      (∀ a b, a ≠ b → Resident s.memory.outerTable (pageOf a) →
        Resident s.memory.outerTable (pageOf b) →
        translate s.memory.outerTable a ≠ translate s.memory.outerTable b) ∧
      ∀ result ∈ s.results, GoodResult m result := by
  intro k hk
  have hlength : (addresses.take k).length = k := List.length_take_of_le hk
  obtain ⟨s, hok, hs⟩ := simulate_refines ⟨hm, hpos, hmax, halgorithm⟩ (addresses.take k)
    (by unfold timeLimit; omega) (by omega)
  have hconsistent := hs.inv.consistent
  exact ⟨s, hok, hconsistent, fun a b => hconsistent.translate_ne, hs.goodResult⟩

/-- Two frames and two addresses, with an entry left to write. -/
theorem simulate_consistent_two_frames :
    ∃ s, simulate
        { replacementAlgorithm := .fifo
          numOfFrames := 2
          totalVirtualAddressInputLength := 3
          virtualRegions := [{ base := 0, pastEnd := 0x4000 }] }
        [0x0001, 0x1002] = .ok s ∧
      Consistent 2 s ∧
      (∀ a b, a ≠ b → Resident s.memory.outerTable (pageOf a) →
        Resident s.memory.outerTable (pageOf b) →
        translate s.memory.outerTable a ≠ translate s.memory.outerTable b) ∧
      ∀ result ∈ s.results, GoodResult 2 result :=
  simulate_consistent _ [0x0001, 0x1002, 0x2004] 2 (by decide) rfl (by decide) (by decide) rfl
    (by decide) 2 (by decide)

end Cs342.Paging
