import Mathlib
import Cs342.Paging.Invariant

/-!
# Runs with any number of frames

The search for a free frame is bounded by the number of frames alone. Up to the size of the frame
table it ends at this number; with a number that is larger or negative it goes on to the end of the
table and past it. So the table is used up to a bound of its own (`frameBound`), and with it the
invariant of the tables holds in every run. A step is defined exactly if it finds a place for its
page (`simulate_concat_defined_iff`).
-/

namespace Cs342.Paging

/-- How many frames can ever be in use. -/
def frameBound (numOfFrames : Int) : Nat :=
  if 0 ≤ numOfFrames ∧ numOfFrames ≤ maxFrameCount then numOfFrames.toNat else maxFrameCount

/-- A page can be loaded: a frame is free, or the search for one ends and a victim is found. -/
def HasRoom (paramStore : ParamStore) (memory : Memory) : Prop :=
  (∃ f < frameBound paramStore.numOfFrames, memory.frames[f]? = some { taken := false }) ∨
    (0 ≤ paramStore.numOfFrames ∧ paramStore.numOfFrames ≤ maxFrameCount ∧
      BelowLimit Page.lastUsedTime memory.outerTable)

/-- If the address is in a region and its page is not valid, the page can be loaded. -/
def StepFits (paramStore : ParamStore) (s : SimulationState) (address : BitVec 32) : Prop :=
  isVirtualAddressInRange paramStore.virtualRegions address = true →
    (s.memory.outerTable (pageOf address)).valid = false → HasRoom paramStore s.memory

section Frames

variable {n : Int} {m used t : Nat} {memory : Memory} {paramStore : ParamStore}

theorem frameBound_le (n : Int) : frameBound n ≤ maxFrameCount := by
  unfold frameBound
  split
  · omega
  · exact le_rfl

theorem frameBound_natCast (h : m ≤ maxFrameCount) : frameBound m = m := by
  rw [frameBound, if_pos (by omega), Int.toNat_natCast]

/-- A search that its bound does not stop ends at the first frame that is free, if there is one. -/
theorem firstFreeFrom_past {a b : Nat} {i : Int} (h : ∀ j ≤ a + b, i + j ≠ n) :
    firstFreeFrom n i (List.replicate a { taken := true } ++ List.replicate b { taken := false })
      = if b = 0 then .undefined else .ok (i + a) := by
  induction a generalizing i with
  | zero =>
      have hi : i ≠ n := by simpa using h 0 (Nat.zero_le _)
      cases b with
      | zero => simp [firstFreeFrom, hi]
      | succ b => simp [List.replicate_succ, firstFreeFrom, hi]
  | succ a ih =>
      have hi : i ≠ n := by simpa using h 0 (Nat.zero_le _)
      simp only [List.replicate_succ, List.cons_append, firstFreeFrom, if_pos hi, Bool.not_true,
        Bool.false_eq_true, if_false]
      rw [ih fun j hj => by have := h (j + 1) (by omega); push_cast at this; omega]
      have : i + 1 + (a : Int) = i + (a + 1 : Nat) := by push_cast; ring
      rw [this]

variable (hinv : MemoryInv (frameBound paramStore.numOfFrames) used t memory)
include hinv

/-- The frames in use are the first ones. -/
theorem exists_free_iff :
    (∃ f < frameBound paramStore.numOfFrames, memory.frames[f]? = some { taken := false })
      ↔ used < frameBound paramStore.numOfFrames := by
  have hle := hinv.used_le
  have hmax := frameBound_le paramStore.numOfFrames
  rw [hinv.frames_eq, framesInUse]
  constructor
  · rintro ⟨f, hf, hfree⟩
    by_contra hused
    rw [List.getElem?_append_left (by rw [List.length_replicate]; omega),
      List.getElem?_replicate_of_lt (by omega)] at hfree
    cases hfree
  · intro hused
    refine ⟨used, hused, ?_⟩
    rw [List.getElem?_append_right (by rw [List.length_replicate]), List.length_replicate,
      Nat.sub_self, List.getElem?_replicate_of_lt (by omega)]

theorem findFirstFreeFrame_within (h0 : 0 ≤ paramStore.numOfFrames)
    (hmax : paramStore.numOfFrames ≤ maxFrameCount) :
    findFirstFreeFrame paramStore memory.frames
      = .ok (if used < frameBound paramStore.numOfFrames then (used : Int) else -1) := by
  obtain ⟨m, hm⟩ := Int.eq_ofNat_of_zero_le h0
  have hle : m ≤ maxFrameCount := by omega
  have hbound : frameBound paramStore.numOfFrames = m := by rw [hm, frameBound_natCast hle]
  rw [hbound] at hinv ⊢
  exact findFirstFreeFrame_eq hinv hm hle

theorem findFirstFreeFrame_past
    (hn : ¬ (0 ≤ paramStore.numOfFrames ∧ paramStore.numOfFrames ≤ maxFrameCount)) :
    findFirstFreeFrame paramStore memory.frames
      = if used < maxFrameCount then .ok (used : Int) else .undefined := by
  have hle := hinv.used_le
  have hmax := frameBound_le paramStore.numOfFrames
  rw [findFirstFreeFrame, hinv.frames_eq, framesInUse,
    firstFreeFrom_past (fun j hj hjn => hn ⟨by omega, by omega⟩)]
  by_cases hused : used < maxFrameCount
  · rw [if_neg (by omega), if_pos hused, zero_add]
  · rw [if_pos (by omega), if_neg hused]

/-- With room for its page a fault finds a frame, or a victim. -/
theorem handlePageFault_of_hasRoom {page : PageIndex} (t' : Nat)
    (halg : paramStore.replacementAlgorithm ≠ .unknown) (hroom : HasRoom paramStore memory)
    (hpage : ¬ Resident memory.outerTable page) (result : PagingResult) :
    ∃ used' mid frame, handlePageFault paramStore t' page memory result
        = .ok (mid, { result with causedPageFault := true, replacedFrameIndex := (frame : Nat) }) ∧
      PageStep (frameBound paramStore.numOfFrames) (victimTime paramStore.replacementAlgorithm) t'
        page used memory used' (touchPage t' page mid) true frame := by
  have hmax := frameBound_le paramStore.numOfFrames
  have hbelow : used = frameBound paramStore.numOfFrames →
      BelowLimit Page.lastUsedTime memory.outerTable := by
    intro hfull
    rcases hroom with hfree | ⟨-, -, hbelow⟩
    · have := (exists_free_iff hinv).mp hfree
      omega
    · exact hbelow
  have hfree : findFirstFreeFrame paramStore memory.frames
      = .ok (if used < frameBound paramStore.numOfFrames then (used : Int) else -1) := by
    by_cases hn : 0 ≤ paramStore.numOfFrames ∧ paramStore.numOfFrames ≤ maxFrameCount
    · exact findFirstFreeFrame_within hinv hn.1 hn.2
    · -- the search cannot end, so there must be a free frame
      have hused : used < frameBound paramStore.numOfFrames :=
        (exists_free_iff hinv).mp (hroom.resolve_right fun h => hn ⟨h.1, h.2.1⟩)
      rw [findFirstFreeFrame_past hinv hn, if_pos hused, if_pos (by omega)]
  obtain ⟨used', mid, frame, hfault, -, hstep⟩ :=
    handlePageFault_spec t' hinv hbelow hfree hmax halg hpage result
  exact ⟨used', mid, frame, hfault, hstep⟩

/-- And it has room if it is defined. -/
theorem hasRoom_of_handlePageFault {t' : Nat} {page : PageIndex} {result : PagingResult}
    {r : Memory × PagingResult} (h : handlePageFault paramStore t' page memory result = .ok r) :
    HasRoom paramStore memory := by
  have hle := hinv.used_le
  by_cases hused : used < frameBound paramStore.numOfFrames
  · exact .inl ((exists_free_iff hinv).mpr hused)
  · obtain ⟨free, hfree, h⟩ := Outcome.bind_eq_ok.mp h
    by_cases hn : 0 ≤ paramStore.numOfFrames ∧ paramStore.numOfFrames ≤ maxFrameCount
    · rw [findFirstFreeFrame_within hinv hn.1 hn.2, if_neg hused] at hfree
      cases hfree
      rw [if_pos rfl] at h
      obtain ⟨victim, hvictim, -⟩ := Outcome.bind_eq_ok.mp h
      exact .inr ⟨hn.1, hn.2, belowLimit_of_getVictimPage hvictim⟩
    · have hbound : frameBound paramStore.numOfFrames = maxFrameCount := by
        rw [frameBound, if_neg hn]
      rw [findFirstFreeFrame_past hinv hn, if_neg (by omega)] at hfree
      cases hfree

end Frames

/-! ## Steps and runs -/

section Runs

variable {used : Nat} {paramStore : ParamStore} {s s' : SimulationState} {address : BitVec 32}
  {addresses : List (BitVec 32)}

/-- A step that fits is defined, and leaves the tables consistent. -/
theorem simulateAddress_of_stepFits (halg : paramStore.replacementAlgorithm ≠ .unknown)
    (hinv : MemoryInv (frameBound paramStore.numOfFrames) used s.t s.memory)
    (hslot : s.t < s.results.length) (hfits : StepFits paramStore s address) :
    ∃ used' s', simulateAddress paramStore s address = .ok s' ∧
      s'.t = s.t + 1 ∧ s'.results.length = s.results.length ∧
      MemoryInv (frameBound paramStore.numOfFrames) used' s'.t s'.memory := by
  have hpage : InTable (pageOf address) := pageOf_lt address
  have hresult : s.results[s.t]? = some s.results[s.t] := List.getElem?_eq_getElem hslot
  cases hrange : isVirtualAddressInRange paramStore.virtualRegions address with
  | false =>
      exact ⟨used, _, simulateAddress_outside hresult hrange, rfl, List.length_set,
        hinv.mono (Nat.le_succ _)⟩
  | true =>
      cases hvalid : (s.memory.outerTable (pageOf address)).valid with
      | true =>
          exact ⟨used, _, simulateAddress_hit hresult hrange hvalid, rfl, List.length_set,
            hinv.touch (Nat.lt_succ_self _)⟩
      | false =>
          have hnot : ¬ Resident s.memory.outerTable (pageOf address) := fun h => by
            rw [h.2] at hvalid
            cases hvalid
          obtain ⟨used', mid, frame, hfault, hstep⟩ := handlePageFault_of_hasRoom hinv (s.t + 1)
            halg (hfits hrange hvalid) hnot { s.results[s.t] with virtualAddress := some address }
          have hmiss := simulateAddress_miss hresult hrange hvalid
          rw [hfault, Outcome.ok_bind] at hmiss
          exact ⟨used', _, hmiss, rfl, List.length_set,
            hstep.inv hinv (Nat.lt_succ_self _) hpage⟩

/-- A step that is defined fits. -/
theorem stepFits_of_simulateAddress
    (hinv : MemoryInv (frameBound paramStore.numOfFrames) used s.t s.memory)
    (h : simulateAddress paramStore s address = .ok s') :
    s.t < s.results.length ∧ StepFits paramStore s address := by
  have hslot : s.t < s.results.length := by
    obtain ⟨result, hresult, -⟩ := Outcome.bind_eq_ok.mp h
    exact (List.getElem?_eq_some_iff.mp (Outcome.ofOption_eq_ok.mp hresult)).1
  refine ⟨hslot, fun hrange hvalid => ?_⟩
  rw [simulateAddress_miss (List.getElem?_eq_getElem hslot) hrange hvalid] at h
  obtain ⟨r, hfault, -⟩ := Outcome.bind_eq_ok.mp h
  exact hasRoom_of_handlePageFault hinv hfault

theorem simulateAddress_inv (halg : paramStore.replacementAlgorithm ≠ .unknown)
    (hinv : MemoryInv (frameBound paramStore.numOfFrames) used s.t s.memory)
    (h : simulateAddress paramStore s address = .ok s') :
    s'.t = s.t + 1 ∧ s'.results.length = s.results.length ∧
      ∃ used', MemoryInv (frameBound paramStore.numOfFrames) used' s'.t s'.memory := by
  obtain ⟨hslot, hfits⟩ := stepFits_of_simulateAddress hinv h
  obtain ⟨used', mid, hmid, ht, hlength, hmidInv⟩ :=
    simulateAddress_of_stepFits halg hinv hslot hfits
  cases hmid.symm.trans h
  exact ⟨ht, hlength, used', hmidInv⟩

/-- **Every state of a run is consistent**, whatever the number of frames: the clock counts the
addresses, and the store has the length that was asked for. -/
theorem simulate_inv (halg : paramStore.replacementAlgorithm ≠ .unknown)
    (h : simulate paramStore addresses = .ok s) :
    s.t = addresses.length ∧ (s.results.length : Int) = paramStore.totalVirtualAddressInputLength ∧
      ∃ used, MemoryInv (frameBound paramStore.numOfFrames) used s.t s.memory := by
  induction addresses using List.reverseRecOn generalizing s with
  | nil =>
      obtain ⟨htotal, rfl⟩ := simulate_nil_eq_ok.mp h
      refine ⟨rfl, ?_, 0, memoryInv_init _⟩
      rw [initialState, List.length_replicate]
      exact Int.toNat_of_nonneg htotal
  | append_singleton addresses address ih =>
      rw [simulate_concat] at h
      obtain ⟨mid, hmid, hlast⟩ := Outcome.bind_eq_ok.mp h
      obtain ⟨htime, hlength, used, hinv⟩ := ih hmid
      obtain ⟨ht, hlength', hinv'⟩ := simulateAddress_inv halg hinv hlast
      refine ⟨?_, by rw [hlength', hlength], hinv'⟩
      rw [ht, htime, List.length_append, List.length_singleton]

/-- **One step of a run** is defined exactly if it has a slot for its result and fits. -/
theorem simulate_concat_defined_iff (halg : paramStore.replacementAlgorithm ≠ .unknown)
    (h : simulate paramStore addresses = .ok s) :
    (∃ s', simulate paramStore (addresses ++ [address]) = .ok s') ↔
      (addresses.length : Int) < paramStore.totalVirtualAddressInputLength ∧
        StepFits paramStore s address := by
  obtain ⟨htime, hlength, used, hinv⟩ := simulate_inv halg h
  rw [simulate_concat, h, Outcome.ok_bind]
  constructor
  · rintro ⟨s', hs'⟩
    obtain ⟨hslot, hfits⟩ := stepFits_of_simulateAddress hinv hs'
    exact ⟨by omega, hfits⟩
  · rintro ⟨hslot, hfits⟩
    obtain ⟨-, s', hs', -⟩ := simulateAddress_of_stepFits halg hinv (by omega) hfits
    exact ⟨s', hs'⟩

end Runs

end Cs342.Paging
