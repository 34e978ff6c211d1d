import Mathlib
import Cs342.Paging.Params
import Cs342.Paging.Runs

/-!
# Indices of the tables in runs from the command line

An index outside of its table, a loop that runs past the end of one, and a victim pointer that was
never set have no defined outcome in the simulation, so its accesses are in bounds as long as it is
defined. The iterator hands out no more addresses than the result store has entries. What is left to
chance are the numbers that the parser takes over as they are: a negative number of addresses, and a
number of frames that leaves no room for a page (**`accesses_in_bounds_iff`**). Up to the size of
the frame table and the limit of the victim searches all numbers are fine
(`accesses_in_bounds_ordinary`).
-/

namespace Cs342.Paging

/-- The simulation is defined on whatever addresses the iterator hands out, after each of them. -/
def AccessesInBounds (params : FullParamStore) : Prop :=
  ∀ rand addresses iterator, Delivers params rand addresses iterator →
    ∃ s, simulate params.toParamStore addresses = .ok s

/-- In every state that is reached, the next address fits. -/
def EveryStepFits (params : FullParamStore) : Prop :=
  ∀ rand addresses iterator address iterator' s, Delivers params rand addresses iterator →
    hasNextVirtualAddress params iterator = true →
    getNextVirtualAddress params rand iterator = .ok (address, iterator') →
    simulate params.toParamStore addresses = .ok s → StepFits params.toParamStore s address

section Bounds

variable {files : Files} {args : List CString} {params : FullParamStore}

/-- Steps that fit lead to steps that are defined, one address after the other. -/
theorem accessesInBounds_of_fits (hparse : parseArguments files args = .ok params)
    (halg : params.replacementAlgorithm ≠ .unknown)
    (htotal : 0 ≤ params.totalVirtualAddressInputLength) (hfits : EveryStepFits params) :
    AccessesInBounds params := by
  intro rand addresses iterator hdelivers
  induction hdelivers with
  | init => exact ⟨_, simulate_nil_eq_ok.mpr ⟨htotal, rfl⟩⟩
  | next hdelivers hnext haddress ih =>
      obtain ⟨s, hs⟩ := ih
      exact (simulate_concat_defined_iff halg hs).mpr
        ⟨hdelivers.lt_total hparse hnext, hfits _ _ _ _ _ _ hdelivers hnext haddress hs⟩

/-- **Accesses in bounds.** For parameters that were parsed, all accesses of all runs are in bounds
exactly if the number of addresses is not negative and every step has room for its page. -/
theorem accesses_in_bounds_iff (files : Files) (args : List CString) (params : FullParamStore)
    (hparse : parseArguments files args = .ok params)
    (halgorithm : params.replacementAlgorithm ≠ .unknown) :
    AccessesInBounds params ↔
      0 ≤ params.totalVirtualAddressInputLength ∧ EveryStepFits params := by
  constructor
  · intro h
    obtain ⟨start, hstart⟩ := h (fun _ => 0) [] _ .init
    refine ⟨(simulate_nil_eq_ok.mp hstart).1, ?_⟩
    intro rand addresses iterator address iterator' s hdelivers hnext haddress hs
    obtain ⟨s', hs'⟩ := h rand _ _ (.next hdelivers hnext haddress)
    exact ((simulate_concat_defined_iff halgorithm hs).mp ⟨s', hs'⟩).2
  · rintro ⟨htotal, hfits⟩
    exact accessesInBounds_of_fits hparse halgorithm htotal hfits

/-- **Ordinary numbers are fine**: up to the size of the frame table, and to the limit of the
searches for a victim. -/
theorem accesses_in_bounds_ordinary (hparse : parseArguments files args = .ok params)
    (halg : params.replacementAlgorithm ≠ .unknown) (hpos : 1 ≤ params.numOfFrames)
    (hmax : params.numOfFrames ≤ maxFrameCount)
    (htotal : 0 ≤ params.totalVirtualAddressInputLength)
    (hlimit : params.totalVirtualAddressInputLength ≤ timeLimit) : AccessesInBounds params := by
  apply accessesInBounds_of_fits hparse halg htotal
  intro rand addresses iterator address iterator' s hdelivers hnext haddress hs hrange hvalid
  obtain ⟨htime, -, used, hinv⟩ := simulate_inv halg hs
  have hlt := hdelivers.lt_total hparse hnext
  by_cases hused : used < frameBound params.numOfFrames
  · exact .inl ((exists_free_iff hinv).mpr hused)
  · have hbound : (frameBound params.numOfFrames : Int) = params.numOfFrames := by
      rw [frameBound, if_pos ⟨by omega, hmax⟩]
      omega
    exact .inr ⟨by omega, hmax, hinv.belowLimit (by omega) (by omega)⟩

end Bounds

/-- `0x1`: the only address below it is zero. -/
def lowestBound : ByteBuffer.Bytes := [48, 120, 49]

theorem accesses_in_bounds_one_frame :
    AccessesInBounds (oneAddress 1 1) ↔ 0 ≤ (oneAddress 1 1).totalVirtualAddressInputLength ∧
      EveryStepFits (oneAddress 1 1) :=
  accesses_in_bounds_iff (fun _ => none) (oneAddressArgs 49 lowestBound) (oneAddress 1 1) rfl
    (by decide)

/-- Without frames there is no victim either. -/
theorem accesses_out_of_bounds :
    parseArguments (fun _ => none) (oneAddressArgs 48 lowestBound) = .ok (oneAddress 0 1) ∧
      ¬ AccessesInBounds (oneAddress 0 1) := by
  refine ⟨rfl, fun h => ?_⟩
  let rand : RandomValues := fun _ => 0
  have hs : simulate (oneAddress 0 1).toParamStore []
      = .ok (initialState (oneAddress 0 1).toParamStore) := simulate_nil_eq_ok.mpr ⟨by decide, rfl⟩
  have hnext : getNextVirtualAddress (oneAddress 0 1) rand (initParamsIterator (oneAddress 0 1))
      = .ok (0, { nextVirtualAddress := [], iterationCount := 1, calls := 0 }) := rfl
  obtain ⟨s', hs'⟩ := h rand _ _ (.next .init rfl hnext)
  have hfits := ((simulate_concat_defined_iff (by decide) hs).mp ⟨s', hs'⟩).2
  rcases hfits (by decide) rfl with ⟨f, hf, -⟩ | ⟨-, -, page, hpage, -⟩
  · cases hf
  · exact not_resident_init page hpage

end Cs342.Paging
