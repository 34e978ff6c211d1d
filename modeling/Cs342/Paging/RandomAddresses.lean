import Mathlib
import Cs342.Library.Scaling
import Cs342.Paging.Params
import Cs342.Paging.Runs

/-!
# Random addresses (`get_random_in_range`)

A random number is scaled down to the range without an overflow, and stays below the end of the
range, whatever `rand` has returned (`getRandomInRange_zero`). The end of the region is an int,
though. One from the upper half of the address space is negative, and then the region holds no
address at all: **`random_addresses_legal_iff`**.
-/

namespace Cs342.Paging

open Scaling

/-- Every address that is asked for is computed and lies in a region. -/
def EveryAddressLegal (params : FullParamStore) (rand : RandomValues) : Prop :=
  ∀ addresses iterator, Delivers params rand addresses iterator →
    hasNextVirtualAddress params iterator = true →
    ∃ address iterator', getNextVirtualAddress params rand iterator = .ok (address, iterator') ∧
      isVirtualAddressInRange params.virtualRegions address = true

/-- All addresses are legal, and no entry of the result store is an exception. -/
def RandomAddressesLegal (params : FullParamStore) (rand : RandomValues) : Prop :=
  EveryAddressLegal params rand ∧
    ∀ addresses iterator s, Delivers params rand addresses iterator →
      simulate params.toParamStore addresses = .ok s →
      ∀ result ∈ s.results, result.unusedMemoryAccessException = false

/-! ## The scaling -/

theorem intQuotient_of_nonneg {n d : Int} (hn : 0 ≤ n) (hmax : n ≤ randMax) (hd : 0 < d) :
    intQuotient n d = .ok (n / d) := by
  have hlo : 0 ≤ n / d := Int.ediv_nonneg hn hd.le
  have hhi : n / d ≤ n := Int.ediv_le_self _ hn
  have hint : -2 ^ 31 ≤ n / d ∧ n / d < 2 ^ 31 := by
    unfold randMax at hmax
    omega
  rw [intQuotient, if_neg (by omega), Int.tdiv_eq_ediv_of_nonneg hn]
  exact Scanf.toInt_eq_ok.mpr ⟨rfl, hint⟩

theorem raw_range (raw : Fin (2 ^ 31)) : 0 ≤ (raw.val : Int) ∧ (raw.val : Int) ≤ randMax := by
  have := raw.isLt
  unfold randMax
  omega

/-- **Scaling**: a number from a range is computed without an overflow. -/
theorem getRandomInRange_eq (rand : RandomValues) (calls : Nat) {rangeStart rangeEnd : Int}
    (hstart : -2 ^ 31 ≤ rangeStart) (hend : rangeEnd < 2 ^ 31) (hlt : rangeStart < rangeEnd)
    (hcount : rangeEnd - rangeStart + 1 < 2 ^ 31) :
    getRandomInRange rand calls rangeStart rangeEnd = .ok
      (rangeStart + scaled randMax (rangeEnd - rangeStart + 1) (rand calls).val, calls + 1) := by
  have hraw := raw_range (rand calls)
  have hn : 0 < rangeEnd - rangeStart + 1 := by omega
  have hwidth := width_pos (show 0 ≤ randMax by decide) hn
  have hquotient : randMax / (rangeEnd - rangeStart + 1) < 2 ^ 30 :=
    Int.ediv_lt_of_lt_mul hn (by unfold randMax; omega)
  have hx0 := scaled_nonneg (show 0 ≤ randMax by decide) hn hraw.1
  have hx := scaled_lt (show 0 ≤ randMax by decide) hn hraw.2
  unfold scaled at hx0 hx ⊢
  rw [getRandomInRange, if_neg hlt.ne, Scanf.toInt_eq_ok.mpr ⟨rfl, by omega⟩, Outcome.ok_bind,
    Scanf.toInt_eq_ok.mpr ⟨rfl, by omega⟩, Outcome.ok_bind,
    intQuotient_of_nonneg (by decide) le_rfl hn, Outcome.ok_bind,
    Scanf.toInt_eq_ok.mpr ⟨rfl, by omega⟩, Outcome.ok_bind,
    intQuotient_of_nonneg hraw.1 hraw.2 hwidth, Outcome.ok_bind,
    Scanf.toInt_eq_ok.mpr ⟨rfl, by omega⟩]
  rfl

/-- A number from a range of one number is no matter of `rand`. -/
theorem getRandomInRange_self (rand : RandomValues) (calls : Nat) (n : Int) :
    getRandomInRange rand calls n n = .ok (n, calls) := if_pos rfl

/-- **Numbers from zero on** are computed, and are in the range. -/
theorem getRandomInRange_zero (rand : RandomValues) (calls : Nat) {n : Int} (hpos : 0 < n)
    (hn : n < 2 ^ 31) :
    ∃ x calls', getRandomInRange rand calls 0 (n - 1) = .ok (x, calls') ∧ 0 ≤ x ∧ x < n := by
  by_cases hone : n = 1
  · exact ⟨0, calls, by rw [hone]; rfl, le_rfl, hpos⟩
  · have hraw := raw_range (rand calls)
    refine ⟨_, _, getRandomInRange_eq rand calls (by norm_num) (by omega) (by omega) (by omega),
      ?_, ?_⟩
    · rw [zero_add, sub_zero, Int.sub_add_cancel]
      exact scaled_nonneg (by decide) hpos hraw.1
    · rw [zero_add, sub_zero, Int.sub_add_cancel]
      exact scaled_lt (by decide) hpos hraw.2

/-! ## Legal addresses -/

section Legal

variable {paramStore : ParamStore} {s s' : SimulationState} {address : BitVec 32}
  {addresses : List (BitVec 32)}

theorem handlePageFault_exception {t : Nat} {page : PageIndex} {memory memory' : Memory}
    {result result' : PagingResult}
    (h : handlePageFault paramStore t page memory result = .ok (memory', result')) :
    result'.unusedMemoryAccessException = result.unusedMemoryAccessException := by
  obtain ⟨free, -, h⟩ := Outcome.bind_eq_ok.mp h
  split at h
  · obtain ⟨victim, -, h⟩ := Outcome.bind_eq_ok.mp h
    obtain ⟨⟨frame, outerTable⟩, -, h⟩ := Outcome.bind_eq_ok.mp h
    obtain ⟨frames, -, h⟩ := Outcome.bind_eq_ok.mp h
    cases h
    rfl
  · obtain ⟨⟨frame, outerTable⟩, -, h⟩ := Outcome.bind_eq_ok.mp h
    obtain ⟨frames, -, h⟩ := Outcome.bind_eq_ok.mp h
    cases h
    rfl

/-- An address in a region is no exception. -/
theorem simulateAddress_exception
    (hrange : isVirtualAddressInRange paramStore.virtualRegions address = true)
    (hnone : ∀ result ∈ s.results, result.unusedMemoryAccessException = false)
    (h : simulateAddress paramStore s address = .ok s') :
    ∀ result ∈ s'.results, result.unusedMemoryAccessException = false := by
  obtain ⟨current, hcurrent, -⟩ := Outcome.bind_eq_ok.mp h
  have hslot : s.results[s.t]? = some current := Outcome.ofOption_eq_ok.mp hcurrent
  have hold : current.unusedMemoryAccessException = false :=
    hnone current (List.mem_of_getElem? hslot)
  cases hvalid : (s.memory.outerTable (pageOf address)).valid with
  | true =>
      rw [simulateAddress_hit hslot hrange hvalid] at h
      cases h
      intro result hresult
      rcases List.mem_or_eq_of_mem_set hresult with hmem | rfl
      · exact hnone result hmem
      · exact hold
  | false =>
      rw [simulateAddress_miss hslot hrange hvalid] at h
      obtain ⟨⟨memory, served⟩, hfault, h⟩ := Outcome.bind_eq_ok.mp h
      cases h
      intro result hresult
      rcases List.mem_or_eq_of_mem_set hresult with hmem | rfl
      · exact hnone result hmem
      · exact (handlePageFault_exception hfault).trans hold

/-- **Addresses in regions only** leave no exception in the result store. -/
theorem simulate_exception
    (hrange : ∀ address ∈ addresses,
      isVirtualAddressInRange paramStore.virtualRegions address = true)
    (h : simulate paramStore addresses = .ok s) :
    ∀ result ∈ s.results, result.unusedMemoryAccessException = false := by
  induction addresses using List.reverseRecOn generalizing s with
  | nil =>
      obtain ⟨-, rfl⟩ := simulate_nil_eq_ok.mp h
      intro result hresult
      rw [List.eq_of_mem_replicate hresult]
      rfl
  | append_singleton addresses address ih =>
      rw [simulate_concat] at h
      obtain ⟨mid, hmid, hlast⟩ := Outcome.bind_eq_ok.mp h
      have hmem : ∀ a ∈ addresses, isVirtualAddressInRange paramStore.virtualRegions a = true :=
        fun a ha => hrange a (List.mem_append_left _ ha)
      exact simulateAddress_exception (hrange address (by simp)) (ih hmem hmid) hlast

theorem isVirtualAddressInRange_single {pastEnd : BitVec 32} :
    isVirtualAddressInRange [{ base := 0, pastEnd := pastEnd }] address = true ↔
      0 ≤ address.toInt ∧ address.toInt < pastEnd.toInt := by
  simp [isVirtualAddressInRange]

variable {params : FullParamStore} {rand : RandomValues}
  {iterator iterator' : VirtualAddressIterator} {pastEnd : BitVec 32}

/-- Below an end that is not negative every address is computed and lies in the region. -/
theorem getNextVirtualAddress_legal (hmethod : params.inputMethod = .random)
    (hregions : params.virtualRegions = [{ base := 0, pastEnd := pastEnd }])
    (hpos : 0 < pastEnd.toInt) (h0 : 0 ≤ iterator.iterationCount)
    (hcount : iterator.iterationCount < 2 ^ 31 - 1) :
    ∃ address iterator', getNextVirtualAddress params rand iterator = .ok (address, iterator') ∧
      isVirtualAddressInRange params.virtualRegions address = true := by
  have hlt : pastEnd.toInt < 2 ^ 31 := BitVec.toInt_lt
  obtain ⟨x, calls, hx, hx0, hxlt⟩ := getRandomInRange_zero rand iterator.calls hpos hlt
  have hend : Scanf.toInt (pastEnd.toInt - 1) = .ok (pastEnd.toInt - 1) :=
    Scanf.toInt_eq_ok.mpr ⟨rfl, by omega⟩
  have hcounted : Scanf.toInt (iterator.iterationCount + 1) = .ok (iterator.iterationCount + 1) :=
    Scanf.toInt_eq_ok.mpr ⟨rfl, by omega⟩
  have hint : (BitVec.ofInt 32 x).toInt = x := BitVec.toInt_ofInt_eq_self (by decide)
    (by omega) (by omega)
  refine ⟨BitVec.ofInt 32 x,
    { iterator with iterationCount := iterator.iterationCount + 1, calls := calls }, ?_, ?_⟩
  · simp only [getNextVirtualAddress, takeVirtualAddress, hmethod, hregions, List.head?_cons,
      Outcome.ofOption_some, Outcome.ok_bind, hend, hx, Outcome.pure_eq, hcounted]
  · rw [hregions, isVirtualAddressInRange_single, hint]
    exact ⟨hx0, hxlt⟩

/-- Where every next address is legal, all that were handed out are. -/
theorem Delivers.in_range (hlegal : EveryAddressLegal params rand)
    (h : Delivers params rand addresses iterator) :
    ∀ address ∈ addresses, isVirtualAddressInRange params.virtualRegions address = true := by
  induction h with
  | init => intro address h; cases h
  | next hdelivers hnext haddress ih =>
      obtain ⟨address, iterator', hok, hrange⟩ := hlegal _ _ hdelivers hnext
      cases hok.symm.trans haddress
      intro a ha
      rcases List.mem_append.mp ha with ha | ha
      · exact ih a ha
      · rw [List.mem_singleton.mp ha]
        exact hrange

/-- No address is legal below an end that is negative or zero. -/
theorem not_randomAddressesLegal (hmethod : params.inputMethod = .random)
    (hregions : params.virtualRegions = [{ base := 0, pastEnd := pastEnd }])
    (htotal : 0 < params.totalVirtualAddressInputLength) (hpastEnd : pastEnd.toInt ≤ 0) :
    ¬ RandomAddressesLegal params rand := by
  intro h
  have hnext : hasNextVirtualAddress params (initParamsIterator params) = true := by
    simp [hasNextVirtualAddress, initParamsIterator, hmethod, htotal]
  obtain ⟨address, iterator', -, hrange⟩ := h.1 _ _ .init hnext
  rw [hregions, isVirtualAddressInRange_single] at hrange
  omega

end Legal

/-- **Random addresses.** For a bound from the command line and whatever `rand` returns, all random
addresses are legal exactly if none is asked for or the bound is positive as an int. -/
theorem random_addresses_legal_iff (files : Files) (args : List CString) (params : FullParamStore)
    (rand : RandomValues) (pastEnd : CString)
    (hparse : parseArguments files args = .ok params) (hargs : args.length = 9)
    (hpastEnd : args[6]? = some pastEnd) :
    RandomAddressesLegal params rand ↔
      params.totalVirtualAddressInputLength ≤ 0 ∨ 0 < (Strtol.strtolInt pastEnd).toInt := by
  rcases parseArguments_cases hparse with
    ⟨-, hmethod, hmax, pastEnd', hpastEnd', hregions⟩ | ⟨hfile, -⟩
  · cases hpastEnd.symm.trans hpastEnd'
    constructor
    · intro h
      by_contra hnot
      exact not_randomAddressesLegal hmethod hregions (by omega) (by omega) h
    · intro h
      have hlegal : EveryAddressLegal params rand := by
        intro addresses iterator hdelivers hnext
        have hcount := hdelivers.count
        have hlt := hdelivers.lt_total hparse hnext
        exact getNextVirtualAddress_legal hmethod hregions (h.resolve_left (by omega))
          (by omega) (by omega)
      exact ⟨hlegal, fun addresses iterator s hdelivers hs =>
        simulate_exception (hdelivers.in_range hlegal) hs⟩
  · exact absurd hargs hfile

/-- `0x10000`. -/
def lowBound : ByteBuffer.Bytes := [48, 120, 49, 48, 48, 48, 48]

/-- `0xffff0000`. -/
def highBound : ByteBuffer.Bytes := [48, 120, 102, 102, 102, 102, 48, 48, 48, 48]

theorem random_addresses_legal_low :
    RandomAddressesLegal (oneAddress 1 0x10000) (fun _ => 0) ↔
      (oneAddress 1 0x10000).totalVirtualAddressInputLength ≤ 0 ∨
        0 < (Strtol.strtolInt (CString.ofBytes lowBound)).toInt :=
  random_addresses_legal_iff (fun _ => none) (oneAddressArgs 49 lowBound) (oneAddress 1 0x10000)
    (fun _ => 0) (CString.ofBytes lowBound) rfl rfl rfl

/-- Nearly all addresses are below this bound, but no random address is in the region. -/
theorem random_addresses_illegal :
    parseArguments (fun _ => none) (oneAddressArgs 49 highBound) = .ok (oneAddress 1 0xffff0000) ∧
      (oneAddressArgs 49 highBound)[6]? = some (CString.ofBytes highBound) ∧
      Strtol.strtolInt (CString.ofBytes highBound) ≠ 0 ∧
      ∀ rand, ¬ RandomAddressesLegal (oneAddress 1 0xffff0000) rand :=
  ⟨rfl, rfl, by decide, fun _ => not_randomAddressesLegal rfl rfl (by decide) (by decide)⟩

end Cs342.Paging
