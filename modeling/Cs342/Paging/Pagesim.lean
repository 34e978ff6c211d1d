import Mathlib
import Cs342.Library.Loop
import Cs342.Library.PrintedText
import Cs342.Paging.Refinement
import Cs342.Paging.Regions

/-!
# The whole simulator (`main.c`)

`main` parses the arguments, serves one address after the other until the iterator has no more, and
prints a line for each result. What a run leaves behind is the file it has written.
-/

namespace Cs342.Paging

open ByteBuffer (Bytes)
open PrintedText (hexText lines newline blank withColumn firstColumn otherColumns)

/-! ## The program -/

/-- The variables of the loop of `run_paging_simulation`. -/
structure RunState where
  iterator : VirtualAddressIterator
  simulation : SimulationState

/-- One round of the loop. -/
def addressRound (params : FullParamStore) (rand : RandomValues) (s : RunState) :
    Outcome (ForInStep RunState) :=
  if hasNextVirtualAddress params s.iterator then do
    let (address, iterator) ← getNextVirtualAddress params rand s.iterator
    let simulation ← simulateAddress params.toParamStore s.simulation address
    return .yield { iterator, simulation }
  else
    return .done s

/-- What `fopen` can open for writing. -/
abbrev Writable := CString → Bool

/-- The address in front of a line. -/
def shownText (params : FullParamStore) (result : PagingResult) : Outcome Bytes :=
  if params.inputMethod = .random then do
    let virtualAddress ← Outcome.ofOption result.virtualAddress
    return hexText virtualAddress ++ [blank]
  else
    return []

/-- The exception, or the physical address. -/
def answerText (result : PagingResult) : Outcome Bytes :=
  if result.unusedMemoryAccessException then do
    let virtualAddress ← Outcome.ofOption result.virtualAddress
    return hexText virtualAddress ++ [blank, 101]
  else do
    let physicalAddress ← Outcome.ofOption result.physicalAddress
    return hexText (BitVec.ofInt 32 physicalAddress)

/-- The line of a result, up to its newline. -/
def resultText (params : FullParamStore) (result : PagingResult) : Outcome Bytes := do
  let shown ← shownText params result
  let answer ← answerText result
  return shown ++ (answer ++ if result.causedPageFault then [blank, 120] else [])

/-- The loop of `print_paging_results` at `i`, on the results from there on. -/
def printFrom (params : FullParamStore) : Int → List PagingResult → Outcome Bytes
  | i, [] => if i ≠ params.totalVirtualAddressInputLength then .undefined else .ok []
  | i, result :: results =>
    if i ≠ params.totalVirtualAddressInputLength then do
      let text ← resultText params result
      let rest ← printFrom params (i + 1) results
      return text ++ newline :: rest
    else .ok []

/-- What is written into the output file. -/
def printPagingResults (writable : Writable) (params : FullParamStore)
    (results : List PagingResult) : Outcome Bytes :=
  if writable params.outFileName then printFrom params 0 results
  else .exit 1 ("error: failed to open output file '" ++ params.outFileName.text ++ "'\n")

/-- `main`: the output file with its contents, unless the loop takes more than `fuel` rounds. -/
def pagesim (fuel : Nat) (files : Files) (writable : Writable) (args : List CString)
    (rand : RandomValues) : Outcome (Option (CString × Bytes)) := do
  let params ← parseArguments files args
  let simulation ← simulate params.toParamStore []
  match ← Loop.run (addressRound params rand) fuel
      { iterator := initParamsIterator params, simulation } with
  | none => return none
  | some s =>
    let contents ← printPagingResults writable params s.simulation.results
    return some (params.outFileName, contents)

/-- The run ends, and has written this file. -/
def Writes (files : Files) (writable : Writable) (args : List CString) (rand : RandomValues)
    (name : CString) (contents : Bytes) : Prop :=
  ∃ fuel, pagesim fuel files writable args rand = .ok (some (name, contents))

/-! ## The loop -/

section Loop

variable {params : FullParamStore} {rand : RandomValues} {s t : RunState}
  {addresses : List (BitVec 32)}

theorem addressRound_eq_yield :
    addressRound params rand s = .ok (.yield t) ↔
      hasNextVirtualAddress params s.iterator = true ∧ ∃ address,
        getNextVirtualAddress params rand s.iterator = .ok (address, t.iterator) ∧
        simulateAddress params.toParamStore s.simulation address = .ok t.simulation := by
  unfold addressRound
  split
  · next hnext =>
      simp only [Outcome.bind_eq_ok, Prod.exists]
      constructor
      · rintro ⟨address, iterator, hget, simulation, hsimulate, ⟨⟩⟩
        exact ⟨hnext, address, hget, hsimulate⟩
      · rintro ⟨-, address, hget, hsimulate⟩
        exact ⟨address, t.iterator, hget, t.simulation, hsimulate, rfl⟩
  · next hnext =>
      constructor
      · intro h
        cases h
      · rintro ⟨h, -⟩
        exact absurd h hnext

theorem addressRound_eq_done :
    addressRound params rand s = .ok (.done t) ↔
      hasNextVirtualAddress params s.iterator = false ∧ t = s := by
  unfold addressRound
  split
  · next hnext =>
      simp only [Outcome.bind_eq_ok, Prod.exists]
      constructor
      · rintro ⟨address, iterator, -, simulation, -, ⟨⟩⟩
      · rintro ⟨h, -⟩
        rw [hnext] at h
        cases h
  · next hnext =>
      rw [Bool.not_eq_true] at hnext
      constructor
      · intro h
        cases h
        exact ⟨hnext, rfl⟩
      · rintro ⟨-, rfl⟩
        rfl

/-- The state after these addresses. -/
def After (params : FullParamStore) (rand : RandomValues) (addresses : List (BitVec 32))
    (s : RunState) : Prop :=
  Delivers params rand addresses s.iterator ∧
    simulate params.toParamStore addresses = .ok s.simulation

/-- One round is one address. -/
theorem After.next (h : After params rand addresses s)
    (hround : addressRound params rand s = .ok (.yield t)) :
    ∃ address, After params rand (addresses ++ [address]) t := by
  obtain ⟨hnext, address, hget, hsimulate⟩ := addressRound_eq_yield.mp hround
  refine ⟨address, h.1.next hnext hget, ?_⟩
  rw [simulate_concat, h.2, Outcome.ok_bind, hsimulate]

theorem After.reaches {iterator : VirtualAddressIterator}
    (hdelivers : Delivers params rand addresses iterator)
    {simulation start : SimulationState}
    (hsimulate : simulate params.toParamStore addresses = .ok simulation)
    (hstart : simulate params.toParamStore [] = .ok start) :
    Loop.Reaches (addressRound params rand) ⟨initParamsIterator params, start⟩
      ⟨iterator, simulation⟩ := by
  induction hdelivers generalizing simulation with
  | init =>
      cases hstart.symm.trans hsimulate
      exact .refl
  | next _ hnext hget ih =>
      rw [simulate_concat] at hsimulate
      obtain ⟨mid, hmid, hlast⟩ := Outcome.bind_eq_ok.mp hsimulate
      exact (ih hmid).step (addressRound_eq_yield.mpr ⟨hnext, _, hget, hlast⟩)

/-- **The loop** ends when all addresses have been served. -/
theorem exits_iff {start : SimulationState}
    (hstart : simulate params.toParamStore [] = .ok start) :
    Loop.Exits (addressRound params rand) ⟨initParamsIterator params, start⟩ t ↔
      hasNextVirtualAddress params t.iterator = false ∧
        ∃ addresses, After params rand addresses t := by
  constructor
  · intro hexits
    suffices h : ∀ s, Loop.Exits (addressRound params rand) s t →
        (∃ addresses, After params rand addresses s) →
        hasNextVirtualAddress params t.iterator = false ∧
          ∃ addresses, After params rand addresses t from
      h _ hexits ⟨[], .init, hstart⟩
    intro s hexits
    refine hexits.induction (P := fun s => (∃ addresses, After params rand addresses s) → _)
      ?_ ?_
    · intro s hdone hafter
      obtain ⟨hnext, rfl⟩ := addressRound_eq_done.mp hdone
      exact ⟨hnext, hafter⟩
    · rintro s s' hyield - ih ⟨addresses, hafter⟩
      obtain ⟨address, hafter'⟩ := hafter.next hyield
      exact ih ⟨_, hafter'⟩
  · rintro ⟨hnext, addresses, hdelivers, hsimulate⟩
    have hreaches := After.reaches hdelivers hsimulate hstart
    have hdone : Loop.Exits (addressRound params rand) t t :=
      Loop.exits_iff.mpr (.inl (addressRound_eq_done.mpr ⟨hnext, rfl⟩))
    refine hreaches.head_induction_on hdone ?_
    intro s s' hyield _ hexits
    exact Loop.exits_iff.mpr (.inr ⟨s', hyield, hexits⟩)

end Loop

/-! ## The results -/

section Results

variable {paramStore : ParamStore} {s s' : SimulationState} {address : BitVec 32}
  {addresses : List (BitVec 32)}

theorem handlePageFault_result {t : Nat} {page : PageIndex} {memory : Memory}
    {result : PagingResult} {r : Memory × PagingResult}
    (h : handlePageFault paramStore t page memory result = .ok r) :
    r.2.virtualAddress = result.virtualAddress := by
  obtain ⟨free, -, h⟩ := Outcome.bind_eq_ok.mp h
  split at h
  · obtain ⟨victim, -, h⟩ := Outcome.bind_eq_ok.mp h
    obtain ⟨⟨frame, outerTable⟩, -, h⟩ := Outcome.bind_eq_ok.mp h
    obtain ⟨frames, -, h⟩ := Outcome.bind_eq_ok.mp h
    cases h
    rfl
  · obtain ⟨⟨frame, outerTable⟩, -, h⟩ := Outcome.bind_eq_ok.mp h
    obtain ⟨frames, -, h⟩ := Outcome.bind_eq_ok.mp h
    cases h
    rfl

/-- One iteration writes one entry, with its address. -/
theorem simulateAddress_entry (h : simulateAddress paramStore s address = .ok s') :
    ∃ result, result.virtualAddress = some address ∧ s'.t = s.t + 1 ∧
      s'.results = s.results.set s.t result := by
  obtain ⟨result, -, h⟩ := Outcome.bind_eq_ok.mp h
  dsimp only at h
  split at h
  · cases h
    exact ⟨_, rfl, rfl, rfl⟩
  · obtain ⟨found, -, h⟩ := Outcome.bind_eq_ok.mp h
    split at h
    · obtain ⟨r, hload, h⟩ := Outcome.bind_eq_ok.mp h
      cases h
      refine ⟨_, ?_, rfl, rfl⟩
      exact handlePageFault_result hload
    · cases h
      exact ⟨_, rfl, rfl, rfl⟩

/-- The store has the length that was asked for, and the entries that have been written hold the
addresses, in order. -/
theorem simulate_addresses (h : simulate paramStore addresses = .ok s) :
    s.t = addresses.length ∧ (s.results.length : Int) = paramStore.totalVirtualAddressInputLength ∧
      (s.results.take s.t).map PagingResult.virtualAddress = addresses.map some := by
  induction addresses using List.reverseRecOn generalizing s with
  | nil =>
      obtain ⟨htotal, rfl⟩ := simulate_nil_eq_ok.mp h
      refine ⟨rfl, ?_, rfl⟩
      rw [initialState, List.length_replicate]
      exact Int.toNat_of_nonneg htotal
  | append_singleton addresses address ih =>
      rw [simulate_concat] at h
      obtain ⟨mid, hmid, hlast⟩ := Outcome.bind_eq_ok.mp h
      obtain ⟨ht, hlength, haddresses⟩ := ih hmid
      have hlt : mid.t < mid.results.length := by
        obtain ⟨result, hresult, -⟩ := Outcome.bind_eq_ok.mp hlast
        exact (List.getElem?_eq_some_iff.mp (Outcome.ofOption_eq_ok.mp hresult)).1
      obtain ⟨result, hresult, ht', hresults⟩ := simulateAddress_entry hlast
      refine ⟨by rw [ht', ht, List.length_append, List.length_singleton], ?_, ?_⟩
      · rw [hresults, List.length_set, hlength]
      · rw [hresults, ht', List.take_add_one, List.take_set_of_le le_rfl,
          List.getElem?_set_self hlt, List.map_append, haddresses, List.map_append]
        simp [hresult]

/-- The results of a whole run hold the addresses. -/
theorem runPagingSimulation_addresses {results : List PagingResult}
    (h : runPagingSimulation paramStore addresses = .ok results)
    (htotal : paramStore.totalVirtualAddressInputLength = addresses.length) :
    results.map PagingResult.virtualAddress = addresses.map some := by
  obtain ⟨s, hs, h⟩ := Outcome.bind_eq_ok.mp h
  cases h
  obtain ⟨ht, hlength, haddresses⟩ := simulate_addresses hs
  rwa [List.take_of_length_le (by omega)] at haddresses

end Results

/-! ## Printing -/

section Printing

variable {params : FullParamStore} {rand : RandomValues} {results : List PagingResult}
  {contents : Bytes}

/-- **The loop of the output** prints a line for each result. -/
theorem printFrom_eq_ok {i : Int}
    (hlength : i + results.length = params.totalVirtualAddressInputLength) :
    printFrom params i results = .ok contents ↔ ∃ texts,
      List.Forall₂ (fun result text => resultText params result = .ok text) results texts ∧
        contents = lines texts := by
  induction results generalizing i contents with
  | nil =>
      have hi : i = params.totalVirtualAddressInputLength := by simpa using hlength
      rw [printFrom, if_neg (not_not.mpr hi), Outcome.ok.injEq]
      constructor
      · rintro rfl
        exact ⟨[], .nil, rfl⟩
      · rintro ⟨texts, ⟨⟩, rfl⟩
        rfl
  | cons result results ih =>
      rw [List.length_cons] at hlength
      have hi : i ≠ params.totalVirtualAddressInputLength := by omega
      have hrest := fun contents => @ih contents (i + 1) (by omega)
      rw [printFrom, if_pos hi]
      simp only [Outcome.bind_eq_ok, hrest]
      constructor
      · rintro ⟨text, htext, rest, ⟨texts, htexts, rfl⟩, ⟨⟩⟩
        exact ⟨text :: texts, .cons htext htexts, (PrintedText.lines_cons text texts).symm⟩
      · rintro ⟨texts, htexts, rfl⟩
        cases htexts with
        | cons htext htexts =>
            exact ⟨_, htext, _, ⟨_, htexts, rfl⟩,
              congrArg Outcome.ok (PrintedText.lines_cons _ _).symm⟩

/-- Where the iterator has no more, it has handed out as many addresses as were asked for. -/
theorem delivers_total {files : Files} {args : List CString} {addresses : List (BitVec 32)}
    {iterator : VirtualAddressIterator} (hparse : parseArguments files args = .ok params)
    (h : Delivers params rand addresses iterator)
    (hend : hasNextVirtualAddress params iterator = false)
    (htotal : 0 ≤ params.totalVirtualAddressInputLength) :
    params.totalVirtualAddressInputLength = addresses.length := by
  have hle : (addresses.length : Int) ≤ params.totalVirtualAddressInputLength := by
    cases h with
    | init => exact htotal
    | next h hnext _ =>
        have := h.lt_total hparse hnext
        rw [List.length_append, List.length_singleton]
        omega
  rcases parseArguments_cases hparse with
    ⟨-, hmethod, -⟩ | ⟨-, hmethod, virtualAddresses, hlist, hcount⟩
  · simp only [hasNextVirtualAddress, hmethod, decide_true, Bool.true_and, reduceCtorEq,
      decide_false, Bool.false_and, Bool.or_false, decide_eq_false_iff_not] at hend
    have := h.count
    omega
  · have hsplit := congrArg List.length (h.file hmethod)
    have hnil : iterator.nextVirtualAddress = [] := by
      simpa [hasNextVirtualAddress, hmethod] using hend
    rw [hlist, hnil, List.append_nil, Option.getD_some] at hsplit
    rw [hcount, hsplit]

/-- What happens in a run that ends and has written its file. -/
structure Finished (files : Files) (writable : Writable) (args : List CString)
    (rand : RandomValues) (params : FullParamStore) (addresses : List (BitVec 32))
    (results : List PagingResult) (texts : List Bytes) : Prop where
  parse : parseArguments files args = .ok params
  delivers : ∃ iterator, Delivers params rand addresses iterator ∧
    hasNextVirtualAddress params iterator = false
  run : runPagingSimulation params.toParamStore addresses = .ok results
  total : params.totalVirtualAddressInputLength = addresses.length
  writable : writable params.outFileName = true
  texts : List.Forall₂ (fun result text => resultText params result = .ok text) results texts

/-- **The program** parses, serves the addresses and prints the results. -/
theorem writes_iff {files : Files} {writable : Writable} {args : List CString} {name : CString} :
    Writes files writable args rand name contents ↔ ∃ params addresses results texts,
      Finished files writable args rand params addresses results texts ∧
        name = params.outFileName ∧ contents = lines texts := by
  constructor
  · rintro ⟨fuel, h⟩
    obtain ⟨params, hparse, h⟩ := Outcome.bind_eq_ok.mp h
    obtain ⟨start, hstart, h⟩ := Outcome.bind_eq_ok.mp h
    obtain ⟨last, hloop, h⟩ := Outcome.bind_eq_ok.mp h
    cases last with
    | none => cases h
    | some last =>
        obtain ⟨printed, hprint, h⟩ := Outcome.bind_eq_ok.mp h
        cases h
        obtain ⟨hend, addresses, hdelivers, hsimulate⟩ := (exits_iff hstart).mp ⟨fuel, hloop⟩
        have htotal := delivers_total hparse hdelivers hend (simulate_nil_eq_ok.mp hstart).1
        obtain ⟨-, hlength, -⟩ := simulate_addresses hsimulate
        unfold printPagingResults at hprint
        split at hprint
        · next hwritable =>
            obtain ⟨texts, htexts, rfl⟩ := (printFrom_eq_ok (by omega)).mp hprint
            have hrun : runPagingSimulation params.toParamStore addresses
                = .ok last.simulation.results := by
              rw [runPagingSimulation, hsimulate]
              rfl
            exact ⟨params, addresses, _, texts,
              ⟨hparse, ⟨_, hdelivers, hend⟩, hrun, htotal, hwritable, htexts⟩, rfl, rfl⟩
        · cases hprint
  · rintro ⟨params, addresses, results, texts, h, rfl, rfl⟩
    obtain ⟨hparse, ⟨iterator, hdelivers, hend⟩, hrun, htotal, hwritable, htexts⟩ := h
    obtain ⟨simulation, hsimulate, hresults⟩ := Outcome.bind_eq_ok.mp hrun
    cases hresults
    have hstart : simulate params.toParamStore [] = .ok (initialState params.toParamStore) :=
      simulate_nil_eq_ok.mpr ⟨by omega, rfl⟩
    obtain ⟨fuel, hloop⟩ := (exits_iff (t := ⟨iterator, simulation⟩) hstart).mpr
      ⟨hend, addresses, hdelivers, hsimulate⟩
    obtain ⟨-, hlength, -⟩ := simulate_addresses hsimulate
    have hprint := (printFrom_eq_ok (i := 0) (by omega)).mpr ⟨texts, htexts, rfl⟩
    refine ⟨fuel, ?_⟩
    rw [pagesim, hparse, Outcome.ok_bind, hstart, Outcome.ok_bind, hloop, Outcome.ok_bind]
    dsimp only
    rw [printPagingResults, if_pos hwritable, hprint]
    rfl

end Printing

end Cs342.Paging
