import Mathlib
import Cs342.Library.Replacement
import Cs342.Paging.Invariant

/-!
# The simulation refines the reference machines

`Simulates` relates the two tables to the list of a reference machine: the list holds exactly the
valid pages with their frames, in the order of the time by which the algorithm chooses its victim.
The head of the list is then the page the nested loops find, whatever the table still holds in
entries that are no longer valid. `PageStep.simulates` is the step lemma, one case per kind of step,
and `simulate_refines` the run; **`runPagingSimulation_lru`** and **`runPagingSimulation_fifo`**
are the two algorithms.
-/

namespace Cs342.Paging

open Replacement (Served access serve lruTouch fifoTouch)

/-- What a hit does to the list, for each algorithm. -/
def policyTouch : ReplacementAlgorithm →
    Replacement.Resident PageIndex → PageIndex × Nat → Replacement.Resident PageIndex
  | .fifo => fifoTouch
  | _ => lruTouch

/-- The page an address asks for, if it lies in a region (both taken as ints). -/
def request (paramStore : ParamStore) (address : BitVec 32) : Option PageIndex :=
  if ∃ region ∈ paramStore.virtualRegions,
      region.base.toInt ≤ address.toInt ∧ address.toInt < region.pastEnd.toInt
  then some (pageOf address) else none

theorem request_of_inRange {paramStore : ParamStore} {address : BitVec 32}
    (h : isVirtualAddressInRange paramStore.virtualRegions address = true) :
    request paramStore address = some (pageOf address) :=
  if_pos (isVirtualAddressInRange_iff.mp h)

theorem request_of_outOfRange {paramStore : ParamStore} {address : BitVec 32}
    (h : ¬ isVirtualAddressInRange paramStore.virtualRegions address = true) :
    request paramStore address = none :=
  if_neg fun hregion => h (isVirtualAddressInRange_iff.mpr hregion)

/-- The entry of an address, from how its request was served. -/
def resultOf (address : BitVec 32) : Option Served → PagingResult
  | none => exceptionResult address
  | some served => servedResult address served.fault served.frame

/-- The list holds the valid pages with their frames, in the order of `time`. -/
structure Simulates (time : Page → Int) (memory : Memory)
    (resident : Replacement.Resident PageIndex) : Prop where
  mem_iff : ∀ p f, (p, f) ∈ resident ↔
    Resident memory.outerTable p ∧ (memory.outerTable p).frame = (f : Int)
  sorted : resident.Pairwise fun d e =>
    time (memory.outerTable d.1) < time (memory.outerTable e.1)

section Step

variable {m t t' : Nat} {time : Page → Int} {memory : Memory} {page : PageIndex}
  {resident : Replacement.Resident PageIndex} {algorithm : ReplacementAlgorithm}

theorem victimTime_loadedPage (algorithm : ReplacementAlgorithm) (frame t : Nat) :
    victimTime algorithm (loadedPage frame t) = t := by
  cases algorithm <;> rfl

theorem victimTime_le (algorithm : ReplacementAlgorithm) (hinv : MemoryInv m used t memory)
    {p : PageIndex} (hp : Resident memory.outerTable p) :
    victimTime algorithm (memory.outerTable p) ≤ t := by
  have := hinv.times p hp
  cases algorithm <;> simp only [victimTime] <;> omega

theorem Simulates.nodup_pages (hsim : Simulates time memory resident) :
    (resident.map Prod.fst).Nodup := by
  rw [List.Nodup, List.pairwise_map]
  apply hsim.sorted.imp
  intro d e hlt heq
  rw [heq] at hlt
  exact lt_irrefl _ hlt

theorem Simulates.nodup (hsim : Simulates time memory resident) : resident.Nodup :=
  hsim.nodup_pages.of_map _

theorem Simulates.not_mem (hsim : Simulates time memory resident)
    (hnot : ¬ Resident memory.outerTable page) (frame : Nat) : (page, frame) ∉ resident :=
  fun h => hnot ((hsim.mem_iff page frame).mp h).1

/-- A sublist whose pages have kept their times, with a page of the latest time at its end. -/
theorem Simulates.sorted_concat {memory' : Memory} {rest : Replacement.Resident PageIndex}
    {frame : Nat} (hsim : Simulates (victimTime algorithm) memory resident)
    (hinv : MemoryInv m used t memory) (ht : t < t') (hrest : rest.Sublist resident)
    (hpage : victimTime algorithm (memory'.outerTable page) = t')
    (hkept : ∀ e ∈ rest, memory'.outerTable e.1 = memory.outerTable e.1) :
    (rest ++ [(page, frame)]).Pairwise fun d e =>
      victimTime algorithm (memory'.outerTable d.1)
        < victimTime algorithm (memory'.outerTable e.1) := by
  apply List.pairwise_append.mpr
  refine ⟨?_, List.pairwise_singleton _ _, ?_⟩
  · apply (hsim.sorted.sublist hrest).imp_of_mem
    intro d e hd he hlt
    rw [hkept d hd, hkept e he]
    exact hlt
  · intro d hd e he
    have hresident := ((hsim.mem_iff d.1 d.2).mp (hrest.subset hd)).1
    have hle := victimTime_le algorithm hinv hresident
    rw [List.mem_singleton.mp he, hkept d hd, hpage]
    omega

/-- The victim is the head of the list. -/
theorem Simulates.eq_cons (hsim : Simulates time memory resident) {victim : PageIndex} {frame : Nat}
    (hvictim : Resident memory.outerTable victim)
    (hframe : (memory.outerTable victim).frame = (frame : Int))
    (hmin : ∀ q, Resident memory.outerTable q →
      time (memory.outerTable victim) ≤ time (memory.outerTable q)) :
    ∃ rest, resident = (victim, frame) :: rest := by
  have hmem : (victim, frame) ∈ resident := (hsim.mem_iff victim frame).mpr ⟨hvictim, hframe⟩
  cases resident with
  | nil => cases hmem
  | cons first rest =>
      rcases List.mem_cons.mp hmem with h | h
      · exact ⟨rest, by rw [h]⟩
      · -- an entry behind the head has a later time than the head
        have hfirst := ((hsim.mem_iff first.1 first.2).mp List.mem_cons_self).1
        have hlt : time (memory.outerTable first.1) < time (memory.outerTable victim) :=
          (List.pairwise_cons.mp hsim.sorted).1 _ h
        have hle := hmin first.1 hfirst
        omega

theorem Simulates.hit (hsim : Simulates (victimTime algorithm) memory resident)
    (hinv : MemoryInv m used t memory) (ht : t < t') {frame : Nat}
    (hmem : (page, frame) ∈ resident) :
    Simulates (victimTime algorithm) (touchPage t' page memory)
      (policyTouch algorithm resident (page, frame)) := by
  have hframe : ∀ q, ((touchPage t' page memory).outerTable q).frame
      = (memory.outerTable q).frame := by
    intro q
    simp only [touchPage, Function.update_apply]
    split <;> simp [*]
  have hlru : Simulates (victimTime .lru) memory resident →
      Simulates (victimTime .lru) (touchPage t' page memory) (lruTouch resident (page, frame)) := by
    intro hsim
    refine ⟨?_, ?_⟩
    · intro p f
      rw [resident_touchPage, hframe, ← hsim.mem_iff,
        Replacement.mem_lruTouch hsim.nodup_pages hmem]
    · -- the touched page has the latest time, and comes last
      have hlast : victimTime .lru ((touchPage t' page memory).outerTable page) = t' := by
        simp [touchPage, victimTime]
      have hkept : ∀ e ∈ resident.filter (fun d => decide (d.1 ≠ page)),
          (touchPage t' page memory).outerTable e.1 = memory.outerTable e.1 := by
        intro e he
        have hne : e.1 ≠ page := of_decide_eq_true (List.mem_filter.mp he).2
        exact Function.update_of_ne hne _ _
      exact hsim.sorted_concat hinv ht List.filter_sublist hlast hkept
  cases algorithm with
  | lru => exact hlru hsim
  -- `victimTime` and `policyTouch` take it for LRU
  | unknown => exact hlru hsim
  | fifo =>
      -- a hit does not write `page_in_time`, so the queue stays as it is
      refine ⟨?_, ?_⟩
      · intro p f
        rw [resident_touchPage, hframe]
        exact hsim.mem_iff p f
      · apply hsim.sorted.imp
        intro d e hlt
        have hpageIn : ∀ q, ((touchPage t' page memory).outerTable q).pageInTime
            = (memory.outerTable q).pageInTime := by
          intro q
          simp only [touchPage, Function.update_apply]
          split <;> simp [*]
        simpa only [victimTime, hpageIn] using hlt

theorem Simulates.fill (hsim : Simulates (victimTime algorithm) memory resident)
    (hinv : MemoryInv m used t memory) (ht : t < t') (hpage : InTable page)
    (hnot : ¬ Resident memory.outerTable page) :
    Simulates (victimTime algorithm) (fillFrame used t' page memory)
      (resident ++ [(page, used)]) := by
  have hkept : ∀ q, Resident memory.outerTable q →
      (fillFrame used t' page memory).outerTable q = memory.outerTable q :=
    fun q hq => Function.update_of_ne (fun h : q = page => hnot (h ▸ hq)) _ _
  have hloaded := fillFrame_self used t' page memory
  refine ⟨?_, ?_⟩
  · intro p f
    rw [List.mem_append, List.mem_singleton, hsim.mem_iff, resident_fillFrame hpage]
    by_cases h : p = page
    · subst h
      simp [hnot, hloaded, loadedPage, eq_comm]
    · by_cases hp : Resident memory.outerTable p
      · simp [h, hp, hkept p hp]
      · simp [h, hp]
  · apply hsim.sorted_concat hinv ht (List.Sublist.refl _)
    · rw [hloaded, victimTime_loadedPage]
    · intro e he
      exact hkept e.1 ((hsim.mem_iff e.1 e.2).mp he).1

theorem Simulates.evict {rest : Replacement.Resident PageIndex} {victim : PageIndex} {frame : Nat}
    (hsim : Simulates (victimTime algorithm) memory ((victim, frame) :: rest))
    (hinv : MemoryInv m used t memory) (ht : t < t') (hpage : InTable page)
    (hnot : ¬ Resident memory.outerTable page) :
    Simulates (victimTime algorithm) (replacePage victim frame t' page memory)
      (rest ++ [(page, frame)]) := by
  have hkept : ∀ q, q ≠ victim → Resident memory.outerTable q →
      (replacePage victim frame t' page memory).outerTable q = memory.outerTable q := by
    intro q hv hq
    have hne : q ≠ page := fun h => hnot (h ▸ hq)
    show Function.update (Function.update memory.outerTable victim _) page _ q = _
    rw [Function.update_of_ne hne, Function.update_of_ne hv]
  have hloaded : (replacePage victim frame t' page memory).outerTable page
      = loadedPage frame t' := Function.update_self _ _ _
  have hnodup := hsim.nodup_pages
  rw [List.map_cons, List.nodup_cons] at hnodup
  -- the victim has no second entry
  have hrest : ∀ e ∈ rest, e.1 ≠ victim :=
    fun e he h => hnodup.1 (List.mem_map.mpr ⟨e, he, h⟩)
  refine ⟨?_, ?_⟩
  · intro p f
    rw [List.mem_append, List.mem_singleton, resident_replacePage hpage]
    have hmem := hsim.mem_iff p f
    rw [List.mem_cons] at hmem
    by_cases h : p = page
    · subst h
      have : (p, f) ∉ rest := fun hin => hnot (hmem.mp (Or.inr hin)).1
      simp [this, hloaded, loadedPage, eq_comm]
    · by_cases hv : p = victim
      · subst hv
        have : (p, f) ∉ rest := fun hin => hrest _ hin rfl
        simp [h, this]
      · by_cases hp : Resident memory.outerTable p
        · rw [hkept p hv hp]
          grind
        · grind
  · apply hsim.sorted_concat hinv ht (List.sublist_cons_self _ _)
    · rw [hloaded, victimTime_loadedPage]
    · intro e he
      exact hkept e.1 (hrest e he) ((hsim.mem_iff e.1 e.2).mp (List.mem_cons_of_mem _ he)).1

/-- **The step lemma**: what the tables do, the reference machine does. -/
theorem PageStep.simulates {used used' frame : Nat} {memory' : Memory} {fault : Bool}
    (hstep : PageStep m (victimTime algorithm) t' page used memory used' memory' fault frame)
    (hinv : MemoryInv m used t memory) (hused : resident.length = used) (ht : t < t')
    (hpage : InTable page) (hsim : Simulates (victimTime algorithm) memory resident) :
    ∃ resident', access (policyTouch algorithm) m resident page
        = (resident', { fault := fault, frame := frame }) ∧
      Simulates (victimTime algorithm) memory' resident' ∧ resident'.length = used' := by
  cases hstep with
  | hit hresident hframe =>
      have hmem : (page, frame) ∈ resident := (hsim.mem_iff page frame).mpr ⟨hresident, hframe⟩
      have hnext := hsim.hit hinv ht hmem
      refine ⟨_, Replacement.access_hit hsim.nodup_pages hmem, hnext, ?_⟩
      have hlru := Replacement.lruTouch_perm hsim.nodup_pages hmem
      cases algorithm with
      | fifo => exact hused
      | lru => rw [← hused]; exact hlru.length_eq
      | unknown => rw [← hused]; exact hlru.length_eq
  | fill hnot hlt =>
      subst hused
      refine ⟨_, Replacement.access_miss (hsim.not_mem hnot) hlt, hsim.fill hinv ht hpage hnot, ?_⟩
      simp
  | @evict _ victim _ hnot hvictim hmin hheld hframe =>
      -- the page with the smallest time is the head of the list
      obtain ⟨rest, rfl⟩ := hsim.eq_cons hvictim hheld hmin
      refine ⟨_, Replacement.access_evict (hsim.not_mem hnot) hused.ge,
        hsim.evict hinv ht hpage hnot, ?_⟩
      simpa using hused

end Step

/-! ## The run -/

section Run

variable {m : Nat} {paramStore : ParamStore}

/-- The reference machine of the chosen algorithm, on the requests of these addresses. -/
def referenceRun (m : Nat) (paramStore : ParamStore) (addresses : List (BitVec 32)) :
    Replacement.Resident PageIndex × List (Option Served) :=
  serve (access (policyTouch paramStore.replacementAlgorithm) m) []
    (addresses.map (request paramStore))

/-- The state after these addresses: the tables simulate the list of the reference machine, and the
results are its answers, followed by entries that have not been written. -/
structure Refines (m : Nat) (paramStore : ParamStore) (addresses : List (BitVec 32))
    (s : SimulationState) : Prop where
  time : s.t = addresses.length
  inv : MemoryInv m (referenceRun m paramStore addresses).1.length s.t s.memory
  sim : Simulates (victimTime paramStore.replacementAlgorithm) s.memory
    (referenceRun m paramStore addresses).1
  results : s.results
    = List.zipWith resultOf addresses (referenceRun m paramStore addresses).2 ++
      List.replicate (paramStore.totalVirtualAddressInputLength.toNat - addresses.length)
        initPagingResult
  frames : ∀ served, some served ∈ (referenceRun m paramStore addresses).2 → served.frame < m

theorem referenceRun_append (addresses : List (BitVec 32)) (address : BitVec 32) :
    referenceRun m paramStore (addresses ++ [address])
      = ((serve (access (policyTouch paramStore.replacementAlgorithm) m)
            (referenceRun m paramStore addresses).1 [request paramStore address]).1,
          (referenceRun m paramStore addresses).2 ++
            (serve (access (policyTouch paramStore.replacementAlgorithm) m)
              (referenceRun m paramStore addresses).1 [request paramStore address]).2) := by
  rw [referenceRun, List.map_append, Replacement.serve_append]
  rfl

theorem length_referenceRun (addresses : List (BitVec 32)) :
    (referenceRun m paramStore addresses).2.length = addresses.length := by
  rw [referenceRun, Replacement.length_serve, List.length_map]

theorem getElem?_unwritten {α : Type} {written : List α} {x : α} {t total : Nat}
    (ht : written.length = t) (hlt : t < total) :
    (written ++ List.replicate (total - t) x)[t]? = some x := by
  rw [List.getElem?_append_right ht.le, ht, Nat.sub_self, List.getElem?_replicate]
  rw [if_pos (by omega)]

theorem set_unwritten {α : Type} {written : List α} {x y : α} {t total : Nat}
    (ht : written.length = t) (hlt : t < total) :
    (written ++ List.replicate (total - t) x).set t y
      = (written ++ [y]) ++ List.replicate (total - (t + 1)) x := by
  have hsplit : total - t = total - (t + 1) + 1 := by omega
  rw [List.set_append_right _ _ ht.le, ht, Nat.sub_self, hsplit, List.replicate_succ,
    List.set_cons_zero, List.append_assoc, List.singleton_append]

/-- The entry of the next address has not been written, and writing it appends an answer. -/
theorem Refines.slot {addresses : List (BitVec 32)} {s : SimulationState}
    (hs : Refines m paramStore addresses s) (address : BitVec 32)
    (htotal : (addresses.length : Int) < paramStore.totalVirtualAddressInputLength) :
    s.results[s.t]? = some initPagingResult ∧ ∀ served,
      s.results.set s.t (resultOf address served)
        = List.zipWith resultOf (addresses ++ [address])
            ((referenceRun m paramStore addresses).2 ++ [served]) ++
          List.replicate (paramStore.totalVirtualAddressInputLength.toNat - (s.t + 1))
            initPagingResult := by
  have hlength : (referenceRun m paramStore addresses).2.length = addresses.length :=
    length_referenceRun addresses
  have hwritten : (List.zipWith resultOf addresses
      (referenceRun m paramStore addresses).2).length = s.t := by
    rw [List.length_zipWith, hlength, Nat.min_self, hs.time]
  have hlt : s.t < paramStore.totalVirtualAddressInputLength.toNat := by
    have := hs.time
    omega
  have hresults := hs.results
  rw [← hs.time] at hresults
  refine ⟨?_, fun served => ?_⟩
  · rw [hresults]
    exact getElem?_unwritten hwritten hlt
  · rw [hresults, set_unwritten hwritten hlt, List.zipWith_append hlength.symm]
    rfl

/-- One address more. -/
theorem Refines.step {addresses : List (BitVec 32)} {s : SimulationState}
    (hparams : ValidParams m paramStore) (hs : Refines m paramStore addresses s)
    (address : BitVec 32) (hlen : (addresses.length : Int) < timeLimit)
    (htotal : (addresses.length : Int) < paramStore.totalVirtualAddressInputLength) :
    ∃ s', simulateAddress paramStore s address = .ok s' ∧
      Refines m paramStore (addresses ++ [address]) s' := by
  obtain ⟨hslot, hset⟩ := hs.slot address htotal
  obtain ⟨htime, hinv, hsim, -, hframes⟩ := hs
  have hadded : s.t + 1 = (addresses ++ [address]).length := by simp [htime]
  have hbelow : (referenceRun m paramStore addresses).1.length = m →
      BelowLimit Page.lastUsedTime s.memory.outerTable :=
    fun h => hinv.belowLimit (hparams.pos.trans h.ge) (by omega)
  by_cases hrange : isVirtualAddressInRange paramStore.virtualRegions address = true
  · obtain ⟨used', memory', fault, frame, hok, hstep⟩ :=
      simulateAddress_inRange hparams hinv hbelow hslot hrange
    have hpage : InTable (pageOf address) := pageOf_lt address
    obtain ⟨resident', haccess, hsim', hused'⟩ :=
      hstep.simulates hinv rfl (Nat.lt_succ_self _) hpage hsim
    have hrun : referenceRun m paramStore (addresses ++ [address])
        = (resident', (referenceRun m paramStore addresses).2 ++
            [some { fault := fault, frame := frame }]) := by
      rw [referenceRun_append, request_of_inRange hrange]
      simp only [serve, haccess]
    refine ⟨_, hok, hadded, ?_, ?_, ?_, ?_⟩ <;> rw [hrun]
    · rw [hused']
      exact hstep.inv hinv (Nat.lt_succ_self _) hpage
    · exact hsim'
    · rw [← hadded]
      exact hset (some { fault := fault, frame := frame })
    · intro served hserved
      rcases List.mem_append.mp hserved with h | h
      · exact hframes served h
      · have : served = { fault := fault, frame := frame } := by simpa using h
        rw [this]
        exact hstep.frame_lt hinv
  · -- an exception leaves the tables alone, only time goes on
    have hout : isVirtualAddressInRange paramStore.virtualRegions address = false := by
      simpa using hrange
    have hrun : referenceRun m paramStore (addresses ++ [address])
        = ((referenceRun m paramStore addresses).1,
            (referenceRun m paramStore addresses).2 ++ [none]) := by
      rw [referenceRun_append, request_of_outOfRange hrange]
      simp only [serve]
    refine ⟨_, simulateAddress_outOfRange hslot hout, hadded, ?_, ?_, ?_, ?_⟩ <;> rw [hrun]
    · exact hinv.mono (Nat.le_succ _)
    · exact hsim
    · rw [← hadded]
      exact hset none
    · intro served hserved
      rcases List.mem_append.mp hserved with h | h
      · exact hframes served h
      · simp at h

/-- **The run**: the simulation refines the reference machine as long as no stored time reaches the
limit of the searches. -/
theorem simulate_refines (hparams : ValidParams m paramStore) (addresses : List (BitVec 32))
    (hlen : (addresses.length : Int) ≤ timeLimit)
    (htotal : (addresses.length : Int) ≤ paramStore.totalVirtualAddressInputLength) :
    ∃ s, simulate paramStore addresses = .ok s ∧ Refines m paramStore addresses s := by
  -- on the addresses from the end, since `Refines` speaks of those served so far
  induction addresses using List.reverseRecOn with
  | nil =>
      refine ⟨initialState paramStore, simulate_nil_eq_ok.mpr ⟨by simpa using htotal, rfl⟩, rfl,
        memoryInv_init m, ?_, ?_, ?_⟩
      · refine ⟨?_, List.Pairwise.nil⟩
        intro p f
        simp [initialState, not_resident_init, referenceRun, serve]
      · rfl
      · intro served h
        cases h
  | append_singleton addresses address ih =>
      rw [List.length_append, List.length_singleton] at hlen htotal
      obtain ⟨s, hok, hs⟩ := ih (by push_cast at hlen; omega) (by push_cast at htotal; omega)
      obtain ⟨s', hok', hs'⟩ := hs.step hparams address (by push_cast at hlen; omega)
        (by push_cast at htotal; omega)
      exact ⟨s', by rw [simulate_concat, hok, Outcome.ok_bind, hok'], hs'⟩

/-- The results of a whole run. -/
theorem runPagingSimulation_eq (hparams : ValidParams m paramStore) (addresses : List (BitVec 32))
    (hlen : (addresses.length : Int) ≤ timeLimit)
    (htotal : paramStore.totalVirtualAddressInputLength = addresses.length) :
    runPagingSimulation paramStore addresses
      = .ok (List.zipWith resultOf addresses (referenceRun m paramStore addresses).2) := by
  obtain ⟨s, hok, hs⟩ := simulate_refines hparams addresses hlen htotal.ge
  have hresults := hs.results
  rw [htotal, Int.toNat_natCast, Nat.sub_self, List.replicate_zero, List.append_nil] at hresults
  rw [runPagingSimulation, hok, Outcome.ok_bind, hresults]
  rfl

end Run

/-- **LRU**: the simulation answers every address as the reference machine does that evicts the
least recently referenced page. -/
theorem runPagingSimulation_lru (paramStore : ParamStore) (addresses : List (BitVec 32)) (m : Nat)
    (halgorithm : paramStore.replacementAlgorithm = .lru) (hm : paramStore.numOfFrames = m)
    (hpos : 1 ≤ m) (hmax : m ≤ maxFrameCount)
    (htotal : paramStore.totalVirtualAddressInputLength = addresses.length)
    (hlen : addresses.length ≤ 999999) :
    runPagingSimulation paramStore addresses
      = .ok (List.zipWith resultOf addresses
          (serve (Replacement.lruAccess m) [] (addresses.map (request paramStore))).2) := by
  have hknown : paramStore.replacementAlgorithm ≠ .unknown := by rw [halgorithm]; decide
  have hlimit : (addresses.length : Int) ≤ timeLimit := by unfold timeLimit; omega
  rw [runPagingSimulation_eq ⟨hm, hpos, hmax, hknown⟩ addresses hlimit htotal, referenceRun,
    halgorithm]
  rfl

/-- **FIFO**: the simulation answers every address as the reference machine does that evicts the
head of the queue. -/
theorem runPagingSimulation_fifo (paramStore : ParamStore) (addresses : List (BitVec 32)) (m : Nat)
    (halgorithm : paramStore.replacementAlgorithm = .fifo) (hm : paramStore.numOfFrames = m)
    (hpos : 1 ≤ m) (hmax : m ≤ maxFrameCount)
    (htotal : paramStore.totalVirtualAddressInputLength = addresses.length)
    (hlen : addresses.length ≤ 999999) :
    runPagingSimulation paramStore addresses
      = .ok (List.zipWith resultOf addresses
          (serve (Replacement.fifoAccess m) [] (addresses.map (request paramStore))).2) := by
  have hknown : paramStore.replacementAlgorithm ≠ .unknown := by rw [halgorithm]; decide
  have hlimit : (addresses.length : Int) ≤ timeLimit := by unfold timeLimit; omega
  rw [runPagingSimulation_eq ⟨hm, hpos, hmax, hknown⟩ addresses hlimit htotal, referenceRun,
    halgorithm]
  rfl

/-- Two frames, five addresses: under LRU the third page takes the frame of the second one. -/
theorem runPagingSimulation_lru_two_frames :
    runPagingSimulation
        { replacementAlgorithm := .lru
          numOfFrames := 2
          totalVirtualAddressInputLength := 5
          virtualRegions := [{ base := 0, pastEnd := 0x4000 }] }
        [0x0001, 0x1002, 0x0003, 0x2004, 0x5005]
      = .ok [servedResult 0x0001 true 0, servedResult 0x1002 true 1, servedResult 0x0003 false 0,
          servedResult 0x2004 true 1, exceptionResult 0x5005] :=
  runPagingSimulation_lru _ _ 2 rfl rfl (by decide) (by decide) rfl (by decide)

/-- The same addresses: under FIFO it takes the frame of the first one. -/
theorem runPagingSimulation_fifo_two_frames :
    runPagingSimulation
        { replacementAlgorithm := .fifo
          numOfFrames := 2
          totalVirtualAddressInputLength := 5
          virtualRegions := [{ base := 0, pastEnd := 0x4000 }] }
        [0x0001, 0x1002, 0x0003, 0x2004, 0x5005]
      = .ok [servedResult 0x0001 true 0, servedResult 0x1002 true 1, servedResult 0x0003 false 0,
          servedResult 0x2004 true 0, exceptionResult 0x5005] :=
  runPagingSimulation_fifo _ _ 2 rfl rfl (by decide) (by decide) rfl (by decide)

end Cs342.Paging
