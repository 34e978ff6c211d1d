import Mathlib
import Cs342.Cfs.Params

/-!
# Processes of a workload (`utility.c`, `workload_params.c`)

The generator asks an iterator for its processes. In mode `F` they are the nodes of a list; in mode
`C` they are drawn at random, as many as `total_process_count` says. The values of `rand` are given
from outside, and so is the floating-point function that exponential draws use. A draw by rejection
need not end, so draws are given a bound for it, and yield nothing when the bound is reached.
-/

namespace Cs342.Cfs

/-! ## Random numbers -/

/-- What a double can be, as far as it is compared and rounded here. -/
inductive Double where
  | finite (x : ℚ)
  | infinite (negative : Bool)
  | nan

namespace Double

/-- `x < n`. -/
def ltInt : Double → Int → Bool
  | finite x, n => x < n
  | infinite negative, _ => negative
  | nan, _ => false

/-- `x > n`. -/
def gtInt : Double → Int → Bool
  | finite x, n => n < x
  | infinite negative, _ => !negative
  | nan, _ => false

/-- The int that `round(x)` is converted to: the nearest one, and away from zero between two. -/
def toInt : Double → Outcome Int
  | finite x => Scanf.toInt (if 0 ≤ x then ⌊x + 1 / 2⌋ else ⌈x - 1 / 2⌉)
  | _ => .undefined

end Double

/-- The values of `rand`, call after call, and the double `-log(1 - u) / lambda` for an average and
the value of `rand` that `u` comes from. -/
structure RandomSource where
  rand : Nat → Fin (2 ^ 31)
  sample : Int → Fin (2 ^ 31) → Double

/-- A computation that draws random numbers, from the given call of `rand` on. Its result is `none`
while a rejection loop goes on. -/
def Draw (α : Type) := Nat → Outcome (Option (α × Nat))

namespace Draw

variable {α β : Type}

instance : Monad Draw where
  pure a := fun i => .ok (some (a, i))
  bind x f := fun i => do
    match ← x i with
    | some (a, j) => f a j
    | none => return none

theorem bind_eq_some {x : Draw α} {f : α → Draw β} {i : Nat} {r : β × Nat} :
    (x >>= f) i = .ok (some r) ↔ ∃ a j, x i = .ok (some (a, j)) ∧ f a j = .ok (some r) := by
  constructor
  · intro h
    obtain ⟨result, hx, h⟩ := Outcome.bind_eq_ok.mp h
    cases result with
    | none => cases h
    | some p => exact ⟨p.1, p.2, hx, h⟩
  · rintro ⟨a, j, hx, hf⟩
    exact Outcome.bind_eq_ok.mpr ⟨some (a, j), hx, hf⟩

/-- A statement without a draw. -/
def lift (x : Outcome α) : Draw α := fun i => do
  let a ← x
  return some (a, i)

end Draw

/-- The next value of `rand`. -/
def rand (source : RandomSource) : Draw (Fin (2 ^ 31)) := fun i =>
  .ok (some (source.rand i, i + 1))

/-- `RAND_MAX`. -/
def randMax : Int := 2 ^ 31 - 1

/-- The result of an operation on ints. -/
def intResult (n : Int) : Draw Int := Draw.lift (Scanf.toInt n)

/-- A quotient of ints. -/
def intQuotient (n d : Int) : Draw Int := if d = 0 then Draw.lift .undefined else intResult (n.tdiv d)

def getRandomInRange (source : RandomSource) (rangeStart rangeEnd : Int) : Draw Int := do
  if rangeStart = rangeEnd then return rangeStart
  let raw ← rand source
  let difference ← intResult (rangeEnd - rangeStart)
  let count ← intResult (difference + 1)
  let quotient ← intQuotient randMax count
  let width ← intResult (quotient + 1)
  let scaled ← intQuotient raw.val width
  intResult (rangeStart + scaled)

/-- The loop draws until the number is in the range; nothing is outside of it for a NaN. -/
def getExponentialRandom (source : RandomSource) (rangeAverage rangeStart rangeEnd : Int) :
    (fuel : Nat) → Draw Int
  | 0 => fun _ => .ok none
  | fuel + 1 => do
    let raw ← rand source
    let x := source.sample rangeAverage raw
    if x.ltInt rangeStart || x.gtInt rangeEnd then
      getExponentialRandom source rangeAverage rangeStart rangeEnd fuel
    else Draw.lift x.toInt

/-! ## The iterator -/

/-- One draw from a distribution. -/
def getDistributed (source : RandomSource) (fuel : Nat) (distribution : DistributionMethod)
    (average rangeStart rangeEnd : Int) : Draw Int :=
  match distribution with
  | .fixed => pure average
  | .uniform => getRandomInRange source rangeStart rangeEnd
  | .exponential => getExponentialRandom source average rangeStart rangeEnd fuel

def getDistributedProcessLength (source : RandomSource) (fuel : Nat) (params : CommandlineParams) :
    Draw Int :=
  getDistributed source fuel params.processLengthDistribution params.averageProcessLength
    params.minProcessLength params.maxProcessLength

def getDistributedInterarrivalTime (source : RandomSource) (fuel : Nat)
    (params : CommandlineParams) : Draw Int :=
  getDistributed source fuel params.interarrivalTimeDistribution params.averageInterarrivalTime
    params.minInterarrivalTime params.maxInterarrivalTime

/-- The initialiser of `random_process`. C leaves the order of the three calls open; this is the
order of the members. -/
def randomProcess (source : RandomSource) (fuel : Nat) (params : CommandlineParams) :
    Draw ProcessParams := do
  let length ← getDistributedProcessLength source fuel params
  let priority ← getRandomInRange source params.minPriority params.maxPriority
  let interarrivalTime ← getDistributedInterarrivalTime source fuel params
  return { length, priority, interarrivalTime }

/-- `struct workload_param_process_iterator`. -/
structure ParamsIterator where
  paramStore : WorkloadParamStore
  nextProcessParams : ProcessList
  iterationCount : Int

def initParamsIterator (paramStore : WorkloadParamStore) : ParamsIterator where
  paramStore := paramStore
  nextProcessParams :=
    match paramStore.params with
    | .commandline _ => some []
    | .file processes => processes
  iterationCount := 0

def hasNextProcess (iterator : ParamsIterator) : Bool :=
  match iterator.paramStore.params with
  | .commandline _ =>
    decide (iterator.paramStore.commonParams.totalProcessCount > iterator.iterationCount)
  | .file _ => decide (iterator.nextProcessParams ≠ some [])

def getNextProcess (source : RandomSource) (fuel : Nat) (iterator : ParamsIterator) :
    Draw (ProcessParams × ParamsIterator) :=
  match iterator.paramStore.params with
  | .commandline params => do
    let process ← randomProcess source fuel params
    return (process, { iterator with iterationCount := iterator.iterationCount + 1 })
  | .file _ =>
    match iterator.nextProcessParams with
    | some (node :: next) =>
      pure (node, { iterator with
        nextProcessParams := some next
        iterationCount := iterator.iterationCount + 1 })
    | _ => Draw.lift .undefined

/-- The processes of the loop `while (has_next_process(&iterator))`, for a number of rounds. -/
def iterate (source : RandomSource) (fuel : Nat) : Nat → ParamsIterator → Draw (List ProcessParams)
  | 0, _ => fun _ => .ok none
  | rounds + 1, iterator =>
    if hasNextProcess iterator then do
      let (process, iterator) ← getNextProcess source fuel iterator
      let processes ← iterate source fuel rounds iterator
      return process :: processes
    else return []

/-- The iterator yields these processes, and then no more. -/
def Yields (source : RandomSource) (paramStore : WorkloadParamStore)
    (processes : List ProcessParams) : Prop :=
  ∃ fuel rounds i, iterate source fuel rounds (initParamsIterator paramStore) 0
    = .ok (some (processes, i))

/-! ## How many processes there are -/

/-- Some processes can be drawn one after the other: every draw is defined, and ends. -/
inductive Drawable (source : RandomSource) (fuel : Nat) (params : CommandlineParams) :
    Nat → Nat → Prop
  | done (i : Nat) : Drawable source fuel params 0 i
  | next {n i j : Nat} {process : ProcessParams}
      (hprocess : randomProcess source fuel params i = .ok (some (process, j)))
      (hrest : Drawable source fuel params n j) : Drawable source fuel params (n + 1) i

section Iterator

variable {source : RandomSource} {fuel : Nat} {iterator : ParamsIterator}

/-- In mode `F`, the iterator runs through the list. -/
theorem iterate_file {processes : ProcessList}
    (hparams : iterator.paramStore.params = .file processes) {i j rounds : Nat}
    {yielded : List ProcessParams}
    (h : iterate source fuel rounds iterator i = .ok (some (yielded, j))) :
    iterator.nextProcessParams = some yielded := by
  induction rounds generalizing iterator i yielded with
  | zero => cases h
  | succ rounds ih =>
      rw [iterate] at h
      split at h
      · obtain ⟨⟨process, iterator'⟩, k, hnext, h⟩ := Draw.bind_eq_some.mp h
        obtain ⟨rest, k', hrest, h⟩ := Draw.bind_eq_some.mp h
        cases h
        rw [getNextProcess, hparams] at hnext
        dsimp only at hnext
        cases hlist : iterator.nextProcessParams with
        | none =>
            rw [hlist] at hnext
            cases hnext
        | some list =>
            rw [hlist] at hnext
            cases list with
            | nil => cases hnext
            | cons node next =>
                cases hnext
                cases ih (by exact hparams) hrest
                rfl
      · next hlast =>
          cases h
          simpa [hasNextProcess, hparams] using hlast

theorem exists_iterate_file {processes : ProcessList}
    (hparams : iterator.paramStore.params = .file processes) {list : List ProcessParams}
    (hlist : iterator.nextProcessParams = some list) (i : Nat) :
    iterate source fuel (list.length + 1) iterator i = .ok (some (list, i)) := by
  induction list generalizing iterator with
  | nil =>
      have hlast : hasNextProcess iterator = false := by simp [hasNextProcess, hparams, hlist]
      rw [iterate, hlast]
      rfl
  | cons node next ih =>
      have hmore : hasNextProcess iterator = true := by simp [hasNextProcess, hparams, hlist]
      rw [List.length_cons, iterate, if_pos hmore]
      refine Draw.bind_eq_some.mpr ⟨_, i, by rw [getNextProcess, hparams, hlist]; rfl, ?_⟩
      exact Draw.bind_eq_some.mpr ⟨next, i, ih hparams rfl, rfl⟩

/-- In mode `C`, it draws as many processes as are left to `total_process_count`. -/
theorem iterate_commandline {params : CommandlineParams}
    (hparams : iterator.paramStore.params = .commandline params) {i j rounds : Nat}
    {yielded : List ProcessParams}
    (h : iterate source fuel rounds iterator i = .ok (some (yielded, j))) :
    yielded.length = (iterator.paramStore.commonParams.totalProcessCount
        - iterator.iterationCount).toNat ∧
      Drawable source fuel params yielded.length i := by
  induction rounds generalizing iterator i yielded with
  | zero => cases h
  | succ rounds ih =>
      rw [iterate] at h
      split at h
      · next hmore =>
          obtain ⟨⟨process, iterator'⟩, k, hnext, h⟩ := Draw.bind_eq_some.mp h
          obtain ⟨rest, k', hrest, h⟩ := Draw.bind_eq_some.mp h
          cases h
          rw [getNextProcess, hparams] at hnext
          obtain ⟨process', k'', hprocess, hnext⟩ := Draw.bind_eq_some.mp hnext
          cases hnext
          simp only [hasNextProcess, hparams, decide_eq_true_eq] at hmore
          obtain ⟨hlength, hdrawable⟩ := ih (by exact hparams) hrest
          refine ⟨?_, .next hprocess hdrawable⟩
          rw [List.length_cons, hlength]
          dsimp only
          omega
      · next hlast =>
          cases h
          simp only [hasNextProcess, hparams, decide_eq_true_eq, not_lt] at hlast
          refine ⟨?_, .done _⟩
          rw [List.length_nil]
          omega

theorem exists_iterate_commandline {params : CommandlineParams}
    (hparams : iterator.paramStore.params = .commandline params) {i n : Nat}
    (hn : n = (iterator.paramStore.commonParams.totalProcessCount
      - iterator.iterationCount).toNat)
    (hdrawable : Drawable source fuel params n i) :
    ∃ yielded j, iterate source fuel (n + 1) iterator i = .ok (some (yielded, j)) := by
  induction hdrawable generalizing iterator with
  | done i =>
      have hlast : hasNextProcess iterator = false := by
        simp only [hasNextProcess, hparams, decide_eq_false_iff_not]
        omega
      refine ⟨[], i, ?_⟩
      rw [iterate, hlast]
      rfl
  | @next n i k process hprocess _ ih =>
      have hmore : hasNextProcess iterator = true := by
        simp only [hasNextProcess, hparams, decide_eq_true_eq]
        omega
      let iterator' := { iterator with iterationCount := iterator.iterationCount + 1 }
      have hleft : n = (iterator'.paramStore.commonParams.totalProcessCount
          - iterator'.iterationCount).toNat := by
        show n = (iterator.paramStore.commonParams.totalProcessCount
          - (iterator.iterationCount + 1)).toNat
        omega
      obtain ⟨rest, j, hrest⟩ := @ih iterator' hparams hleft
      refine ⟨process :: rest, j, ?_⟩
      rw [iterate, if_pos hmore]
      refine Draw.bind_eq_some.mpr
        ⟨(process, iterator'), k, ?_, Draw.bind_eq_some.mpr ⟨rest, j, hrest, rfl⟩⟩
      rw [getNextProcess, hparams]
      exact Draw.bind_eq_some.mpr ⟨process, k, hprocess, rfl⟩

end Iterator

section Yields

variable {source : RandomSource} {paramStore : WorkloadParamStore} {processes : List ProcessParams}

/-- **Mode `F`**: the list of the file, node by node. -/
theorem yields_file_iff {list : ProcessList} (hparams : paramStore.params = .file list) :
    Yields source paramStore processes ↔ list = some processes := by
  have hfirst : (initParamsIterator paramStore).nextProcessParams = list := by
    simp only [initParamsIterator, hparams]
  constructor
  · rintro ⟨fuel, rounds, i, h⟩
    exact hfirst.symm.trans (iterate_file hparams h)
  · intro h
    exact ⟨0, processes.length + 1, 0, exists_iterate_file hparams (hfirst.trans h) 0⟩

/-- **Mode `C`**: `total_process_count` processes, if it is not negative and they can be drawn. -/
theorem yields_commandline_iff {params : CommandlineParams}
    (hparams : paramStore.params = .commandline params) (n : Nat) :
    (∃ processes, Yields source paramStore processes ∧ processes.length = n) ↔
      n = paramStore.commonParams.totalProcessCount.toNat ∧
        ∃ fuel, Drawable source fuel params n 0 := by
  have hleft : ((initParamsIterator paramStore).paramStore.commonParams.totalProcessCount
      - (initParamsIterator paramStore).iterationCount).toNat
        = paramStore.commonParams.totalProcessCount.toNat :=
    congrArg Int.toNat (Int.sub_zero _)
  constructor
  · rintro ⟨processes, ⟨fuel, rounds, i, h⟩, rfl⟩
    obtain ⟨hlength, hdrawable⟩ := iterate_commandline hparams h
    exact ⟨hlength.trans hleft, fuel, hdrawable⟩
  · rintro ⟨hn, fuel, hdrawable⟩
    have hcount := hn.trans hleft.symm
    obtain ⟨processes, i, h⟩ := exists_iterate_commandline (by exact hparams) hcount hdrawable
    refine ⟨processes, ⟨fuel, n + 1, i, h⟩, ?_⟩
    exact ((iterate_commandline hparams h).1.trans hleft).trans hn.symm

end Yields

/-- A source of zeros. -/
def zeros : RandomSource where
  rand := fun _ => 0
  sample := fun _ _ => .finite 0

end Cs342.Cfs
