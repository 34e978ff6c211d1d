import Mathlib
import Cs342.RandomRange

/-!
# Random workloads stay in their bounds (`get_next_process`)

A draw has no undefined behaviour as long as its bounds are in order: it goes on for ever, or ends
with a value that the parameters allow. For a uniform distribution that is a matter of scaling. An
exponential draw is accepted between two ints and rounded then, which does not lead across them. So
a workload consists of as many processes as asked for, and all are within the bounds
(`workload_in_bounds`).
-/

namespace Cs342.Cfs

/-! ## Draws with a property -/

namespace Draw

variable {α β : Type} {P : α → Prop} {Q : β → Prop}

/-- The draw goes on for ever, or gives a value with the property. -/
def Within (x : Draw α) (P : α → Prop) : Prop :=
  ∀ i, x i = .ok none ∨ ∃ a j, x i = .ok (some (a, j)) ∧ P a

theorem within_pure {a : α} (h : P a) : Within (pure a : Draw α) P :=
  fun i => .inr ⟨a, i, rfl, h⟩

/-- **Rule of composition.** -/
theorem Within.bind {x : Draw α} {f : α → Draw β} (hx : x.Within P)
    (hf : ∀ a, P a → (f a).Within Q) : (x >>= f).Within Q := by
  intro i
  rcases hx i with h | ⟨a, j, h, ha⟩
  · refine .inl ?_
    show (x i >>= _) = _
    rw [h]
    rfl
  · rcases hf a ha j with hnone | ⟨b, k, hsome, hb⟩
    · refine .inl ?_
      show (x i >>= _) = _
      rw [h]
      exact hnone
    · exact .inr ⟨b, k, bind_eq_some.mpr ⟨a, j, h, hsome⟩, hb⟩

theorem Within.of_some {x : Draw α} (h : x.Within P) {i j : Nat} {a : α}
    (hsome : x i = .ok (some (a, j))) : P a := by
  rcases h i with hnone | ⟨b, k, hb, hP⟩
  · cases hnone.symm.trans hsome
  · cases hb.symm.trans hsome
    exact hP

end Draw

/-! ## One value -/

/-- The bounds of a random value are in order, and an int counts the values between them. -/
structure OrderedRange (rangeStart rangeEnd : Int) : Prop where
  start : -2 ^ 31 ≤ rangeStart
  stop : rangeEnd < 2 ^ 31
  le : rangeStart ≤ rangeEnd
  count : rangeEnd - rangeStart + 1 < 2 ^ 31

/-- The values that a distribution allows. -/
def DistributionMethod.Allows (distribution : DistributionMethod)
    (average rangeStart rangeEnd x : Int) : Prop :=
  match distribution with
  | .fixed => x = average
  | .uniform => rangeStart ≤ x ∧ x ≤ rangeEnd
  | .exponential => rangeStart ≤ x ∧ x ≤ rangeEnd

/-- No double that a draw with this average computes is a NaN. -/
def RandomSource.Real (source : RandomSource) (average : Int) : Prop :=
  ∀ i, source.sample average (source.rand i) ≠ .nan

/-- That goes for the draws of an exponential distribution only. -/
def DistributionMethod.Real (distribution : DistributionMethod) (source : RandomSource)
    (average : Int) : Prop :=
  distribution = .exponential → source.Real average

section Values

variable {source : RandomSource} {fuel : Nat} {rangeStart rangeEnd average : Int}

theorem getRandomInRange_within (h : OrderedRange rangeStart rangeEnd) :
    (getRandomInRange source rangeStart rangeEnd).Within
      fun x => rangeStart ≤ x ∧ x ≤ rangeEnd := by
  intro i
  exact .inr (exists_getRandomInRange source h.start h.stop h.le h.count i)

/-- **Rounding** does not lead across an int. -/
theorem Double.toInt_of_accepted (h : OrderedRange rangeStart rangeEnd) {x : Double}
    (hnan : x ≠ .nan) (haccepted : (x.ltInt rangeStart || x.gtInt rangeEnd) = false) :
    ∃ n, x.toInt = .ok n ∧ rangeStart ≤ n ∧ n ≤ rangeEnd := by
  cases x with
  | nan => exact absurd rfl hnan
  | infinite negative => cases negative <;> cases haccepted
  | finite x =>
      simp only [ltInt, gtInt, Bool.or_eq_false_iff, decide_eq_false_iff_not, not_lt]
        at haccepted
      obtain ⟨hstart, hend⟩ := haccepted
      have hround : rangeStart ≤ (if 0 ≤ x then ⌊x + 1 / 2⌋ else ⌈x - 1 / 2⌉) ∧
          (if 0 ≤ x then ⌊x + 1 / 2⌋ else ⌈x - 1 / 2⌉) ≤ rangeEnd := by
        split
        · constructor
          · exact Int.le_floor.mpr (by linarith)
          · refine Int.lt_add_one_iff.mp (Int.floor_lt.mpr ?_)
            push_cast
            linarith
        · constructor
          · refine Int.lt_add_one_iff.mp (sub_lt_iff_lt_add.mp (Int.lt_ceil.mpr ?_))
            push_cast
            linarith
          · exact Int.ceil_le.mpr (by linarith)
      have hmin := h.start
      have hmax := h.stop
      exact ⟨_, Scanf.toInt_eq_ok.mpr ⟨rfl, by omega, by omega⟩, hround⟩

/-- The test of the loop on the next raw number. -/
def RandomSource.rejects (source : RandomSource) (average rangeStart rangeEnd : Int)
    (raw : Fin (2 ^ 31)) : Bool :=
  (source.sample average raw).ltInt rangeStart || (source.sample average raw).gtInt rangeEnd

theorem getExponentialRandom_rejected {i : Nat}
    (h : source.rejects average rangeStart rangeEnd (source.rand i) = true) :
    getExponentialRandom source average rangeStart rangeEnd (fuel + 1) i
      = getExponentialRandom source average rangeStart rangeEnd fuel (i + 1) := by
  rw [getExponentialRandom, rand_bind]
  exact congrFun (if_pos h) (i + 1)

/-- An accepted number is rounded. -/
theorem getExponentialRandom_rounded {i : Nat}
    (h : source.rejects average rangeStart rangeEnd (source.rand i) = false) :
    getExponentialRandom source average rangeStart rangeEnd (fuel + 1) i
      = Draw.lift (source.sample average (source.rand i)).toInt (i + 1) := by
  rw [getExponentialRandom, rand_bind]
  exact congrFun (if_neg (ne_true_of_eq_false h)) (i + 1)

/-- It stays in the range. -/
theorem getExponentialRandom_accepted (h : OrderedRange rangeStart rangeEnd)
    (hreal : source.Real average) {i : Nat}
    (haccepted : source.rejects average rangeStart rangeEnd (source.rand i) = false) :
    ∃ n, rangeStart ≤ n ∧ n ≤ rangeEnd ∧ ∀ fuel,
      getExponentialRandom source average rangeStart rangeEnd (fuel + 1) i
        = .ok (some (n, i + 1)) := by
  obtain ⟨n, hn, hmin, hmax⟩ := Double.toInt_of_accepted h (hreal i) haccepted
  refine ⟨n, hmin, hmax, fun fuel => ?_⟩
  rw [getExponentialRandom_rounded haccepted, Draw.lift, hn]
  rfl

theorem getExponentialRandom_within (h : OrderedRange rangeStart rangeEnd)
    (hreal : source.Real average) :
    (getExponentialRandom source average rangeStart rangeEnd fuel).Within
      fun x => rangeStart ≤ x ∧ x ≤ rangeEnd := by
  induction fuel with
  | zero => exact fun i => .inl rfl
  | succ fuel ih =>
      intro i
      cases hrejects : source.rejects average rangeStart rangeEnd (source.rand i) with
      | true =>
          rw [getExponentialRandom_rejected hrejects]
          exact ih (i + 1)
      | false =>
          obtain ⟨n, hmin, hmax, hn⟩ := getExponentialRandom_accepted h hreal hrejects
          exact .inr ⟨n, i + 1, hn fuel, hmin, hmax⟩

/-- **One draw** from a distribution. -/
theorem getDistributed_within (h : OrderedRange rangeStart rangeEnd)
    (distribution : DistributionMethod) (hreal : distribution.Real source average) :
    (getDistributed source fuel distribution average rangeStart rangeEnd).Within
      (distribution.Allows average rangeStart rangeEnd) := by
  cases distribution with
  | fixed => exact Draw.within_pure rfl
  | uniform => exact getRandomInRange_within h
  | exponential => exact getExponentialRandom_within h (hreal rfl)

end Values

/-! ## The processes -/

/-- All three pairs of bounds are in order. -/
structure CommandlineParams.Ordered (params : CommandlineParams) : Prop where
  priority : OrderedRange params.minPriority params.maxPriority
  processLength : OrderedRange params.minProcessLength params.maxProcessLength
  interarrivalTime : OrderedRange params.minInterarrivalTime params.maxInterarrivalTime

/-- The two distributions of the parameters draw no NaN. -/
structure CommandlineParams.Real (params : CommandlineParams) (source : RandomSource) : Prop where
  processLength : params.processLengthDistribution.Real source params.averageProcessLength
  interarrivalTime :
    params.interarrivalTimeDistribution.Real source params.averageInterarrivalTime

/-- The processes that parameters allow. -/
structure CommandlineParams.Allows (params : CommandlineParams) (process : ProcessParams) :
    Prop where
  priority : params.minPriority ≤ process.priority ∧ process.priority ≤ params.maxPriority
  length : params.processLengthDistribution.Allows params.averageProcessLength
    params.minProcessLength params.maxProcessLength process.length
  interarrivalTime : params.interarrivalTimeDistribution.Allows params.averageInterarrivalTime
    params.minInterarrivalTime params.maxInterarrivalTime process.interarrivalTime

section Processes

variable {source : RandomSource} {fuel : Nat} {params : CommandlineParams}

theorem randomProcess_within (h : params.Ordered) (hreal : params.Real source) :
    (randomProcess source fuel params).Within params.Allows := by
  refine (getDistributed_within h.processLength _ hreal.processLength).bind
    fun length hlength => ?_
  refine (getRandomInRange_within h.priority).bind fun priority hpriority => ?_
  refine (getDistributed_within h.interarrivalTime _ hreal.interarrivalTime).bind
    fun time htime => ?_
  exact Draw.within_pure ⟨hpriority, hlength, htime⟩

theorem getNextProcess_within (h : params.Ordered) (hreal : params.Real source)
    {iterator : ParamsIterator} (hparams : iterator.paramStore.params = .commandline params) :
    (getNextProcess source fuel iterator).Within fun p =>
      params.Allows p.1 ∧ p.2.paramStore = iterator.paramStore := by
  rw [getNextProcess, hparams]
  exact (randomProcess_within h hreal).bind fun process hprocess =>
    Draw.within_pure ⟨hprocess, rfl⟩

/-- **Run lemma**: all processes that the iterator yields. -/
theorem iterate_within (h : params.Ordered) (hreal : params.Real source) (rounds : Nat)
    {iterator : ParamsIterator} (hparams : iterator.paramStore.params = .commandline params) :
    (iterate source fuel rounds iterator).Within fun processes =>
      ∀ process ∈ processes, params.Allows process := by
  induction rounds generalizing iterator with
  | zero => exact fun i => .inl rfl
  | succ rounds ih =>
      rw [iterate]
      split
      · refine (getNextProcess_within h hreal hparams).bind fun p hp => ?_
        refine (ih (hp.2 ▸ hparams)).bind fun processes hprocesses => Draw.within_pure ?_
        intro process hmem
        rcases List.mem_cons.mp hmem with rfl | hmem
        · exact hp.1
        · exact hprocesses process hmem
      · exact Draw.within_pure fun process hmem => absurd hmem List.not_mem_nil

end Processes

/-! ## When the rejection loops end -/

namespace Draw

variable {α β : Type}

/-- From every call of `rand` on, the draw ends as soon as its bound is large enough. -/
def Settles (x : Nat → Draw α) : Prop :=
  ∀ i, ∃ least a j, ∀ fuel ≥ least, x fuel i = .ok (some (a, j))

theorem settles_of_within {x : Draw α} {P : α → Prop}
    (h : ∀ i, ∃ a j, x i = .ok (some (a, j)) ∧ P a) : Settles fun _ => x := by
  intro i
  obtain ⟨a, j, hx, -⟩ := h i
  exact ⟨0, a, j, fun _ _ => hx⟩

theorem settles_pure (a : α) : Settles fun _ => (pure a : Draw α) :=
  fun i => ⟨0, a, i, fun _ _ => rfl⟩

theorem Settles.bind {x : Nat → Draw α} {f : Nat → α → Draw β} (hx : Settles x)
    (hf : ∀ a, Settles fun fuel => f fuel a) : Settles fun fuel => x fuel >>= f fuel := by
  intro i
  obtain ⟨least, a, j, hx⟩ := hx i
  obtain ⟨least', b, k, hf⟩ := hf a j
  refine ⟨max least least', b, k, fun fuel hfuel => ?_⟩
  exact bind_eq_some.mpr ⟨a, j, hx fuel (le_trans (le_max_left _ _) hfuel),
    hf fuel (le_trans (le_max_right _ _) hfuel)⟩

end Draw

/-- From every call of `rand` on, there is one whose number is accepted. -/
def RandomSource.Accepts (source : RandomSource) (average rangeStart rangeEnd : Int) : Prop :=
  ∀ i, ∃ j ≥ i, source.rejects average rangeStart rangeEnd (source.rand j) = false

/-- Exponential distributions find numbers to accept. -/
def DistributionMethod.Ends (distribution : DistributionMethod) (source : RandomSource)
    (average rangeStart rangeEnd : Int) : Prop :=
  distribution = .exponential → source.Accepts average rangeStart rangeEnd

section Ends

variable {source : RandomSource} {params : CommandlineParams}
  {rangeStart rangeEnd average : Int}

theorem getExponentialRandom_settles (h : OrderedRange rangeStart rangeEnd)
    (hreal : source.Real average) (haccepts : source.Accepts average rangeStart rangeEnd) :
    Draw.Settles fun fuel => getExponentialRandom source average rangeStart rangeEnd fuel := by
  have hnow : ∀ i, source.rejects average rangeStart rangeEnd (source.rand i) = false →
      ∃ least n j, ∀ fuel ≥ least,
        getExponentialRandom source average rangeStart rangeEnd fuel i = .ok (some (n, j)) := by
    intro i hi
    obtain ⟨n, -, -, hn⟩ := getExponentialRandom_accepted h hreal hi
    refine ⟨1, n, i + 1, fun fuel hfuel => ?_⟩
    rw [← Nat.sub_add_cancel hfuel, hn]
  intro i
  obtain ⟨k, hk, haccepted⟩ := haccepts i
  induction hd : k - i generalizing i with
  | zero =>
      obtain rfl : k = i := by omega
      exact hnow k haccepted
  | succ d ih =>
      cases hrejects : source.rejects average rangeStart rangeEnd (source.rand i) with
      | false => exact hnow i hrejects
      | true =>
          -- one round more than from the next number on
          obtain ⟨least, n, j, hrest⟩ := ih (i + 1) (by omega) (by omega)
          refine ⟨least + 1, n, j, fun fuel hfuel => ?_⟩
          dsimp only
          rw [← Nat.sub_add_cancel (le_trans (Nat.le_add_left 1 least) hfuel),
            getExponentialRandom_rejected hrejects]
          exact hrest (fuel - 1) (by omega)

theorem getDistributed_settles (h : OrderedRange rangeStart rangeEnd)
    (distribution : DistributionMethod) (hreal : distribution.Real source average)
    (hends : distribution.Ends source average rangeStart rangeEnd) :
    Draw.Settles fun fuel =>
      getDistributed source fuel distribution average rangeStart rangeEnd := by
  cases distribution with
  | fixed => exact Draw.settles_pure average
  | uniform =>
      exact Draw.settles_of_within (exists_getRandomInRange source h.start h.stop h.le h.count)
  | exponential => exact getExponentialRandom_settles h (hreal rfl) (hends rfl)

/-- The two distributions of the parameters find numbers to accept. -/
structure CommandlineParams.Ends (params : CommandlineParams) (source : RandomSource) : Prop where
  processLength : params.processLengthDistribution.Ends source params.averageProcessLength
    params.minProcessLength params.maxProcessLength
  interarrivalTime : params.interarrivalTimeDistribution.Ends source
    params.averageInterarrivalTime params.minInterarrivalTime params.maxInterarrivalTime

theorem randomProcess_settles (h : params.Ordered) (hreal : params.Real source)
    (hends : params.Ends source) : Draw.Settles fun fuel => randomProcess source fuel params := by
  have hpriority := h.priority
  refine (getDistributed_settles h.processLength _ hreal.processLength hends.processLength).bind
    fun length => ?_
  refine (Draw.settles_of_within (exists_getRandomInRange source hpriority.start hpriority.stop
    hpriority.le hpriority.count)).bind fun priority => ?_
  refine (getDistributed_settles h.interarrivalTime _ hreal.interarrivalTime
    hends.interarrivalTime).bind fun time => ?_
  exact Draw.settles_pure _

/-- So many processes are drawn, with one bound for all of them. -/
theorem exists_drawable (h : params.Ordered) (hreal : params.Real source) (hends : params.Ends source)
    (n i : Nat) : ∃ least, ∀ fuel ≥ least, Drawable source fuel params n i := by
  induction n generalizing i with
  | zero => exact ⟨0, fun fuel _ => .done i⟩
  | succ n ih =>
      obtain ⟨least, process, j, hprocess⟩ := randomProcess_settles h hreal hends i
      obtain ⟨least', hrest⟩ := ih j
      exact ⟨max least least', fun fuel hfuel =>
        .next (hprocess fuel (le_trans (le_max_left _ _) hfuel))
          (hrest fuel (le_trans (le_max_right _ _) hfuel))⟩

/-- **Enough numbers**: if the exponential distributions find numbers to accept, a bound on the
rounds is enough for all of them. -/
theorem exists_iterate_ne_none {paramStore : WorkloadParamStore}
    (hparams : paramStore.params = .commandline params) (h : params.Ordered)
    (hreal : params.Real source) (hends : params.Ends source) :
    ∃ fuel rounds, iterate source fuel rounds (initParamsIterator paramStore) 0 ≠ .ok none := by
  obtain ⟨least, hdrawable⟩ := exists_drawable h hreal hends
    (paramStore.commonParams.totalProcessCount - 0).toNat 0
  have hmode : (initParamsIterator paramStore).paramStore.params = .commandline params := hparams
  obtain ⟨processes, j, hiterate⟩ :=
    exists_iterate_commandline hmode rfl (hdrawable least le_rfl)
  exact ⟨least, _, by rw [hiterate]; simp⟩

end Ends

/-! ## The workload -/

/-- **Bounds of a random workload.** If the bounds are in order and some bound on the rounds is
enough for all rejection loops, the iterator yields processes. Whenever it does, they are as many as
asked for, and every one is within the bounds. -/
theorem workload_in_bounds (paramStore : WorkloadParamStore) (params : CommandlineParams)
    (hparams : paramStore.params = .commandline params) (hordered : params.Ordered)
    (source : RandomSource) (hreal : params.Real source)
    (hends : ∃ fuel rounds,
      iterate source fuel rounds (initParamsIterator paramStore) 0 ≠ .ok none) :
    (∃ processes, Yields source paramStore processes) ∧
      ∀ processes, Yields source paramStore processes →
        (processes.length : Int) = max paramStore.commonParams.totalProcessCount 0 ∧
        ∀ process ∈ processes, params.Allows process := by
  constructor
  · obtain ⟨fuel, rounds, hne⟩ := hends
    have hmode : (initParamsIterator paramStore).paramStore.params = .commandline params := hparams
    rcases iterate_within hordered hreal rounds hmode 0 with hnone | ⟨processes, j, hsome, -⟩
    · exact absurd hnone hne
    · exact ⟨processes, fuel, rounds, j, hsome⟩
  · rintro processes ⟨fuel, rounds, j, hsome⟩
    have hlength := (iterate_commandline hparams hsome).1
    refine ⟨?_, (iterate_within hordered hreal rounds hparams).of_some hsome⟩
    rw [hlength, Int.ofNat_toNat]
    exact congrArg (max · 0) (Int.sub_zero _)

/-- Two processes with priorities and lengths below zero, and a fixed time. -/
def negativeParams : CommandlineParams where
  minPriority := -20
  maxPriority := -3
  processLengthDistribution := .exponential
  averageProcessLength := 5
  minProcessLength := -7
  maxProcessLength := 10
  interarrivalTimeDistribution := .uniform
  averageInterarrivalTime := 0
  minInterarrivalTime := -100
  maxInterarrivalTime := -50

theorem ordered_negativeParams : negativeParams.Ordered :=
  ⟨⟨by decide, by decide, by decide, by decide⟩, ⟨by decide, by decide, by decide, by decide⟩,
    ⟨by decide, by decide, by decide, by decide⟩⟩

/-- Two processes from these bounds. -/
def negativeStore : WorkloadParamStore where
  commonParams := ⟨10, 2, 1, none⟩
  params := .commandline negativeParams

theorem real_zeros (params : CommandlineParams) : params.Real zeros :=
  ⟨fun _ _ => by simp [zeros], fun _ _ => by simp [zeros]⟩

/-- Zero is between the bounds of the lengths, so each first draw is accepted. -/
theorem ends_negativeParams : negativeParams.Ends zeros where
  processLength := by
    have haccepted : zeros.rejects 5 (-7) 10 0 = false := by decide
    exact fun _ i => ⟨i, le_rfl, haccepted⟩
  interarrivalTime := by
    rintro ⟨⟩

theorem workload_in_bounds_negative :
    (∃ processes, Yields zeros negativeStore processes) ∧
      ∀ processes, Yields zeros negativeStore processes →
        (processes.length : Int) = max 2 0 ∧
        ∀ process ∈ processes, negativeParams.Allows process :=
  workload_in_bounds negativeStore negativeParams rfl ordered_negativeParams zeros (real_zeros _)
    (exists_iterate_ne_none rfl ordered_negativeParams (real_zeros _) ends_negativeParams)

end Cs342.Cfs
