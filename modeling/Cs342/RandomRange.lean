import Mathlib
import Cs342.Paging.RandomAddresses
import Cs342.Cfs.Iterator

/-!
# Random numbers from a range (`get_random_in_range`)

Both projects have a copy of the function, and the copies agree (`getRandomInRange_copies`). Each
number it returns is in the range. Not every number of the range is returned, however: that depends
on how `RAND_MAX` is divided by the size of the range (`random_draws_cover_iff`). Where the ends are
not in order, there may be numbers as well, and `rangeDraws_iff` says which.
-/

namespace Cs342

open Scaling

/-! ## The two copies -/

theorem lift_bind {α β : Type} (x : Outcome α) (f : α → Cfs.Draw β) (i : Nat) :
    (Cfs.Draw.lift x >>= f) i = x >>= fun a => f a i := by
  cases x <;> rfl

theorem rand_bind {β : Type} (source : Cfs.RandomSource) (f : Fin (2 ^ 31) → Cfs.Draw β)
    (i : Nat) : (Cfs.rand source >>= f) i = f (source.rand i) (i + 1) := rfl

theorem intQuotient_copies (n d : Int) :
    Cfs.intQuotient n d = Cfs.Draw.lift (Paging.intQuotient n d) := by
  unfold Cfs.intQuotient Paging.intQuotient
  split <;> rfl

/-- **The copies agree.** -/
theorem getRandomInRange_copies (source : Cfs.RandomSource) (rangeStart rangeEnd : Int) (i : Nat) :
    Cfs.getRandomInRange source rangeStart rangeEnd i =
      Paging.getRandomInRange source.rand i rangeStart rangeEnd >>= fun p => .ok (some p) := by
  unfold Cfs.getRandomInRange Paging.getRandomInRange
  split
  · rfl
  · simp only [bind_assoc, rand_bind, Cfs.intResult, lift_bind, intQuotient_copies]
    rfl

theorem getRandomInRange_copies_eq_some {source : Cfs.RandomSource} {rangeStart rangeEnd : Int}
    {i j : Nat} {x : Int} :
    Cfs.getRandomInRange source rangeStart rangeEnd i = .ok (some (x, j)) ↔
      Paging.getRandomInRange source.rand i rangeStart rangeEnd = .ok (x, j) := by
  rw [getRandomInRange_copies, Outcome.bind_eq_ok]
  simp

/-! ## The numbers that are drawn -/

/-- **A number from the range**, whatever `rand` returns. -/
theorem exists_getRandomInRange (source : Cfs.RandomSource) {rangeStart rangeEnd : Int}
    (hstart : -2 ^ 31 ≤ rangeStart) (hend : rangeEnd < 2 ^ 31) (hle : rangeStart ≤ rangeEnd)
    (hcount : rangeEnd - rangeStart + 1 < 2 ^ 31) (i : Nat) :
    ∃ x j, Cfs.getRandomInRange source rangeStart rangeEnd i = .ok (some (x, j)) ∧
      rangeStart ≤ x ∧ x ≤ rangeEnd := by
  simp only [getRandomInRange_copies_eq_some]
  rcases hle.eq_or_lt with rfl | hlt
  · exact ⟨rangeStart, i, Paging.getRandomInRange_self _ _ _, le_rfl, le_rfl⟩
  · have hraw := Paging.raw_range (source.rand i)
    have hn : 0 < rangeEnd - rangeStart + 1 := by omega
    have hx0 := scaled_nonneg (show 0 ≤ Paging.randMax by decide) hn hraw.1
    have hx := scaled_lt (show 0 ≤ Paging.randMax by decide) hn hraw.2
    exact ⟨_, _, Paging.getRandomInRange_eq _ _ hstart hend hlt hcount, by omega, by omega⟩

/-- Every number of the range is returned, for some value of `rand`. -/
def CoversRange (draw : Fin (2 ^ 31) → Int → Prop) (rangeStart rangeEnd : Int) : Prop :=
  ∀ x, rangeStart ≤ x → x ≤ rangeEnd → ∃ raw, draw raw x

theorem coversRange_scaled_iff {rangeStart rangeEnd : Int} (hlt : rangeStart < rangeEnd) :
    CoversRange (fun raw x =>
        rangeStart + scaled Paging.randMax (rangeEnd - rangeStart + 1) raw.val = x)
      rangeStart rangeEnd ↔
      rangeEnd - rangeStart ≤ Paging.randMax / (rangeEnd - rangeStart + 1)
        + Paging.randMax % (rangeEnd - rangeStart + 1) := by
  have hcovers := covers_iff (show 0 ≤ Paging.randMax by decide)
    (show 0 < rangeEnd - rangeStart + 1 by omega)
  rw [add_sub_cancel_right] at hcovers
  rw [← hcovers]
  constructor
  · intro h x hx0 hx
    obtain ⟨raw, hraw⟩ := h (rangeStart + x) (by omega) (by omega)
    exact ⟨raw.val, (Paging.raw_range raw).1, (Paging.raw_range raw).2, by omega⟩
  · intro h x hx0 hx
    obtain ⟨raw, hraw0, hraw, hscaled⟩ := h (x - rangeStart) (by omega) (by omega)
    unfold Paging.randMax at hraw
    refine ⟨⟨raw.toNat, by omega⟩, ?_⟩
    dsimp only
    rw [Int.toNat_of_nonneg hraw0, hscaled]
    omega

/-- **Coverage.** For a range of `n` ints, `n` at most `RAND_MAX`, the two copies return every
number of the range for some value of `rand` if and only if
`n - 1 ≤ RAND_MAX / n + RAND_MAX % n`. -/
theorem random_draws_cover_iff (rangeStart rangeEnd : Int) (hstart : -2 ^ 31 ≤ rangeStart)
    (hend : rangeEnd < 2 ^ 31) (hle : rangeStart ≤ rangeEnd)
    (hcount : rangeEnd - rangeStart + 1 ≤ Paging.randMax) :
    (CoversRange (fun raw x => ∃ calls, Paging.getRandomInRange (fun _ => raw) 0
          rangeStart rangeEnd = .ok (x, calls)) rangeStart rangeEnd ↔
        rangeEnd - rangeStart ≤ Paging.randMax / (rangeEnd - rangeStart + 1)
          + Paging.randMax % (rangeEnd - rangeStart + 1)) ∧
      ∀ sample, CoversRange (fun raw x => ∃ calls, Cfs.getRandomInRange ⟨fun _ => raw, sample⟩
          rangeStart rangeEnd 0 = .ok (some (x, calls))) rangeStart rangeEnd ↔
        rangeEnd - rangeStart ≤ Paging.randMax / (rangeEnd - rangeStart + 1)
          + Paging.randMax % (rangeEnd - rangeStart + 1) := by
  simp only [getRandomInRange_copies_eq_some]
  suffices CoversRange (fun raw x => ∃ calls, Paging.getRandomInRange (fun _ => raw) 0
      rangeStart rangeEnd = .ok (x, calls)) rangeStart rangeEnd ↔ _ from ⟨this, fun _ => this⟩
  rcases hle.eq_or_lt with rfl | hlt
  · -- one number, which is returned without a call
    rw [sub_self, zero_add, Int.ediv_one, iff_true_right (by decide)]
    intro x hx0 hx
    refine ⟨0, 0, ?_⟩
    rw [Paging.getRandomInRange_self, le_antisymm hx hx0]
  · rw [← coversRange_scaled_iff hlt]
    unfold Paging.randMax at hcount
    simp only [Paging.getRandomInRange_eq _ _ hstart hend hlt (by omega), Outcome.ok.injEq,
      Prod.mk.injEq, exists_and_left, exists_eq', and_true]

/-- A die is covered. -/
theorem random_draws_cover_die :
    CoversRange (fun raw x => ∃ calls, Paging.getRandomInRange (fun _ => raw) 0 1 6
      = .ok (x, calls)) 1 6 :=
  (random_draws_cover_iff 1 6 (by norm_num) (by norm_num) (by norm_num) (by decide)).1.mpr
    (by decide)

/-- Of the addresses below `0x60000000`, the upper third is never drawn. -/
theorem random_draws_not_covered :
    ¬ CoversRange (fun raw x => ∃ calls, Paging.getRandomInRange (fun _ => raw) 0 0 0x5fffffff
      = .ok (x, calls)) 0 0x5fffffff := by
  intro h
  obtain ⟨raw, calls, hraw⟩ := h 0x5fffffff (by norm_num) le_rfl
  rw [Paging.getRandomInRange_eq _ _ (by norm_num) (by norm_num) (by norm_num) (by norm_num)]
    at hraw
  have hvalue : 0 + scaled Paging.randMax (0x5fffffff - 0 + 1) raw.val = 0x5fffffff :=
    congrArg Prod.fst (Outcome.ok.inj hraw)
  have hlt := raw.isLt
  simp only [scaled, Paging.randMax] at hvalue
  omega

/-! ## Ranges of any two ends -/

/-- The divisor of the raw numbers. -/
def slotWidth (rangeStart rangeEnd : Int) : Int :=
  Paging.randMax.tdiv (rangeEnd - rangeStart + 1) + 1

/-- The computation of the divisor is defined, and it is not zero. -/
structure Scalable (rangeStart rangeEnd : Int) : Prop where
  difference : -2 ^ 31 ≤ rangeEnd - rangeStart
  count : rangeEnd - rangeStart + 1 < 2 ^ 31
  count_ne : rangeEnd - rangeStart + 1 ≠ 0
  width_ne : slotWidth rangeStart rangeEnd ≠ 0

/-- What `get_random_in_range` returns for `RAND_MAX`, if the ends are not the same. -/
def lastInRange (rangeStart rangeEnd : Int) : Int :=
  rangeStart + Paging.randMax.tdiv (slotWidth rangeStart rangeEnd)

/-- The numbers that `get_random_in_range` returns, whatever its ends are: those from the first end
to the number for `RAND_MAX`. -/
def RangeDraws (rangeStart rangeEnd x : Int) : Prop :=
  if rangeStart = rangeEnd then x = rangeStart
  else Scalable rangeStart rangeEnd ∧ (-2 ^ 31 ≤ x ∧ x < 2 ^ 31) ∧
    min rangeStart (lastInRange rangeStart rangeEnd) ≤ x ∧
      x ≤ max rangeStart (lastInRange rangeStart rangeEnd)

section Draws

variable {rangeStart rangeEnd x : Int}

theorem intQuotient_eq_ok {n d q : Int} (hn : 0 ≤ n) (hmax : n ≤ Paging.randMax) :
    Paging.intQuotient n d = .ok q ↔ d ≠ 0 ∧ n.tdiv d = q := by
  have hint : -2 ^ 31 ≤ n.tdiv d ∧ n.tdiv d < 2 ^ 31 := by
    have hle : (n.tdiv d).natAbs ≤ n.natAbs := Int.natAbs_tdiv_le_natAbs n d
    unfold Paging.randMax at hmax
    omega
  unfold Paging.intQuotient
  split
  · next hzero => simp [hzero]
  · next hne =>
      rw [Scanf.toInt_eq_ok]
      tauto

theorem slotWidth_int (h : Scalable rangeStart rangeEnd) (hne : rangeStart ≠ rangeEnd) :
    -2 ^ 31 ≤ slotWidth rangeStart rangeEnd ∧ slotWidth rangeStart rangeEnd < 2 ^ 31 := by
  have hcount := h.count_ne
  have hle := Int.natAbs_tdiv_le_natAbs Paging.randMax (rangeEnd - rangeStart + 1)
  -- only a range of one number has the width `RAND_MAX + 1`
  have hlt : Paging.randMax.tdiv (rangeEnd - rangeStart + 1) < Paging.randMax := by
    rcases lt_or_ge (rangeEnd - rangeStart + 1) 0 with hneg | hnonneg
    · exact lt_of_le_of_lt (Int.tdiv_nonpos_of_nonneg_of_nonpos (by decide) hneg.le) (by decide)
    · rw [Int.tdiv_eq_ediv_of_nonneg (by decide)]
      apply Int.ediv_lt_of_lt_mul (by omega)
      unfold Paging.randMax
      omega
  unfold slotWidth Paging.randMax at *
  omega

/-- **One draw**, for two different ends. -/
theorem getRandomInRange_eq_ok {rand : Paging.RandomValues} {i j : Nat}
    (hne : rangeStart ≠ rangeEnd) :
    Paging.getRandomInRange rand i rangeStart rangeEnd = .ok (x, j) ↔
      Scalable rangeStart rangeEnd ∧ (-2 ^ 31 ≤ x ∧ x < 2 ^ 31) ∧
        rangeStart + Int.tdiv (rand i).val (slotWidth rangeStart rangeEnd) = x ∧ i + 1 = j := by
  have hraw := Paging.raw_range (rand i)
  rw [Paging.getRandomInRange, if_neg hne]
  simp only [Outcome.bind_eq_ok, Scanf.toInt_eq_ok]
  constructor
  · rintro ⟨difference, ⟨rfl, hdifference⟩, count, ⟨rfl, hcount⟩, quotient, hquotient, width,
      ⟨rfl, hwidth⟩, scaled, hscaled, n, ⟨rfl, hn⟩, h⟩
    cases h
    obtain ⟨hcount_ne, rfl⟩ := (intQuotient_eq_ok (by decide) le_rfl).mp hquotient
    obtain ⟨hwidth_ne, rfl⟩ := (intQuotient_eq_ok hraw.1 hraw.2).mp hscaled
    exact ⟨⟨hdifference.1, hcount.2, hcount_ne, hwidth_ne⟩, hn, rfl, rfl⟩
  · rintro ⟨h, hx, rfl, rfl⟩
    have hdifference := h.difference
    have hcount := h.count
    have hwidth := slotWidth_int h hne
    refine ⟨_, ⟨rfl, by omega⟩, _, ⟨rfl, by omega⟩, _,
      (intQuotient_eq_ok (by decide) le_rfl).mpr ⟨h.count_ne, rfl⟩, _, ⟨rfl, hwidth⟩, _,
      (intQuotient_eq_ok hraw.1 hraw.2).mpr ⟨h.width_ne, rfl⟩, _, ⟨rfl, hx⟩, rfl⟩

/-- **The numbers of a range** are those that some raw number is scaled to. -/
theorem rangeDraws_iff (hne : rangeStart ≠ rangeEnd) :
    RangeDraws rangeStart rangeEnd x ↔
      Scalable rangeStart rangeEnd ∧ (-2 ^ 31 ≤ x ∧ x < 2 ^ 31) ∧
        ∃ raw : Fin (2 ^ 31),
          rangeStart + Int.tdiv raw.val (slotWidth rangeStart rangeEnd) = x := by
  rw [RangeDraws, if_neg hne]
  apply and_congr_right
  intro h
  apply and_congr_right
  intro _
  have hquotients := exists_tdiv_iff (x := x - rangeStart) (show 0 ≤ Paging.randMax by decide)
    h.width_ne
  have hbetween : (min rangeStart (lastInRange rangeStart rangeEnd) ≤ x ∧
      x ≤ max rangeStart (lastInRange rangeStart rangeEnd)) ↔
      min 0 (Paging.randMax.tdiv (slotWidth rangeStart rangeEnd)) ≤ x - rangeStart ∧
        x - rangeStart ≤ max 0 (Paging.randMax.tdiv (slotWidth rangeStart rangeEnd)) := by
    unfold lastInRange
    omega
  rw [hbetween, ← hquotients]
  constructor
  · rintro ⟨raw, hraw0, hraw, hx⟩
    unfold Paging.randMax at hraw
    refine ⟨⟨raw.toNat, by omega⟩, ?_⟩
    dsimp only
    rw [Int.toNat_of_nonneg hraw0, hx]
    omega
  · rintro ⟨raw, hx⟩
    exact ⟨raw.val, (Paging.raw_range raw).1, (Paging.raw_range raw).2, by omega⟩

/-- With the ends in order, they are numbers of the range. -/
theorem RangeDraws.mem (h : RangeDraws rangeStart rangeEnd x) (hle : rangeStart ≤ rangeEnd) :
    rangeStart ≤ x ∧ x ≤ rangeEnd := by
  rcases hle.eq_or_lt with rfl | hlt
  · rw [RangeDraws, if_pos rfl] at h
    omega
  · obtain ⟨-, -, raw, hx⟩ := (rangeDraws_iff hlt.ne).mp h
    have hraw := Paging.raw_range raw
    have hn : 0 < rangeEnd - rangeStart + 1 := by omega
    have hx0 := scaled_nonneg (show 0 ≤ Paging.randMax by decide) hn hraw.1
    have hxlt := scaled_lt (show 0 ≤ Paging.randMax by decide) hn hraw.2
    rw [Int.tdiv_eq_ediv_of_nonneg hraw.1, slotWidth, Int.tdiv_eq_ediv_of_nonneg (by decide)] at hx
    unfold scaled at hx0 hxlt
    omega

end Draws

end Cs342
