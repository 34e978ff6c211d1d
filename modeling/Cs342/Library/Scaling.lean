import Mathlib

/-!
# Scaling random numbers

A raw number from `0` to `largest` is scaled to `n` slots by a division: the slots are
`largest / n + 1` wide. No number falls behind the last slot (`scaled_lt`). The width is rounded
twice, though, and the numbers need not reach the last slot (`covers_iff`). A width may even be
negative, if `n` is, and the slots then lie below zero (`exists_tdiv_iff`).
-/

namespace Scaling

/-- The slot of a raw number. -/
def scaled (largest n raw : Int) : Int := raw / (largest / n + 1)

section Slots

variable {largest n raw : Int}

theorem width_pos (hlargest : 0 ≤ largest) (hn : 0 < n) : 0 < largest / n + 1 := by
  have := Int.ediv_nonneg hlargest hn.le
  omega

theorem scaled_nonneg (hlargest : 0 ≤ largest) (hn : 0 < n) (hraw : 0 ≤ raw) :
    0 ≤ scaled largest n raw :=
  Int.ediv_nonneg hraw (width_pos hlargest hn).le

theorem scaled_lt (hlargest : 0 ≤ largest) (hn : 0 < n) (hraw : raw ≤ largest) :
    scaled largest n raw < n := by
  apply Int.ediv_lt_of_lt_mul (width_pos hlargest hn)
  calc raw ≤ largest := hraw
    _ < (largest / n + 1) * n := Int.lt_ediv_add_one_mul_self _ hn
    _ = n * (largest / n + 1) := Int.mul_comm _ _

/-- The last slot starts at a number that there is. -/
theorem last_slot_le_iff :
    (n - 1) * (largest / n + 1) ≤ largest ↔ n - 1 ≤ largest / n + largest % n := by
  have hsplit := Int.mul_ediv_add_emod largest n
  have hexpand : (n - 1) * (largest / n + 1) = n * (largest / n) + n - largest / n - 1 := by ring
  rw [hexpand]
  constructor <;> intro h <;> linarith

/-- **Coverage**: every slot is hit exactly if the last one is. -/
theorem covers_iff (hlargest : 0 ≤ largest) (hn : 0 < n) :
    (∀ x, 0 ≤ x → x < n → ∃ raw, 0 ≤ raw ∧ raw ≤ largest ∧ scaled largest n raw = x) ↔
      n - 1 ≤ largest / n + largest % n := by
  have hwidth := width_pos hlargest hn
  rw [← last_slot_le_iff]
  constructor
  · intro h
    obtain ⟨raw, -, hraw, hx⟩ := h (n - 1) (by omega) (by omega)
    calc (n - 1) * (largest / n + 1)
        = scaled largest n raw * (largest / n + 1) := by rw [hx]
      _ ≤ raw := Int.ediv_mul_le _ hwidth.ne'
      _ ≤ largest := hraw
  · intro h x hx hlt
    refine ⟨x * (largest / n + 1), Int.mul_nonneg hx hwidth.le, ?_,
      Int.mul_ediv_cancel _ hwidth.ne'⟩
    calc x * (largest / n + 1) ≤ (n - 1) * (largest / n + 1) :=
          Int.mul_le_mul_of_nonneg_right (by omega) hwidth.le
      _ ≤ largest := h

/-! ## Widths of any sign -/

/-- **The quotients** by a width other than zero, which may be negative, are the numbers from zero
to the quotient of the largest one. -/
theorem exists_tdiv_iff {width x : Int} (hlargest : 0 ≤ largest) (hwidth : width ≠ 0) :
    (∃ raw, 0 ≤ raw ∧ raw ≤ largest ∧ raw.tdiv width = x) ↔
      min 0 (largest.tdiv width) ≤ x ∧ x ≤ max 0 (largest.tdiv width) := by
  have hpositive : ∀ w : Int, 0 < w → ∀ y, (∃ raw, 0 ≤ raw ∧ raw ≤ largest ∧ raw.tdiv w = y) ↔
      0 ≤ y ∧ y ≤ largest.tdiv w := by
    intro w hw y
    rw [Int.tdiv_eq_ediv_of_nonneg hlargest]
    constructor
    · rintro ⟨raw, hraw0, hraw, rfl⟩
      rw [Int.tdiv_eq_ediv_of_nonneg hraw0]
      exact ⟨Int.ediv_nonneg hraw0 hw.le, Int.ediv_le_ediv hw hraw⟩
    · rintro ⟨hy0, hy⟩
      exact ⟨y * w, Int.mul_nonneg hy0 hw.le, (Int.le_ediv_iff_mul_le hw).mp hy,
        Int.mul_tdiv_cancel _ hw.ne'⟩
  rcases lt_or_gt_of_ne hwidth with hneg | hpos
  · -- the quotients by the opposite, with the other sign
    have hlast := ((hpositive (-width) (by omega) (largest.tdiv (-width))).mp
      ⟨largest, hlargest, le_rfl, rfl⟩).1
    have hopposite := hpositive (-width) (by omega) (-x)
    simp only [Int.tdiv_neg, neg_inj] at hlast hopposite
    rw [hopposite]
    omega
  · have hlast := ((hpositive width hpos (largest.tdiv width)).mp
      ⟨largest, hlargest, le_rfl, rfl⟩).1
    rw [hpositive width hpos]
    omega

end Slots

end Scaling
