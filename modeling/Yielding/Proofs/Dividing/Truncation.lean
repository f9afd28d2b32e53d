import Mathlib.Data.Rat.Floor
import Mathlib.Tactic.FieldSimp
import Mathlib.Tactic.Linarith
import Yielding.Datum.Operation

/-!
# Proofs/Dividing/Truncation — integers divide toward zero

The quotient of two integers is made from that of their absolute values, and the remainder from the
quotient.  Together they are the only **division** of the two: they make up the dividend, and the
remainder is smaller than the divisor and has the sign of the dividend
(`integers_divide_toward_zero`).
-/

namespace Yielding

/-- A fraction without the part behind its point. -/
def truncated (x : ℚ) : ℤ := if 0 ≤ x then ⌊x⌋ else ⌈x⌉

/-- Division with a remainder that has the sign of the dividend. -/
structure IsDivision (a b q r : ℤ) : Prop where
  sum : a = b * q + r
  small : |r| < |b|
  sign : r = 0 ∨ r.sign = a.sign

variable {a b q r : ℤ}

/-- What is left over has the sign of the whole, as a fraction of the divisor too. -/
theorem IsDivision.nonneg_iff (h : IsDivision a b q r) :
    r = 0 ∨ (0 ≤ (r : ℚ) / b ↔ 0 ≤ (a : ℚ) / b) := by
  refine h.sign.imp_right fun hsign => ?_
  have hpos : 0 ≤ r ↔ 0 ≤ a := by rw [← Int.sign_nonneg_iff, hsign, Int.sign_nonneg_iff]
  have hneg : r ≤ 0 ↔ a ≤ 0 := by rw [← Int.sign_nonpos_iff, hsign, Int.sign_nonpos_iff]
  rw [div_nonneg_iff, div_nonneg_iff]
  norm_cast
  rw [hpos, hneg]

/-- **The quotient of a division is truncated**: what is left over is less than one divisor, and
takes the quotient away from zero. -/
theorem IsDivision.eq_truncated (h : IsDivision a b q r) : q = truncated (a / b) := by
  have hb : (b : ℚ) ≠ 0 := by
    rintro hb
    have hsmall := h.small
    rw [Int.cast_eq_zero.1 hb, abs_zero] at hsmall
    exact (abs_nonneg r).not_gt hsmall
  have hsplit : (a : ℚ) / b = q + r / b := by
    rw [h.sum]
    push_cast
    field_simp
  have hpart : |(r : ℚ) / b| < 1 := by
    rw [abs_div, div_lt_one (abs_pos.2 hb)]
    exact_mod_cast h.small
  obtain ⟨hlow, hhigh⟩ := abs_lt.1 hpart
  have hsame := h.nonneg_iff
  rw [truncated]
  symm
  split
  · next hpos =>
    have hr : 0 ≤ (r : ℚ) / b := by
      rcases hsame with rfl | hsame
      · simp
      · exact hsame.2 hpos
    exact Int.floor_eq_iff.2 ⟨by linarith, by linarith⟩
  · next hneg =>
    have hr : (r : ℚ) / b ≤ 0 := by
      rcases hsame with rfl | hsame
      · simp
      · exact (not_le.1 fun hr => hneg (hsame.1 hr)).le
    exact Int.ceil_eq_iff.2 ⟨by linarith, by linarith⟩

/-- **Two integers have only one division.** -/
theorem IsDivision.unique {q' r' : ℤ} (h : IsDivision a b q r) (h' : IsDivision a b q' r') :
    q' = q ∧ r' = r := by
  have hq : q' = q := h'.eq_truncated.trans h.eq_truncated.symm
  refine ⟨hq, ?_⟩
  have hsum := h.sum.symm.trans h'.sum
  rw [hq] at hsum
  exact (add_left_cancel hsum).symm

/-- The remainder is that of the absolute values, with the sign of the dividend. -/
theorem remainder_eq (a b : ℤ) : remainder a b = a.sign * (a.natAbs % b.natAbs : ℕ) := by
  have hdiv : (a.natAbs : ℤ) = b.natAbs * (a.natAbs / b.natAbs : ℕ) +
      (a.natAbs % b.natAbs : ℕ) := by
    exact_mod_cast (Nat.div_add_mod _ _).symm
  have ha : a = a.natAbs ∨ a = -a.natAbs := a.natAbs_eq
  have hb : b = b.natAbs ∨ b = -b.natAbs := b.natAbs_eq
  -- what is left are the signs of `a` and `b`
  rw [remainder, quotient]
  grind [Int.sign_eq_one_of_pos, Int.sign_eq_neg_one_of_neg, Int.sign_zero]

theorem isDivision_quotient (a : ℤ) (hb : b ≠ 0) :
    IsDivision a b (quotient a b) (remainder a b) where
  sum := by
    rw [remainder]
    ring
  small := by
    have hlt : a.natAbs % b.natAbs < b.natAbs := Nat.mod_lt _ (Int.natAbs_pos.2 hb)
    calc |remainder a b| = |a.sign| * (a.natAbs % b.natAbs : ℕ) := by
          rw [remainder_eq, abs_mul, Nat.abs_cast]
      _ ≤ 1 * (a.natAbs % b.natAbs : ℕ) := by
        gcongr
        rcases Int.sign_trichotomy a with h | h | h <;> simp [h]
      _ < |b| := by rw [one_mul, Int.abs_eq_natAbs]; exact_mod_cast hlt
  sign := by
    rw [remainder_eq]
    rcases Nat.eq_zero_or_pos (a.natAbs % b.natAbs) with h | h
    · exact .inl (by rw [h, Nat.cast_zero, mul_zero])
    · have hpos : (0 : ℤ) < (a.natAbs % b.natAbs : ℕ) := Int.natCast_pos.2 h
      exact .inr (by rw [Int.sign_mul, Int.sign_sign, Int.sign_eq_one_of_pos hpos, mul_one])

/-- **Integers divide toward zero.**  By zero, both operations give up.  By any other integer they
give the one and only division of the two, whose quotient is the fraction truncated toward zero; the
store is left as it is. -/
theorem Datum.integers_divide_toward_zero (a b : ℤ) (s : Store) :
    (b = 0 →
      (div (int a) (int b)).run.run s = (.error (.panic "attempt to divide by zero"), s) ∧
      (rem (int a) (int b)).run.run s =
        (.error (.panic "attempt to calculate the remainder with a divisor of zero"), s)) ∧
    (b ≠ 0 → ∃ q r,
      (div (int a) (int b)).run.run s = (.ok (int q), s) ∧
      (rem (int a) (int b)).run.run s = (.ok (int r), s) ∧
      IsDivision a b q r ∧ q = truncated (a / b) ∧
      ∀ q' r', IsDivision a b q' r' → q' = q ∧ r' = r) := by
  constructor
  · rintro rfl
    exact ⟨rfl, rfl⟩
  · intro hb
    have h := isDivision_quotient a hb
    refine ⟨_, _, ?_, ?_, h, h.eq_truncated, fun q' r' h' => h.unique h'⟩
    · rw [div]
      simp only [integers?, integer?, Option.map_some, if_neg hb]
      rfl
    · rw [rem]
      simp only [integers?, integer?, Option.map_some, if_neg hb]
      rfl

end Yielding
