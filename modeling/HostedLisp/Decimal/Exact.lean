import HostedLisp.Decimal.Shortest

/-!
# What is exact reads back

A fraction that is a whole number of steps of some code is rounded to that code
(`nearestCode_of_eq`). The exact expansion of a code is such a fraction, so it reads back, and with
it every decimal that the search for the shortest one can return (`code_shortest`).
-/

namespace HostedLisp

/-! ## 1. Fractions that are codes -/

namespace Double

/-- A quotient without remainder is not changed by rounding. -/
theorem roundDiv_mul (q : Nat) {d : Nat} (hd : 0 < d) : roundDiv (q * d) d = q := by
  have hr : q * d % d = 0 := Nat.mul_mod_left q d
  have hq : q * d / d = q := Nat.mul_div_cancel q hd
  simp only [roundDiv, hr, hq]
  rw [if_neg]
  simp
  omega

/-- The unit and the significand make up the code. -/
theorem unit_mul_add_significand (code : Nat) : unit code * 2 ^ (52 : Nat) + significand code = code := by
  simp only [significand, unit]
  omega

/-- The number of steps of a code fixes its unit. -/
theorem log2_steps (code : Nat) : (steps code).log2 - 52 = unit code := by
  by_cases h : code < 2 ^ 53
  · have hu : unit code = 0 := by simp only [unit]; omega
    have hs : steps code = code := by simp [steps, significand, hu]
    rw [hs, hu]
    by_cases h0 : code = 0
    · subst h0
      rfl
    · have := (Nat.log2_lt h0).2 h
      omega
  · have hl : 2 ^ 52 ≤ significand code := by simp only [significand, unit]; omega
    have hh : significand code < 2 ^ 53 := by simp only [significand, unit]; omega
    have hne : steps code ≠ 0 := Nat.mul_ne_zero (by omega) (Nat.ne_of_gt (Nat.two_pow_pos _))
    have e : (steps code).log2 = 52 + unit code := by
      rw [Nat.log2_eq_iff hne]
      constructor
      · rw [Nat.pow_add]
        exact Nat.mul_le_mul_right _ hl
      · rw [show 52 + unit code + 1 = 53 + unit code by omega, Nat.pow_add]
        exact Nat.mul_lt_mul_of_pos_right hh (Nat.two_pow_pos _)
    omega

/-- **A fraction that is exactly a code is rounded to it.** -/
theorem nearestCode_of_eq {n d code : Nat} (hd : 0 < d) (hc : code ≤ infinityCode)
    (h : n * stepsOfOne = steps code * d) : nearestCode n d = code := by
  have hq : n * stepsOfOne / d = steps code := by rw [h, Nat.mul_div_cancel _ hd]
  have hs : steps code * d = significand code * (d * 2 ^ unit code) := by
    rw [steps, Nat.mul_assoc, Nat.mul_comm (2 ^ _) d]
  have hr : roundDiv (n * stepsOfOne) (d * 2 ^ unit code) = significand code := by
    rw [h, hs]
    exact roundDiv_mul _ (Nat.mul_pos hd (Nat.two_pow_pos _))
  simp only [nearestCode, hq, log2_steps, hr, unit_mul_add_significand]
  exact Nat.min_eq_left hc

end Double

/-! ## 2. Decimals that are codes -/

namespace Decimal

/-- A decimal with some places behind the point is a fraction over a power of ten. -/
theorem code_neg (coefficient places : Nat) :
    (⟨coefficient, -(places : Int)⟩ : Decimal).code
      = Double.nearestCode coefficient (10 ^ places) := by
  cases places with
  | zero => simp [code]
  | succ down => rfl

/-- The exact expansion reads back. -/
theorem code_exact {code : Nat} (hc : code ≤ Double.infinityCode) : (exact code).code = code := by
  have hd : ∀ k : Nat, 0 < 10 ^ k := fun k => Nat.pow_pos (by omega)
  have h : ∀ k : Nat, 5 ^ k * 2 ^ k = 10 ^ k := fun k => (Nat.mul_pow 5 2 k).symm
  rw [exact, code_neg]
  apply Double.nearestCode_of_eq (hd _) hc
  rw [Double.stepsOfOne, Nat.mul_assoc, h]

/-- **The shortest decimal of a code reads back.** -/
theorem code_shortest (tie : Tie) {code : Nat} (hc : code ≤ Double.infinityCode) :
    (shortest tie code).code = code := by
  unfold shortest
  cases h : search? tie code with
  | none => exact code_exact hc
  | some d => exact code_of_search? h

end Decimal

end HostedLisp
