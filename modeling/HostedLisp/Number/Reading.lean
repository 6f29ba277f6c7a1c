import HostedLisp.Decimal.Bits
import HostedLisp.Decimal.Exact
import HostedLisp.Number

/-!
# Numbers read back

The text of a finite number is an optional minus sign and a run of digits with at most one point,
and the run reads back as the number (`ofRun_magnitudeChars`). The signs and the zeros are kept, so
this is equality of doubles and not only of the numbers they stand for.
-/

namespace HostedLisp

namespace Decimal

/-! ## 1. Runs of digits -/

theorem isDigit_of_mem_digits {d : Decimal} {c : Char} (h : c ∈ d.digits) : c.isDigit = true :=
  Nat.isDigit_of_mem_toDigits (by decide) (by decide) h

theorem ne_point_of_mem_digits {d : Decimal} {c : Char} (h : c ∈ d.digits) : c ≠ '.' := by
  rintro rfl
  exact absurd (isDigit_of_mem_digits h) (by decide)

theorem ofDigitChars_digits (d : Decimal) : Nat.ofDigitChars 10 d.digits 0 = d.coefficient :=
  Nat.ofDigitChars_ten_toDigits

end Decimal

namespace Number

/-- A run without a point is a whole number. -/
theorem ofRun_of_forall_ne {run : List Char} (negative : Bool) (h : ∀ c ∈ run, c ≠ '.') :
    ofRun negative run = Double.ofFraction negative (Nat.ofDigitChars 10 run 0) 1 := by
  have hd : ∀ c ∈ run, decide (c ≠ '.') = true := by simpa using h
  have hw : (run ++ []).takeWhile (· ≠ '.') = run ++ [] := List.takeWhile_append_of_pos hd
  have hf : (run ++ []).dropWhile (· ≠ '.') = [] := List.dropWhile_append_of_pos hd
  rw [List.append_nil] at hw hf
  simp only [ofRun, hw, hf]
  simp

/-- The digits before and behind the point make the numerator, those behind it the
    denominator. -/
theorem ofRun_append (negative : Bool) (whole fraction : List Char)
    (h : ∀ c ∈ whole, c ≠ '.') :
    ofRun negative (whole ++ '.' :: fraction)
      = Double.ofFraction negative (Nat.ofDigitChars 10 (whole ++ fraction) 0)
          (10 ^ fraction.length) := by
  have hd : ∀ c ∈ whole, decide (c ≠ '.') = true := by simpa using h
  have hw : (whole ++ '.' :: fraction).takeWhile (· ≠ '.') = whole := by
    rw [List.takeWhile_append_of_pos hd]
    simp
  have hf : (whole ++ '.' :: fraction).dropWhile (· ≠ '.') = '.' :: fraction := by
    rw [List.dropWhile_append_of_pos hd]
    simp
  simp only [ofRun, hw, hf, List.drop_succ_cons, List.drop_zero]

/-- **The positional text of a decimal reads back as the double nearest to it.** -/
theorem ofRun_positional (negative : Bool) (d : Decimal) :
    ofRun negative (d.positional false) = Double.ofCode negative d.code := by
  obtain ⟨coefficient, exponent⟩ := d
  cases exponent with
  | ofNat up =>
    simp only [Decimal.positional, Decimal.code]
    rw [ofRun_of_forall_ne]
    · simp [Double.ofFraction, Nat.ofDigitChars_append, Decimal.ofDigitChars_digits,
        Nat.mul_comm]
    · intro c hc
      simp only [Bool.false_eq_true, if_false, List.append_nil, List.mem_append,
        List.mem_replicate] at hc
      rcases hc with hc | ⟨-, rfl⟩
      · exact Decimal.ne_point_of_mem_digits hc
      · decide
  | negSucc down =>
    simp only [Decimal.positional, Decimal.code]
    split
    · rename_i hlt
      rw [ofRun_append _ _ _ fun c hc => Decimal.ne_point_of_mem_digits (List.mem_of_mem_take hc),
        List.take_append_drop, Decimal.ofDigitChars_digits, List.length_drop]
      rw [Double.ofFraction]
      congr 3
      omega
    · rename_i hge
      have e := ofRun_append negative ['0']
        (List.replicate (down + 1 - (Decimal.digits ⟨coefficient, .negSucc down⟩).length) '0'
          ++ Decimal.digits ⟨coefficient, .negSucc down⟩) (by simp)
      rw [List.cons_append, List.nil_append] at e
      rw [e, Double.ofFraction]
      simp only [List.cons_append, List.nil_append, Nat.ofDigitChars_cons,
        Nat.ofDigitChars_append, Nat.ofDigitChars_replicate_zero, List.length_append,
        List.length_replicate]
      have hz : Nat.ofDigitChars 10 (Decimal.digits ⟨coefficient, .negSucc down⟩)
          (10 ^ (down + 1 - (Decimal.digits ⟨coefficient, .negSucc down⟩).length)
            * (10 * 0 + ('0'.toNat - '0'.toNat))) = coefficient := by
        simpa using Decimal.ofDigitChars_digits ⟨coefficient, .negSucc down⟩
      rw [hz]
      congr 3
      omega

/-! ## 2. Numbers -/

/-- The decimal of a finite number reads back. -/
theorem code_decimal (tie : Tie) {x : Float} (h : Double.isFinite x = true) :
    (decimal tie x).code = Double.codeOf x := by
  simp only [Double.isFinite, decide_eq_true_eq] at h
  unfold decimal
  split
  · rename_i h0
    rw [h0]
    decide +kernel
  · exact Decimal.code_shortest tie (Nat.le_of_lt h)

theorem magnitudeChars_plain (x : Float) :
    magnitudeChars plain x = (decimal .up x).positional false := by
  simp [magnitudeChars, plain]

/-- **The digits of a finite number read back as the number**, its sign given. -/
theorem ofRun_magnitudeChars {x : Float} (h : Double.isFinite x = true) :
    ofRun (Double.isNegative x) (magnitudeChars plain x) = x := by
  rw [magnitudeChars_plain, ofRun_positional, code_decimal .up h, Double.ofCode_codeOf]

end Number

end HostedLisp
