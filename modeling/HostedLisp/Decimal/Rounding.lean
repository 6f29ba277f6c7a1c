/-!
# Decimal numerals and the nearest double

The numbers of the language are doubles. A double without its sign is a *code*, the number that
its 63 lower bits spell. Codes count the magnitudes in order: code `c` stands for
`significand c * 2 ^ unit c` steps of `2 ^ -1074`, and the codes from `infinityCode` on stand for
no number.

* `nearestCode n d` -- the code nearest to the fraction `n / d`, a half going to the even code;
* `Decimal.code` -- the same for `coefficient * 10 ^ exponent`;
* `ofCode`, `codeOf`, `isNegative` -- the way between codes and doubles.

All of it is exact arithmetic on natural numbers, so that reading a numeral rounds once.
-/

namespace HostedLisp

-- powers of numbers are the built-in ones, in all modules and also where Mathlib is imported
attribute [scoped instance (high)] instPowNat

/-! ## 1. Codes -/

namespace Double

/-- The binary places of the finest double: every finite double is a whole number of steps of
    `2 ^ -places`. -/
def places : Nat := 1074

/-- The number of steps in the number one. -/
def stepsOfOne : Nat := 2 ^ places

/-- The code of infinity, the first that stands for no number. -/
def infinityCode : Nat := 2047 * 2 ^ (52 : Nat)

/-- How often the step of the code's neighbourhood was doubled. -/
def unit (code : Nat) : Nat := code / 2 ^ (52 : Nat) - 1

/-- The multiple of the doubled step that the code stands for. -/
def significand (code : Nat) : Nat := code - unit code * 2 ^ (52 : Nat)

/-- The magnitude that the code stands for, in steps. -/
def steps (code : Nat) : Nat := significand code * 2 ^ unit code

/-- The quotient `n / d` rounded to the nearest whole number, a half to the even one. -/
def roundDiv (n d : Nat) : Nat :=
  if 2 * (n % d) > d || (2 * (n % d) == d && n / d % 2 == 1) then n / d + 1 else n / d

/-- The code nearest to the fraction `n / d`. The quotient in steps fixes the unit, so that the
    rounded significand has 53 bits or counts single steps; a significand rounded up to `2 ^ 53`
    carries into the next unit by itself. -/
def nearestCode (n d : Nat) : Nat :=
  let scaled := n * stepsOfOne
  let unit := (scaled / d).log2 - 52
  min (unit * 2 ^ (52 : Nat) + roundDiv scaled (d * 2 ^ unit)) infinityCode

/-! ## 2. Doubles -/

/-- The double with the given sign and code. -/
def ofCode (negative : Bool) (code : Nat) : Float :=
  Float.ofBits (UInt64.ofNat ((if negative then 2 ^ (63 : Nat) else 0) + code))

/-- The code of a double. -/
def codeOf (x : Float) : Nat := x.toBits.toNat % 2 ^ (63 : Nat)

/-- Whether the sign bit of a double is set, as it is for the negative zero. -/
def isNegative (x : Float) : Bool := decide (2 ^ (63 : Nat) ≤ x.toBits.toNat)

/-- Whether a double stands for a number. -/
def isFinite (x : Float) : Bool := decide (codeOf x < infinityCode)

/-- The double nearest to the fraction `n / d`, with a sign. -/
def ofFraction (negative : Bool) (n d : Nat) : Float := ofCode negative (nearestCode n d)

end Double

/-! ## 3. Decimals -/

/-- The decimal `coefficient * 10 ^ exponent`. -/
structure Decimal where
  coefficient : Nat
  exponent : Int
deriving DecidableEq

namespace Decimal

/-- The code nearest to a decimal. -/
def code (d : Decimal) : Nat :=
  match d.exponent with
  | .ofNat up => Double.nearestCode (d.coefficient * 10 ^ up) 1
  | .negSucc down => Double.nearestCode d.coefficient (10 ^ (down + 1))

/-- The double nearest to a decimal, with a sign. An exponent past the range of doubles decides
    without forming its power: nothing but zero stays below `10 ^ 400`, and nothing of `n` bits
    stays above `10 ^ -(400 + n)`. -/
def toDouble (negative : Bool) (d : Decimal) : Float :=
  if d.coefficient = 0 then Double.ofCode negative 0
  else if d.exponent > 400 then Double.ofCode negative Double.infinityCode
  else if d.exponent < -(400 + d.coefficient.log2) then Double.ofCode negative 0
  else Double.ofCode negative d.code

/-- The same decimal without the zeros at the end of its coefficient. -/
def trim (d : Decimal) : Decimal :=
  if d.coefficient = 0 then ⟨0, 0⟩
  else if d.coefficient % 10 = 0 then trim ⟨d.coefficient / 10, d.exponent + 1⟩
  else d
termination_by d.coefficient
decreasing_by exact Nat.div_lt_self (by omega) (by omega)

end Decimal

end HostedLisp
