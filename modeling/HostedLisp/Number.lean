import HostedLisp.Decimal.Shortest

/-!
# The text of numbers

A number is written with the shortest digits that read back (`Decimal.shortest`). Where the point
goes is the choice of a `Layout`: the language itself writes every number positionally and without
an exponent, so that what it writes is again a numeral of the language; the inspection and the
interchange forms keep a point in whole numbers and turn to an exponent far from one.

* `write` -- the text that the language prints and reads;
* `inspection`, `interchange` -- the two other layouts;
* `ofRun` -- the value of a run of digits with at most one point;
* `ofText?` -- numbers as a host writes them, exponents and `NaN`, `inf` included.
-/

namespace HostedLisp

/-! ## 1. Digits and points -/

namespace Decimal

/-- The digits of a decimal, most significant first. -/
def digits (d : Decimal) : List Char := Nat.toDigits 10 d.coefficient

/-- The place of the point, counted from the left end of the digits. -/
def point (d : Decimal) : Int := d.digits.length + d.exponent

/-- All digits down to the units and then the fraction; a whole number ends in `.0` if asked. -/
def positional (keepsPoint : Bool) (d : Decimal) : List Char :=
  match d.exponent with
  | .ofNat up =>
    d.digits ++ List.replicate up '0' ++ (if keepsPoint then ['.', '0'] else [])
  | .negSucc down =>
    let places := down + 1
    let whole := d.digits.length - places
    if places < d.digits.length then d.digits.take whole ++ '.' :: d.digits.drop whole
    else '0' :: '.' :: (List.replicate (places - d.digits.length) '0' ++ d.digits)

/-- One digit before the point and a power of ten behind it, a positive one with its sign if
    asked. -/
def exponential (signsPower : Bool) (d : Decimal) : List Char :=
  let fraction := d.digits.drop 1
  let power := d.point - 1
  let magnitude := Nat.toDigits 10 power.natAbs
  d.digits.take 1 ++ (if fraction.isEmpty then [] else '.' :: fraction)
    ++ 'e' :: (if power < 0 then '-' :: magnitude
      else if signsPower then '+' :: magnitude else magnitude)

end Decimal

/-! ## 2. Layouts -/

/-- How finite numbers are laid out. -/
structure Layout where
  /-- Which of two equally near shortest decimals is written. -/
  tie : Tie
  /-- Whether a number with its point at this place is written positionally. -/
  isPositional : Int → Bool
  /-- Whether a whole number ends in `.0`. -/
  keepsPoint : Bool
  /-- Whether a positive power of ten has a plus sign. -/
  signsPower : Bool

namespace Number

/-- The layout of the language: always positional, whole numbers without a point. -/
def plain : Layout := ⟨.up, fun _ => true, false, false⟩

/-- The layout of inspection texts: positional from `10 ^ -4` up to `10 ^ 16`. -/
def inspection : Layout := ⟨.up, fun place => -3 ≤ place && place ≤ 16, true, false⟩

/-- The layout of interchange texts: positional from `10 ^ -5` up to `10 ^ 16`, every other power
    of ten with its sign, and an even last digit where two are equally near. -/
def interchange : Layout := ⟨.toEven, fun place => -4 ≤ place && place ≤ 16, true, true⟩

/-- The shortest decimal of a finite number without its sign. -/
def decimal (tie : Tie) (x : Float) : Decimal :=
  if Double.codeOf x = 0 then ⟨0, 0⟩ else Decimal.shortest tie (Double.codeOf x)

/-- The minus sign of a double, the negative zero included. -/
def signChars (x : Float) : List Char := if Double.isNegative x then ['-'] else []

/-- The digits and the point of a finite number. -/
def magnitudeChars (layout : Layout) (x : Float) : List Char :=
  let d := decimal layout.tie x
  if layout.isPositional d.point then d.positional layout.keepsPoint
  else d.exponential layout.signsPower

/-- The text of a number. -/
def chars (layout : Layout) (x : Float) : List Char :=
  if Double.isFinite x then signChars x ++ magnitudeChars layout x
  else if Double.codeOf x = Double.infinityCode then signChars x ++ ['i', 'n', 'f']
  else ['N', 'a', 'N']

/-- The text of a number as the language prints it. -/
def write (x : Float) : String := String.ofList (chars plain x)

/-! ## 3. Reading -/

/-- The value of a run of digits with at most one point, rounded once. -/
def ofRun (negative : Bool) (run : List Char) : Float :=
  let whole := run.takeWhile (· ≠ '.')
  let fraction := (run.dropWhile (· ≠ '.')).drop 1
  Double.ofFraction negative (Nat.ofDigitChars 10 (whole ++ fraction) 0) (10 ^ fraction.length)

/-- Not a number. -/
def notANumber : Float := 0.0 / 0.0

/-- An optional sign and what follows it. -/
def splitSign : List Char → Bool × List Char
  | '-' :: cs => (true, cs)
  | '+' :: cs => (false, cs)
  | cs => (false, cs)

/-- The exponent that ends a numeral, if it is well formed. -/
def exponentOf? : List Char → Option Int
  | [] => some 0
  | e :: cs =>
    let (negative, run) := splitSign cs
    if (e == 'e' || e == 'E') && !run.isEmpty && run.all Char.isDigit then
      let size := Nat.ofDigitChars 10 run 0
      some (if negative then -(size : Int) else size)
    else none

/-- A number as a host writes it: a sign, digits with a point, an exponent; or `NaN`, `inf`. -/
def ofText? (text : String) : Option Float :=
  let (negative, cs) := splitSign text.toList
  if cs = ['N', 'a', 'N'] then some notANumber
  else if cs = ['i', 'n', 'f'] then some (Double.ofCode negative Double.infinityCode)
  else
    let run := cs.takeWhile fun c => c.isDigit || c == '.'
    let whole := run.takeWhile (· ≠ '.')
    let fraction := (run.dropWhile (· ≠ '.')).drop 1
    if run.count '.' ≤ 1 && !(whole ++ fraction).isEmpty then
      (exponentOf? (cs.dropWhile fun c => c.isDigit || c == '.')).map fun power =>
        Decimal.toDouble negative
          ⟨Nat.ofDigitChars 10 (whole ++ fraction) 0, power - fraction.length⟩
    else none

end Number

end HostedLisp
