import HostedLisp.Decimal.Rounding

/-!
# The shortest decimal that reads back

A double is written with the fewest digits that read back as the same double, and of those with
the digits nearest to it. Two grid points can be equally near; which one is taken is left to the
`Tie` of the format.

The search goes over the grids of 1, 2, … 17 digits and asks `Decimal.code` of the two neighbours
on each, nearer one first. Whatever it returns therefore reads back; the exact expansion stands
behind it, so that nothing hangs on the fact that 17 digits always suffice.
-/

namespace HostedLisp

/-- Which of two equally near decimals is taken. -/
inductive Tie where
  | up
  | toEven
deriving DecidableEq

namespace Decimal

/-! ## 1. The neighbours on a grid -/

/-- The number of digits of a natural number. -/
def digitCount (n : Nat) : Nat := (Nat.toDigits 10 n).length

/-- The place `p` of the decimal point of a positive fraction: `10 ^ (p - 1) ≤ n / d < 10 ^ p`, for
    fractions down to `10 ^ -330`. -/
def pointPlace (n d : Nat) : Int :=
  if d ≤ n then digitCount (n / d) else digitCount (n * 10 ^ (330 : Nat) / d) - 330

/-- The fraction `n / d` divided by `10 ^ exponent`. -/
def shifted (n d : Nat) : Int → Nat × Nat
  | .ofNat up => (n, d * 10 ^ up)
  | .negSucc down => (n * 10 ^ (down + 1), d)

/-- The two neighbours of `n / d` among the multiples of `10 ^ exponent`, the nearer one first. -/
def neighbours (tie : Tie) (n d : Nat) (exponent : Int) : List Decimal :=
  let (n, d) := shifted n d exponent
  let below := n / d
  let twice := 2 * (n % d)
  let upFirst := twice > d || (twice == d && (tie == .up || below % 2 == 1))
  let low : Decimal := trim ⟨below, exponent⟩
  let high : Decimal := trim ⟨below + 1, exponent⟩
  if upFirst then [high, low] else [low, high]

/-! ## 2. The search -/

/-- The exact expansion of a code: a step of `2 ^ -places` is `5 ^ places` units of
    `10 ^ -places`. -/
def exact (code : Nat) : Decimal := ⟨Double.steps code * 5 ^ Double.places, -Double.places⟩

/-- The first neighbour, over the grids of 1 to 17 digits, that reads back as the code. -/
def search? (tie : Tie) (code : Nat) : Option Decimal :=
  let n := Double.steps code
  let place := pointPlace n Double.stepsOfOne
  (List.range 17).findSome? fun (i : Nat) =>
    (neighbours tie n Double.stepsOfOne (place - (i + 1))).find? fun c => c.code == code

/-- The shortest decimal that reads back as the given code, and of those the nearest. -/
def shortest (tie : Tie) (code : Nat) : Decimal := (search? tie code).getD (exact code)

/-- What the search finds reads back. -/
theorem code_of_search? {tie : Tie} {code : Nat} {d : Decimal} (h : search? tie code = some d) :
    d.code = code := by
  obtain ⟨i, -, hi⟩ := List.exists_of_findSome?_eq_some h
  simpa using List.find?_some hi

end Decimal

end HostedLisp
