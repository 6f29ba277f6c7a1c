import HostedLisp.Error

/-!
# Three equalities

* `identical` -- the same object: atoms by value, pairs by cell, callables by reference. Numbers
  are compared as doubles are stored, so that not-a-number is identical to itself and the two
  zeros differ;
* `resembles` -- the same structure, where numbers compare as numbers do and one cell resembles
  itself whatever it holds;
* `equivalent` -- the `equal?` of the language: the items of two pairs are compared one by one, so
  that a tail counts as an item, and everything else must be identical.

The last two questions of the language refuse values that are no expressions (`distinguish`).
-/

namespace HostedLisp.Expression

/-- The same object. -/
def identical : Value → Value → Bool
  | number x, number y => decide (x = y)
  | string s, string t => s == t
  | boolean a, boolean b => a == b
  | symbol x, symbol y => x == y
  | emptyList, emptyList => true
  | pair c _ _, pair d _ _ => c == d
  | procedure p, procedure q => p == q
  | hostFunction p _, hostFunction q _ => p == q
  | unspecified, unspecified => true
  | _, _ => false

/-- The same structure, a cell always resembling itself. -/
def resembles : Value → Value → Bool
  | number x, number y => x == y
  | string s, string t => s == t
  | boolean a, boolean b => a == b
  | symbol x, symbol y => x == y
  | emptyList, emptyList => true
  | pair c first rest, pair d first' rest' =>
    c == d || (first.resembles first' && rest.resembles rest')
  | procedure p, procedure q => p == q
  | hostFunction p _, hostFunction q _ => p == q
  | unspecified, unspecified => true
  | _, _ => false

/-- Identity as a question of the language, asked of expressions only. -/
def distinguish (a b : Value) : Except Error Bool :=
  match [a, b].filter fun v => !v.isExpression with
  | [] => .ok (a.identical b)
  | refused => .error (.runtime (.notComparable (refused.map display)))

mutual

/-- Equality item by item. Pairs with different numbers of items differ at once. -/
def equivalent : Value → Value → Except Error Bool
  | pair _ first rest, pair _ first' rest' =>
    if rest.restItems.length = rest'.restItems.length then
      match first.equivalent first' with
      | .ok true => rest.equivalentRest rest'
      | answer => answer
    else .ok false
  | a, b => distinguish a b

/-- Equality item by item from the rest fields on, for chains of equally many items. An item in a
    tail can meet an item in a pair. -/
def equivalentRest : Value → Value → Except Error Bool
  | pair _ first rest, pair _ first' rest' =>
    match first.equivalent first' with
    | .ok true => rest.equivalentRest rest'
    | answer => answer
  | pair _ first _, tail => distinguish first tail
  | tail, pair _ first _ => distinguish tail first
  | tail, tail' => distinguish tail tail'

end

end HostedLisp.Expression
