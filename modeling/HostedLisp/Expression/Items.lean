import HostedLisp.Host

/-!
# Lists and their items

Lists are proper, whether they are read (`isProper_ofItems`) or built in new cells
(`Effects.isProper_chain`), and one that is built has the items it was made of
(`Effects.items_chain`).
-/

namespace HostedLisp

namespace Expression

/-! ## 1. Lists that were read -/

@[simp] theorem isProper_ofItems (es : List Datum) : (ofItems es).isProper = true := by
  induction es with
  | nil => rfl
  | cons e es ih => exact ih

end Expression

/-! ## 2. Lists in new cells -/

namespace Effects

@[simp] theorem restItems_chain (cell : Nat) (vs : List Value) :
    (chain cell vs).restItems = vs := by
  induction vs generalizing cell with
  | nil => rfl
  | cons v vs ih => simp only [chain, Expression.restItems, ih]

@[simp] theorem items_chain (cell : Nat) (vs : List Value) : (chain cell vs).items = vs := by
  cases vs with
  | nil => rfl
  | cons v vs => simp only [chain, Expression.items, restItems_chain]

@[simp] theorem isProper_chain (cell : Nat) (vs : List Value) :
    (chain cell vs).isProper = true := by
  induction vs generalizing cell with
  | nil => rfl
  | cons v vs ih => exact ih (cell + 1)

end Effects

end HostedLisp
