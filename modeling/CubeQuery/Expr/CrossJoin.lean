import CubeQuery.Expr

/-!
# Cross joins

The operands of a cross join are joined from left to right: two by one call, more either by the
operator `*` or by calls nested to the right. A single operand needs no join.
-/

namespace CubeQuery.Expr

/-- A member as an operand stands in braces, any other expression as it is. -/
def asOperand : Expr → Expr
  | .member name => set [.member name]
  | e => e

/-- The function that joins two sets. -/
def joinFunction (nonEmpty : Bool) : String :=
  if nonEmpty then "NonEmptyCrossJoin" else "CrossJoin"

/-- Calls nested to the right: `f(a, f(b, c))`. -/
def nestRight (f : String) (first : Expr) : List Expr → Expr
  | [] => first
  | second :: rest => function f [first, nestRight f second rest]

/-- The cross join of the operands, nothing for no operand.
mirrors compiler/util:15-34 -/
def crossJoin (operands : List Expr) (nonEmpty flatten : Bool) : Option Expr :=
  match operands.map asOperand with
  | [] => none
  | [e] => some e
  | [a, b] => some (function (joinFunction nonEmpty) [a, b])
  | first :: rest =>
    some (if flatten then operation "*" (first :: rest)
      else nestRight (joinFunction nonEmpty) first rest)

/-- Without operands there is no join, and only then. -/
theorem crossJoin_eq_none {operands : List Expr} {nonEmpty flatten : Bool} :
    crossJoin operands nonEmpty flatten = none ↔ operands = [] := by
  rw [← List.map_eq_nil_iff (f := asOperand), crossJoin]
  generalize operands.map asOperand = es
  rcases es with _ | ⟨_, _ | ⟨_, _ | _⟩⟩ <;> simp

end CubeQuery.Expr
