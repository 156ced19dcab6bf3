import CubeQuery.Flavor

/-!
# Options of compilation
-/

namespace CubeQuery

/-- How joins of three and more sets are written. -/
inductive JoinNotation where
  | nested
  | flattened
  /-- Flattened on the filter axis, nested elsewhere. -/
  | flattenOnFilterAxis
  deriving DecidableEq, Repr

/-- Joins on an axis are written flat.
mirrors compiler/options:21-27 -/
def JoinNotation.flattens (j : JoinNotation) (filterAxis : Bool) : Bool :=
  match j with
  | .nested => false
  | .flattened => true
  | .flattenOnFilterAxis => filterAxis

/-- mirrors compiler/options:39-45 -/
structure Options where
  crossJoin : JoinNotation := .flattenOnFilterAxis
  /-- The values of bound parameters are looked up and picked on their levels. -/
  legacyParameters : Bool := false
  /-- The server to write for. Every one but Microsoft's gets a declared set for an axis of one
  hierarchy. -/
  flavor : Option Flavor := none
  deriving DecidableEq, Repr

/-- A result axis of one hierarchy is declared as a set. -/
def Options.declaresAxes (o : Options) : Bool :=
  match o.flavor with
  | none => false
  | some f => f ≠ .microsoft

end CubeQuery
