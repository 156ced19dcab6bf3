import CubeQuery.SetShape
import CubeQuery.Statement

/-!
# Axes of a query

A hierarchy lies on one of four locations: the two result axes, the filter axis, or aside. An axis
lists its hierarchies, by their positions in the cube, in the order in which they are joined.
-/

namespace CubeQuery

/-- Where a hierarchy lies.
mirrors query/axis:11-16 -/
inductive Location where
  | unused
  | columns
  | rows
  | filter
  deriving DecidableEq, Repr, Inhabited

namespace Location

def all : List Location := [unused, columns, rows, filter]

theorem mem_all (l : Location) : l ∈ all := by cases l <;> decide

/-- The axis of the statement, none for the hierarchies that lie aside. -/
def axisName? : Location → Option AxisName
  | unused => none
  | columns => some .columns
  | rows => some .rows
  | filter => some .slicer

def name (l : Location) : String :=
  match l.axisName? with
  | some axis => axis.text
  | none => "UNUSED"

end Location

/-- An axis: its hierarchies in joining order, and what is asked of their joint set.
mirrors query/axis:60-65 -/
structure Axis where
  hierarchies : List Nat := []
  nonEmpty : Bool := false
  shape : OrderedShape := {}
  deriving DecidableEq, Repr, Inhabited

namespace Axis

/-- Puts a hierarchy at a position of the axis, at its end without a position or past the end.
mirrors query/axis:106-111 -/
def insert (a : Axis) (h : Nat) (position : Option Nat) : Axis :=
  match position with
  | some i => { a with hierarchies := a.hierarchies.insertIdx (min i a.hierarchies.length) h }
  | none => { a with hierarchies := a.hierarchies ++ [h] }

def erase (a : Axis) (h : Nat) : Axis :=
  { a with hierarchies := a.hierarchies.filter (· ≠ h) }

end Axis

/-- One axis for each location. -/
structure Axes where
  unused : Axis := {}
  columns : Axis := {}
  rows : Axis := {}
  filter : Axis := {}
  deriving DecidableEq, Repr, Inhabited

namespace Axes

def get (as : Axes) : Location → Axis
  | .unused => as.unused
  | .columns => as.columns
  | .rows => as.rows
  | .filter => as.filter

/-- Changes the axis of one location. -/
def modify (as : Axes) (l : Location) (f : Axis → Axis) : Axes :=
  match l with
  | .unused => { as with unused := f as.unused }
  | .columns => { as with columns := f as.columns }
  | .rows => { as with rows := f as.rows }
  | .filter => { as with filter := f as.filter }

theorem get_modify (as : Axes) (l m : Location) (f : Axis → Axis) :
    (as.modify l f).get m = if l = m then f (as.get m) else as.get m := by
  cases l <;> cases m <;> rfl

theorem modify_get (as : Axes) (l : Location) : (as.modify l fun _ => as.get l) = as := by
  cases l <;> rfl

end Axes
end CubeQuery
