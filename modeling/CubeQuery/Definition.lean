import CubeQuery.Query

/-!
# Query definitions

A query written down as a document: what is to lie on each axis, what is to be picked of each
hierarchy, the measures and the settings. Names are still only names.
-/

namespace CubeQuery

/-- A filter as written down. -/
inductive FilterEntry where
  | predicate (expression : String)
  | ranking (function : Ranking) (count : UInt32) (expression : Option String)
  /-- Without a hierarchy of its own it takes the one it stands on. -/
  | name (hierarchy : Option String) (values : List String) (operator : Option String)
  deriving DecidableEq, Repr

structure SortEntry where
  order : SortOrder
  expression : String
  deriving DecidableEq, Repr

/-- A range between two members, by their unique names. -/
structure RangeEntry where
  start : String
  stop : String
  deriving DecidableEq, Repr

/-- What is picked on a level. -/
structure LevelDetail where
  override : Option String := none
  filters : List FilterEntry := []
  parameter : Option String := none
  parameterPick : Pick := .inclusion
  /-- A range between two texts, or one text alone. -/
  range : Option (String × Option String) := none
  deriving DecidableEq, Repr

/-- A level to put into use, with what is picked on it if that is written down. -/
structure LevelChoice where
  name : String
  detail : Option LevelDetail := none
  deriving DecidableEq, Repr

/-- A calculated member or measure. -/
structure CalculatedEntry where
  name : String
  formula : String
  properties : Bindings String := .empty
  /-- The unique name of the parent. -/
  parent : Option String := none
  /-- The unique name of the level. -/
  level : Option String := none
  onLevel : Bool := false

/-- The order and the shape of a set. -/
structure ShapeEntry where
  sort : Option SortEntry := none
  hierarchize : Option String := none
  override : Option String := none
  filters : List FilterEntry := []
  deriving DecidableEq, Repr

structure HierarchyChoice where
  name : String
  levels : List LevelChoice := []
  included : List String := []
  excluded : List String := []
  range : Option RangeEntry := none
  calculated : List CalculatedEntry := []
  shape : ShapeEntry := {}
  visualTotals : Bool := false
  visualPattern : Option String := none
  consistent : Option Bool := none

structure AxisEntry where
  nonEmpty : Bool := false
  shape : ShapeEntry := {}
  hierarchies : List HierarchyChoice := []

structure BlockEntry where
  measures : List String
  axis : Location := .columns
  side : Side := .bottom
  deriving DecidableEq, Repr

/-- mirrors query/request:36-58 -/
structure Definition where
  name : String
  cube : String
  lowestLevelsOnly : Bool := false
  visualTotals : Bool := false
  visualPattern : Option String := none
  defaultHierarchize : Option String := none
  parameters : Bindings (Option String) := .empty
  calculatedMeasures : List CalculatedEntry := []
  block : Option BlockEntry := none
  columns : AxisEntry := {}
  rows : AxisEntry := {}
  filter : AxisEntry := {}

end CubeQuery
