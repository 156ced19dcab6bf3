import CubeQuery.Query
import CubeQuery.Text.Placeholder

/-!
# Parameters of a query

A query refers to parameters by binding levels to them and by placeholders in its texts. A
parameter it refers to can be made known to it without a value.
-/

namespace CubeQuery

/-- The parameters that a set's override refers to. -/
def SetShape.placeholders (s : SetShape) : List String :=
  match s.override with
  | some text => Text.placeholders text
  | none => []

/-- The parameters that the sort expression and then the override refer to. -/
def OrderedShape.placeholders (s : OrderedShape) : List String :=
  (match s.sort with
    | some (_, text) => Text.placeholders text
    | none => []) ++ s.base.placeholders

/-- The parameter bound to a level and those its override refers to. -/
def LevelSelection.parameterNames (s : LevelSelection) : List String :=
  s.parameter?.toList ++ s.shape.placeholders

/-- The parameters that the levels in use and the hierarchy's own set refer to. -/
def HierarchySelection.parameterNames (s : HierarchySelection) : List String :=
  s.activeLevels.flatMap (·.parameterNames) ++ s.shape.placeholders

namespace Query

/-- The value of a parameter. -/
def parameter? (q : Query) (name : String) : Option String := (q.parameters.get? name).getD none

def setParameter (q : Query) (name value : String) : Query :=
  { q with parameters := q.parameters.insert name (some value) }

/-- Makes a parameter known. A known one keeps its value, and a blank name is ignored.
mirrors query/model:408-412 -/
def declareParameter (q : Query) (name : String) : Query :=
  if Text.isBlankText name || q.parameters.contains name then q
  else { q with parameters := q.parameters.insert name none }

def declareParameters (q : Query) (names : List String) : Query :=
  names.foldl declareParameter q

/-- The parameters that the query refers to: axis by axis, the hierarchies of an axis before the
axis's own set. -/
def parameterNames (q : Query) : List String :=
  Location.all.flatMap fun l =>
    (q.hierarchiesOn l).flatMap (·.parameterNames) ++ (q.axes.get l).shape.placeholders

/-- Makes all parameters known that the query refers to.
mirrors query/model:425-442 -/
def retrieveParameters (q : Query) : Query := q.declareParameters q.parameterNames

/-! ## Aggregators -/

/-- Sets the aggregators of a key. A blank key is ignored.
mirrors query/model:447-451 -/
def setAggregators (q : Query) (key : String) (names : List String) : Query :=
  if Text.isBlankText key then q else { q with aggregators := q.aggregators.insert key names }

def aggregatorsOf (q : Query) (key : String) : List String := (q.aggregators.get? key).getD []

end Query
end CubeQuery
