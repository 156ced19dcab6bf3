import CubeQuery.Rejection

/-!
# Shapes of sets

What a query can ask of the set of a level, a hierarchy or an axis: to replace it by a text of its
own, to filter it, and for hierarchies and axes also to sort it or to bring it into the order of
its hierarchy.
-/

namespace CubeQuery

/-- An override of a set and the filters applied to it.
mirrors query/set:75-78 -/
structure SetShape where
  /-- The text that replaces the set. -/
  override : Option String := none
  filters : List SetFilter := []
  deriving DecidableEq, Repr, Inhabited

namespace SetShape

/-- The shape that leaves a set as it is. -/
def isPlain (s : SetShape) : Bool := s.override.isNone && s.filters.isEmpty

def addFilter (s : SetShape) (f : SetFilter) : SetShape := { s with filters := s.filters ++ [f] }

/-- Replaces the filter at an index.
mirrors query/set:99-106 -/
def setFilter (s : SetShape) (index : Nat) (f : SetFilter) : Except Rejection SetShape :=
  if index < s.filters.length then .ok { s with filters := s.filters.set index f }
  else .error (.noFilterAt index s.filters.length)

end SetShape

/-- The direction of a sort, and whether it breaks up the hierarchy. -/
inductive SortOrder where
  | asc
  | desc
  | basc
  | bdesc
  deriving DecidableEq, Repr, Inhabited

def SortOrder.symbol : SortOrder → String
  | .asc => "ASC"
  | .desc => "DESC"
  | .basc => "BASC"
  | .bdesc => "BDESC"

/-- Whether a parent stands before or after its children. -/
inductive HierarchizeMode where
  | pre
  | post
  deriving DecidableEq, Repr, Inhabited

def HierarchizeMode.symbol : HierarchizeMode → String
  | .pre => "PRE"
  | .post => "POST"

/-- The mode that a text names, in any case and between blanks.
mirrors query/set:55-64 -/
def HierarchizeMode.ofText (text : String) : Except Rejection HierarchizeMode :=
  let word := (Text.trimmed text).toUpper
  if word = "PRE" then .ok .pre
  else if word = "POST" then .ok .post
  else .error (.unknownMode text)

/-- The order of a set: an expression to sort by, and the mode to hierarchize in.
mirrors query/set:124-128 -/
structure OrderedShape where
  base : SetShape := {}
  sort : Option (SortOrder × String) := none
  hierarchize : Option HierarchizeMode := none
  deriving DecidableEq, Repr, Inhabited

end CubeQuery
