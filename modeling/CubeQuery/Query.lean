import CubeQuery.MeasureBlock
import CubeQuery.Selection.Hierarchy

/-!
# Queries

A query on a cube: its axes, what it picks of each hierarchy, its measures, its settings and its
parameters. A new query has every hierarchy of the cube, in the order of the cube, lying aside.
-/

namespace CubeQuery

/-- mirrors query/model:23-38 -/
structure Query where
  name : String
  cube : Cube
  axes : Axes
  /-- One selection for each hierarchy of the cube. -/
  hierarchies : List HierarchySelection
  calculatedMeasures : List CalculatedMeasure := []
  block : MeasureBlock := {}
  defaultHierarchize : HierarchizeMode := .pre
  visualTotals : Bool := false
  visualPattern : Option String := none
  lowestLevelsOnly : Bool := false
  parameters : Parameters := .empty
  /-- The names of aggregators by key. -/
  aggregators : Bindings (List String) := .empty

namespace Query

/-- The query on a cube that asks for nothing.
mirrors query/model:41-77 -/
def new (name : String) (cube : Cube) : Query where
  name := name
  cube := cube
  axes := { unused := { hierarchies := List.range cube.hierarchies.length } }
  hierarchies := cube.hierarchies.map HierarchySelection.new

/-! ## Hierarchies -/

/-- The last position of an element that satisfies `p`. -/
def lastIndex? {α : Type} (p : α → Bool) : List α → Option Nat
  | [] => none
  | x :: xs =>
    match lastIndex? p xs with
    | some i => some (i + 1)
    | none => if p x then some 0 else none

/-- The position of the last hierarchy of the given unique name. -/
def indexOf? (q : Query) (uniqueName : String) : Option Nat :=
  lastIndex? (·.uniqueName = uniqueName) q.hierarchies

/-- The position of the hierarchy that a name stands for: by its unique name, else the first one of
that plain name.
mirrors query/model:192-199 -/
def find? (q : Query) (name : String) : Option Nat :=
  match q.indexOf? name with
  | some i => some i
  | none => q.hierarchies.findIdx? (·.hierarchy.name = name)

/-- The hierarchy that a name stands for. -/
def hierarchy? (q : Query) (name : String) : Option HierarchySelection :=
  (q.find? name).bind (q.hierarchies[·]?)

/-- As `find?`, with a rejection for a name that stands for nothing. -/
def hierarchyIndex (q : Query) (name : String) : Except Rejection Nat :=
  match q.find? name with
  | some i => .ok i
  | none => .error (.unknown .hierarchy name)

/-- Changes the hierarchy that a name stands for. -/
def update (q : Query) (name : String)
    (f : HierarchySelection → Except Rejection HierarchySelection) : Except Rejection Query := do
  let i ← q.hierarchyIndex name
  return { q with hierarchies := ← changeAt f q.hierarchies i }

/-- The hierarchies of an axis, in joining order.
mirrors query/model:102-107 -/
def hierarchiesOn (q : Query) (l : Location) : List HierarchySelection :=
  (q.axes.get l).hierarchies.filterMap (q.hierarchies[·]?)

/-- The first level in use of the given unique name, with its hierarchy. -/
def activeLevel? (q : Query) (uniqueName : String) :
    Option (HierarchySelection × LevelSelection) :=
  q.hierarchies.findSome? fun h =>
    (h.activeLevels.find? (·.level.uniqueName = uniqueName)).map (h, ·)

/-! ## Settings -/

/-- Only the lowest level in use counts. It is always so on the filter axis.
mirrors query/model:158-160 -/
def onlyLowestLevels (q : Query) (l : Location) : Bool :=
  q.lowestLevelsOnly || l = .filter

/-- Switches visual totals for the whole query. Off, they have no pattern. -/
def setVisualTotals (q : Query) (on : Bool) : Query :=
  { q with visualTotals := on, visualPattern := if on then q.visualPattern else none }

/-- Visual totals are on for a hierarchy, by itself or by the query. -/
def hasVisualTotals (q : Query) (h : HierarchySelection) : Bool :=
  h.visualTotals || q.visualTotals

/-- The pattern of a hierarchy's visual totals, its own before the query's. -/
def visualPatternOf (q : Query) (h : HierarchySelection) : Option String :=
  h.visualPattern <|> q.visualPattern

end Query
end CubeQuery
