import CubeQuery.Query.Members
import CubeQuery.Query.Parameters
import CubeQuery.Query.Placement

/-!
# Changes of a query

Every change that can be made to a query, as data: what happens to the shape of a set, to what is
picked on a level or of a hierarchy, to an axis, to the measure block and to the query itself. A
change gives a new query or is rejected; there is no third outcome, so a rejected change leaves
nothing behind.
-/

namespace CubeQuery

/-! ## Sets -/

inductive ShapeChange where
  | override (text : String)
  | clearOverride
  | addFilter (f : SetFilter)
  | setFilter (index : Nat) (f : SetFilter)
  | clearFilters
  deriving DecidableEq, Repr

def SetShape.change (s : SetShape) : ShapeChange → Except Rejection SetShape
  | .override text => return { s with override := some text }
  | .clearOverride => return { s with override := none }
  | .addFilter f => return s.addFilter f
  | .setFilter index f => s.setFilter index f
  | .clearFilters => return { s with filters := [] }

inductive OrderChange where
  | shape (c : ShapeChange)
  | sort (order : SortOrder) (expression : String)
  | clearSort
  /-- The mode as it is written. -/
  | hierarchize (mode : String)
  | clearHierarchize
  deriving DecidableEq, Repr

def OrderedShape.change (s : OrderedShape) : OrderChange → Except Rejection OrderedShape
  | .shape c => return { s with base := ← s.base.change c }
  | .sort order expression => return { s with sort := some (order, expression) }
  | .clearSort => return { s with sort := none }
  | .hierarchize mode => return { s with hierarchize := some (← HierarchizeMode.ofText mode) }
  | .clearHierarchize => return { s with hierarchize := none }

/-! ## Levels and hierarchies -/

inductive LevelChange where
  | range (start : String) (stop : Option String)
  | clearRange
  | bind (parameter : String)
  | unbind
  /-- Which list the value of the bound parameter replaces. -/
  | parameterPick (pick : Pick)
  | shape (c : ShapeChange)
  deriving DecidableEq, Repr

def LevelSelection.change (s : LevelSelection) : LevelChange → Except Rejection LevelSelection
  | .range start stop => return { s with range := some (.expressions start stop) }
  | .clearRange => return { s with range := none }
  | .bind parameter => return { s with parameter := some parameter }
  | .unbind => return { s with parameter := none }
  | .parameterPick pick => return { s with parameterPick := pick }
  | .shape c => return { s with shape := ← s.shape.change c }

inductive HierarchyChange where
  | includeLevel (name : String)
  | excludeLevel (name : String)
  /-- Takes all levels out of use and drops what was picked on them. -/
  | clear
  | level (name : String) (c : LevelChange)
  | pick (pick : Pick) (members : List Member)
  | range (start stop : Member)
  | includeCalculated (m : CalculatedMember) (onLevel : Bool)
  | excludeCalculated (uniqueName : String)
  | consistent (on : Bool)
  | visualTotals (on : Bool)
  | visualPattern (pattern : String)
  | order (c : OrderChange)

def HierarchySelection.change (s : HierarchySelection) :
    HierarchyChange → Except Rejection HierarchySelection
  | .includeLevel name => s.includeLevel name
  | .excludeLevel name => s.excludeLevel name
  | .clear => return s.clear
  | .level name c => s.updateLevel name (·.change c)
  | .pick pick members => s.pickMembers pick members
  | .range start stop => s.includeRange start stop
  | .includeCalculated m onLevel => s.includeCalculated m onLevel
  | .excludeCalculated uniqueName => return s.excludeCalculated uniqueName
  | .consistent on => return { s with consistent := on }
  | .visualTotals on => return s.setVisualTotals on
  | .visualPattern pattern => return s.setVisualPattern pattern
  | .order c => return { s with shape := ← s.shape.change c }

/-! ## Axes and the measure block -/

inductive AxisChange where
  | nonEmpty (on : Bool)
  | order (c : OrderChange)
  deriving DecidableEq, Repr

def Axis.change (a : Axis) : AxisChange → Except Rejection Axis
  | .nonEmpty on => return { a with nonEmpty := on }
  | .order c => return { a with shape := ← a.shape.change c }

inductive BlockChange where
  | add (m : Measure)
  | place (m : Measure) (position : Nat)
  | erase (uniqueName : String)
  | clear
  | axis (l : Location)
  | side (s : Side)

def MeasureBlock.change (b : MeasureBlock) : BlockChange → MeasureBlock
  | .add m => b.add m
  | .place m position => b.place m position
  | .erase uniqueName => b.erase uniqueName
  | .clear => b.clear
  | .axis l => { b with axis := l }
  | .side s => { b with side := s }

/-! ## Queries -/

inductive Change where
  | move (hierarchy : String) (target : Location) (position : Option Nat)
  | swapAxes
  | axis (l : Location) (c : AxisChange)
  | hierarchy (name : String) (c : HierarchyChange)
  /-- Picks the member of a written name. -/
  | pickMember (pick : Pick) (hierarchy member : String)
  /-- Picks the range between the members of two written names. -/
  | range (hierarchy start stop : String)
  | addCalculatedMember (m : CalculatedMember)
  | createCalculatedMember (hierarchy name formula : String) (properties : Bindings String)
    (parent : Option Member)
  | createCalculatedMeasure (name formula : String) (properties : Bindings String)
  | addMeasure (name : String)
  | block (c : BlockChange)
  | lowestLevelsOnly (on : Bool)
  /-- The mode as it is written. -/
  | defaultHierarchize (mode : String)
  | visualTotals (on : Bool)
  | visualPattern (pattern : String)
  | setParameter (name value : String)
  | setParameters (parameters : Parameters)
  | declareParameters (names : List String)
  | retrieveParameters
  | setAggregators (key : String) (names : List String)

def Query.change (q : Query) : Change → Except Rejection Query
  | .move hierarchy target position => q.move hierarchy target position
  | .swapAxes => return q.swapAxes
  | .axis l c => do
    let a ← (q.axes.get l).change c
    return { q with axes := q.axes.modify l fun _ => a }
  | .hierarchy name c => q.update name (·.change c)
  | .pickMember pick hierarchy member => q.pickMember pick hierarchy member
  | .range hierarchy start stop => q.includeRange hierarchy start stop
  | .addCalculatedMember m => q.addCalculatedMember m
  | .createCalculatedMember hierarchy name formula properties parent =>
    return (← q.createCalculatedMember hierarchy name formula properties parent).1
  | .createCalculatedMeasure name formula properties =>
    return (← q.createCalculatedMeasure name formula properties).1
  | .addMeasure name => q.addMeasure name
  | .block c => return { q with block := q.block.change c }
  | .lowestLevelsOnly on => return { q with lowestLevelsOnly := on }
  | .defaultHierarchize mode =>
    return { q with defaultHierarchize := ← HierarchizeMode.ofText mode }
  | .visualTotals on => return q.setVisualTotals on
  | .visualPattern pattern => return { q with visualPattern := some pattern }
  | .setParameter name value => return q.setParameter name value
  | .setParameters parameters => return { q with parameters := parameters }
  | .declareParameters names => return q.declareParameters names
  | .retrieveParameters => return q.retrieveParameters
  | .setAggregators key names => return q.setAggregators key names

end CubeQuery
