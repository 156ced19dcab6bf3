import CubeQuery.Change
import CubeQuery.Edit

/-!
# Changes made in place

The changes of a query as edits: the query is looked at and written to one piece after the other,
so that each check stands where it is made and a rejection keeps whatever was written before it.
`Query.edit` makes every `Change` in this way.
-/

namespace CubeQuery
namespace InPlace

/-! ## Sets -/

def shape : ShapeChange → Edit SetShape Unit
  | .override text => modify ({ · with override := some text })
  | .clearOverride => modify ({ · with override := none })
  | .addFilter f => modify (·.addFilter f)
  | .setFilter index f => do
    let s ← get
    if index < s.filters.length then set { s with filters := s.filters.set index f }
    else throw (.noFilterAt index s.filters.length)
  | .clearFilters => modify ({ · with filters := [] })

def order : OrderChange → Edit OrderedShape Unit
  | .shape c => Edit.on (·.base) (fun s base => { s with base }) (shape c)
  | .sort order expression => modify ({ · with sort := some (order, expression) })
  | .clearSort => modify ({ · with sort := none })
  | .hierarchize mode => do
    let mode ← Edit.check fun _ => HierarchizeMode.ofText mode
    modify ({ · with hierarchize := some mode })
  | .clearHierarchize => modify ({ · with hierarchize := none })

/-! ## Levels -/

def level : LevelChange → Edit LevelSelection Unit
  | .range start stop => modify ({ · with range := some (.expressions start stop) })
  | .clearRange => modify ({ · with range := none })
  | .bind parameter => modify ({ · with parameter := some parameter })
  | .unbind => modify ({ · with parameter := none })
  | .parameterPick pick => modify ({ · with parameterPick := pick })
  | .shape c => Edit.on (·.shape) (fun s shape => { s with shape }) (shape c)

/-! ## Hierarchies -/

/-- Puts a level into use: last at first, then at its place in the order of depth. -/
def activate (i : Nat) : Edit HierarchySelection Unit := do
  if i ∉ (← get).active then
    modify fun s => { s with active := s.active ++ [i] }
    modify fun s =>
      { s with active := HierarchySelection.sortByDepth s.depthAt s.active }

def pickMember (pick : Pick) (m : Member) : Edit HierarchySelection Unit := do
  let i ← Edit.check (·.levelOfMember pick m)
  activate i
  modify (·.modifyLevel i (·.pick pick m))

/-- Picks several members. All of them are checked before the first one is picked. -/
def pickMembers (pick : Pick) (ms : List Member) : Edit HierarchySelection Unit := do
  ms.forM fun m => discard (Edit.check (·.levelOfMember pick m))
  ms.forM (pickMember pick)

def includeRange (start stop : Member) : Edit HierarchySelection Unit := do
  if start.level ≠ stop.level then throw (.rangeAcrossLevels start.level stop.level)
  let s ← get
  if start.hierarchy ≠ s.uniqueName then
    throw (.rangeElsewhere start.uniqueName stop.uniqueName s.uniqueName)
  let i ← Edit.check (·.levelIndexOf start.level)
  activate i
  modify (·.modifyLevel i ({ · with range := some (.members start stop) }))

/-- Registers a calculated member and gives its position. -/
def register (m : CalculatedMember) : Edit HierarchySelection Nat := do
  let s ← get
  if m.hierarchy ≠ s.uniqueName then throw (.calculatedElsewhere m.uniqueName s.uniqueName)
  match s.calculatedIndex? m.uniqueName with
  | some i =>
    set { s with calculated := s.calculated.set i m }
    return i
  | none =>
    set { s with calculated := s.calculated ++ [m] }
    return s.calculated.length

/-- Registers a calculated member and puts it into use. Its level is looked for first, where one
is needed. -/
def includeCalculated (m : CalculatedMember) (onLevel : Bool) : Edit HierarchySelection Unit := do
  if onLevel then
    let i ← Edit.check (·.levelIndexOf m.level)
    let _ ← register m
    activate i
    modify (·.modifyLevel i (·.add m.asMember))
  else
    let i ← register m
    if i ∉ (← get).activeCalculated then
      modify fun s => { s with activeCalculated := s.activeCalculated ++ [i] }

/-- Drops what is picked on the levels in use, then takes them out of use. -/
def clear : Edit HierarchySelection Unit := do
  (← get).active.forM fun i => modify (·.modifyLevel i (·.clear))
  modify ({ · with active := [] })

def hierarchy : HierarchyChange → Edit HierarchySelection Unit
  | .includeLevel name => do
    let i ← Edit.check (·.levelIndex name)
    activate i
  | .excludeLevel name => do
    let i ← Edit.check (·.levelIndex name)
    modify fun s => { s with active := s.active.filter (· ≠ i) }
  | .clear => clear
  | .level name c => do
    let i ← Edit.check (·.levelIndex name)
    Edit.on (·.levels) (fun s levels => { s with levels }) (Edit.onElement i (level c))
  | .pick pick members => pickMembers pick members
  | .range start stop => includeRange start stop
  | .includeCalculated m onLevel => includeCalculated m onLevel
  | .excludeCalculated uniqueName => modify (·.excludeCalculated uniqueName)
  | .consistent on => modify ({ · with consistent := on })
  | .visualTotals on => do
    modify ({ · with visualTotals := on })
    if !on then modify ({ · with visualPattern := none })
  | .visualPattern pattern => do
    modify ({ · with visualPattern := some pattern })
    modify ({ · with visualTotals := true })
  | .order c => Edit.on (·.shape) (fun s shape => { s with shape }) (order c)

/-! ## Axes -/

def axis : AxisChange → Edit Axis Unit
  | .nonEmpty on => modify ({ · with nonEmpty := on })
  | .order c => Edit.on (·.shape) (fun a shape => { a with shape }) (order c)

/-! ## Queries -/

/-- Works on the hierarchy at a position. -/
def atHierarchy (i : Nat) (e : Edit HierarchySelection Unit) : Edit Query Unit :=
  Edit.on (·.hierarchies) (fun q hierarchies => { q with hierarchies }) (Edit.onElement i e)

/-- Works on the hierarchy that a name stands for. -/
def onHierarchy (name : String) (e : Edit HierarchySelection Unit) : Edit Query Unit := do
  let i ← Edit.check (·.hierarchyIndex name)
  atHierarchy i e

/-- Works on one of the axes. -/
def onAxis (l : Location) (e : Edit Axis Unit) : Edit Query Unit :=
  Edit.on (·.axes.get l) (fun q a => { q with axes := q.axes.modify l fun _ => a }) e

/-- Takes a hierarchy from its axis, puts it on the target and then gives it its location. -/
def move (name : String) (target : Location) (position : Option Nat) : Edit Query Unit := do
  let i ← Edit.check (·.hierarchyIndex name)
  let source := (← get).locationAt i
  if source = target ∧ position = none then throw (.alreadyOn name target.name)
  modify fun q => { q with axes := q.axes.modify source (·.erase i) }
  modify fun q => { q with axes := q.axes.modify target (·.insert i position) }
  modify fun q => { q with hierarchies := Query.relocate q.hierarchies [i] target }

/-- Empties an axis and gives the hierarchies that lay on it. -/
def takeHierarchies (l : Location) : Edit Query (List Nat) := do
  let ids := ((← get).axes.get l).hierarchies
  modify fun q => { q with axes := q.axes.modify l ({ · with hierarchies := [] }) }
  return ids

def putHierarchies (l : Location) (ids : List Nat) : Edit Query Unit :=
  modify fun q => { q with axes := q.axes.modify l ({ · with hierarchies := ids }) }

/-- Takes the hierarchies of columns and rows from their axes, gives each its new location and puts
them back the other way round. -/
def swapAxes : Edit Query Unit := do
  let columns ← takeHierarchies .columns
  let rows ← takeHierarchies .rows
  columns.forM fun i => modify fun q =>
    { q with hierarchies := Query.relocate q.hierarchies [i] .rows }
  rows.forM fun i => modify fun q =>
    { q with hierarchies := Query.relocate q.hierarchies [i] .columns }
  putHierarchies .columns rows
  putHierarchies .rows columns

def addCalculatedMember (m : CalculatedMember) : Edit Query Unit := do
  let q ← get
  match q.indexOf? m.hierarchy with
  | none => throw (.unknown .hierarchy m.hierarchy)
  | some i =>
    if let some parent := m.parent then
      if let some p := q.cube.memberNamed? parent then
        if p.hierarchy ≠ m.hierarchy then
          throw (.parentElsewhere parent m.name m.hierarchy)
    atHierarchy i (discard (register m))

/-- Defines a calculated member and gives it. -/
def createCalculatedMember (hierarchy name formula : String) (properties : Bindings String)
    (parent : Option Member) : Edit Query CalculatedMember := do
  match (← get).hierarchy? hierarchy with
  | none => throw (.unknown .hierarchy hierarchy)
  | some h =>
    let m := (CalculatedMember.new h.hierarchy name formula).withProperties properties
    let m := match parent with
      | some p => m.withParent p
      | none => m
    addCalculatedMember m
    return m

/-- Defines a calculated measure and gives it. A measure of the same name is dropped first. -/
def createCalculatedMeasure (name formula : String) (properties : Bindings String) :
    Edit Query CalculatedMeasure := do
  let q ← get
  if q.cube.measures.isEmpty then throw (.noMeasures q.cube.name name)
  let m := (CalculatedMeasure.new name formula).withProperties properties
  modify fun q => { q with calculatedMeasures := q.calculatedMeasures.filter (·.name ≠ name) }
  modify fun q => { q with calculatedMeasures := q.calculatedMeasures ++ [m] }
  return m

def declareParameters (names : List String) : Edit Query Unit :=
  names.forM fun name => modify (·.declareParameter name)

end InPlace

/-- Makes a change in place. -/
def Query.edit : Change → Edit Query Unit
  | .move hierarchy target position => InPlace.move hierarchy target position
  | .swapAxes => InPlace.swapAxes
  | .axis l c => InPlace.onAxis l (InPlace.axis c)
  | .hierarchy name c => InPlace.onHierarchy name (InPlace.hierarchy c)
  | .pickMember pick hierarchy member => do
    let m ← Edit.check (·.lookupMember member)
    InPlace.onHierarchy hierarchy (InPlace.pickMember pick m)
  | .range hierarchy start stop => do
    let first ← Edit.check (·.lookupMember start)
    let last ← Edit.check (·.lookupMember stop)
    InPlace.onHierarchy hierarchy (InPlace.includeRange first last)
  | .addCalculatedMember m => InPlace.addCalculatedMember m
  | .createCalculatedMember hierarchy name formula properties parent =>
    discard (InPlace.createCalculatedMember hierarchy name formula properties parent)
  | .createCalculatedMeasure name formula properties =>
    discard (InPlace.createCalculatedMeasure name formula properties)
  | .addMeasure name => do
    let m ← Edit.check (·.measure name)
    modify fun q => { q with block := q.block.add m }
  | .block c => modify fun q => { q with block := q.block.change c }
  | .lowestLevelsOnly on => modify ({ · with lowestLevelsOnly := on })
  | .defaultHierarchize mode => do
    let mode ← Edit.check fun _ => HierarchizeMode.ofText mode
    modify ({ · with defaultHierarchize := mode })
  | .visualTotals on => do
    if !on then modify ({ · with visualPattern := none })
    modify ({ · with visualTotals := on })
  | .visualPattern pattern => modify ({ · with visualPattern := some pattern })
  | .setParameter name value => modify (·.setParameter name value)
  | .setParameters parameters => modify ({ · with parameters := parameters })
  | .declareParameters names => InPlace.declareParameters names
  | .retrieveParameters => do InPlace.declareParameters (← get).parameterNames
  | .setAggregators key names => modify (·.setAggregators key names)

namespace Query

/-- The query as a change leaves it, accepted or not. -/
def after (q : Query) (c : Change) : Query := ((edit c).start q).2

/-- The query as a sequence of changes leaves it, whichever of them are accepted. -/
def afterAll (q : Query) (cs : List Change) : Query := cs.foldl after q

end Query
end CubeQuery
