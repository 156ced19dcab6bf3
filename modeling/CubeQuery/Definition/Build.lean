import CubeQuery.Definition
import CubeQuery.Query.Members
import CubeQuery.Query.Parameters
import CubeQuery.Query.Placement

/-!
# Building queries

A definition becomes a query by the changes it asks for, one after the other: settings and
parameters, calculated measures, the three axes with their hierarchies, and the measures at last.
The first change that is rejected ends it.
-/

namespace CubeQuery

/-- The filter of an entry on a hierarchy, if it stands on one.
mirrors query/request:228-253 -/
def FilterEntry.filter (e : FilterEntry) (hierarchy : Option String) :
    Except Rejection SetFilter :=
  match e with
  | .predicate text => .ok (.predicate text)
  | .ranking function count text => .ok (.ranking function count text)
  | .name own values operator =>
    match own <|> hierarchy with
    | none => .error .filterWithoutHierarchy
    | some h => .ok (.name h values (.ofWord (operator.getD "")))

/-- What an entry asks of a set, on top of its shape so far.
mirrors query/request:413-434 -/
def ShapeEntry.apply (e : ShapeEntry) (hierarchy : Option String) (s : OrderedShape) :
    Except Rejection OrderedShape := do
  let mode ← e.hierarchize.mapM HierarchizeMode.ofText
  let filters ← e.filters.mapM (·.filter hierarchy)
  return {
    base :=
      { override := e.override <|> s.base.override, filters := s.base.filters ++ filters }
    sort := e.sort.map (fun t => (t.order, t.expression)) <|> s.sort
    hierarchize := mode <|> s.hierarchize }

/-- What a detail picks on a level, on top of what is picked already.
mirrors query/request:396-411 -/
def LevelDetail.apply (d : LevelDetail) (hierarchy : String) (s : LevelSelection) :
    Except Rejection LevelSelection := do
  let filters ← d.filters.mapM (·.filter (some hierarchy))
  return { s with
    parameter := d.parameter <|> s.parameter
    parameterPick := if d.parameter.isSome then d.parameterPick else s.parameterPick
    range := d.range.map (fun (start, stop) => .expressions start stop) <|> s.range
    shape :=
      { override := d.override <|> s.shape.override, filters := s.shape.filters ++ filters } }

/-- Puts a level of a hierarchy into use. -/
def LevelChoice.apply (e : LevelChoice) (hierarchy : String) (q : Query) :
    Except Rejection Query := do
  let q ← q.update hierarchy (·.includeLevel e.name)
  match e.detail with
  | none => return q
  | some d => q.update hierarchy (·.updateLevel e.name (d.apply hierarchy))

/-- Defines a calculated member and puts it into use. -/
def CalculatedEntry.apply (e : CalculatedEntry) (hierarchy : String) (q : Query) :
    Except Rejection Query := do
  let parent ← e.parent.mapM q.lookupMember
  match q.hierarchy? hierarchy with
  | none => throw (.unknown .hierarchy hierarchy)
  | some h =>
    let m := (CalculatedMember.new h.hierarchy e.name e.formula).withProperties e.properties
    let m := match e.level with
      | some level => m.withLevel h.hierarchy level
      | none => m
    let m := match parent with
      | some p => m.withParent p
      | none => m
    let q ← q.addCalculatedMember m
    q.update hierarchy (·.includeCalculated m e.onLevel)

/-- The consistency and the totals that a choice asks for. -/
def HierarchyChoice.settings (e : HierarchyChoice) (s : HierarchySelection) :
    HierarchySelection :=
  let s := { s with consistent := e.consistent.getD s.consistent }
  let s := if e.visualTotals then s.setVisualTotals true else s
  match e.visualPattern with
  | some pattern => s.setVisualPattern pattern
  | none => s

/-- All that is picked of a hierarchy.
mirrors query/request:330-394 -/
def HierarchyChoice.apply (e : HierarchyChoice) (q : Query) : Except Rejection Query := do
  match q.hierarchy? e.name with
  | none => throw (.unknown .hierarchy e.name)
  | some h =>
    let name := h.uniqueName
    let q ← e.levels.foldlM (fun q l => l.apply name q) q
    let q ← e.included.foldlM (fun q m => q.pickMember .inclusion name m) q
    let q ← e.excluded.foldlM (fun q m => q.pickMember .exclusion name m) q
    let q ← match e.range with
      | some r => q.includeRange name r.start r.stop
      | none => pure q
    let q ← e.calculated.foldlM (fun q m => m.apply name q) q
    q.update name fun h => do
      return { e.settings h with shape := ← e.shape.apply (some name) h.shape }

/-- The hierarchies of an axis, moved there in turn, and the axis's own settings.
mirrors query/request:313-328 -/
def AxisEntry.apply (e : AxisEntry) (l : Location) (q : Query) : Except Rejection Query := do
  let q ← e.hierarchies.foldlM (fun q h => do h.apply (← q.move h.name l none)) q
  let shape ← e.shape.apply none (q.axes.get l).shape
  return { q with
    axes := q.axes.modify l ({ · with nonEmpty := e.nonEmpty, shape := shape }) }

/-- The measures and their place. -/
def BlockEntry.apply (e : BlockEntry) (q : Query) : Except Rejection Query :=
  e.measures.foldlM Query.addMeasure
    { q with block := { q.block with axis := e.axis, side := e.side } }

namespace Definition

/-- Makes a parameter known, with its value if it has one. -/
def bind (q : Query) (parameter : String × Option String) : Query :=
  match parameter.2 with
  | some value => q.setParameter parameter.1 value
  | none => q.declareParameter parameter.1

/-- The query that a definition asks for, on the cube it names.
mirrors query/request:268-310 -/
def build (d : Definition) (catalog : Catalog) : Except Rejection Query := do
  let some cube := catalog.cube? d.cube | throw (.unknown .cube d.cube)
  let q := { Query.new d.name cube with lowestLevelsOnly := d.lowestLevelsOnly }
  let q := q.setVisualTotals d.visualTotals
  let q := { q with visualPattern := d.visualPattern <|> q.visualPattern }
  let mode ← d.defaultHierarchize.mapM HierarchizeMode.ofText
  let q := { q with defaultHierarchize := mode.getD q.defaultHierarchize }
  let q := d.parameters.entries.foldl bind q
  let q ← d.calculatedMeasures.foldlM
    (fun q m => return (← q.createCalculatedMeasure m.name m.formula m.properties).1) q
  let q ← d.columns.apply .columns q
  let q ← d.rows.apply .rows q
  let q ← d.filter.apply .filter q
  match d.block with
  | some b => b.apply q
  | none => return q

end Definition
end CubeQuery
