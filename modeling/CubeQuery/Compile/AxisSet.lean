import CubeQuery.Compile.HierarchySet

/-!
# The set of an axis

The sets of an axis's hierarchies, cross-joined, and the measures joined to them.
-/

namespace CubeQuery.Compiler

/-- The name under which the set of a hierarchy is declared on an axis. -/
def operandName (axis : AxisName) (h : Hierarchy) : Identifier :=
  .ofParts [axis.text, h.dimension, h.name]

/-- The operands of an axis's join. On a result axis every hierarchy's set is declared. -/
def operands (c : Compiler) (q : Query) (location : Location) (axis : AxisName) :
    List HierarchySelection → Except Failure (Declared (List Expr))
  | [] => return ⟨[], []⟩
  | h :: hs => do
    let set ← c.hierarchySet q h location
    let others ← c.operands q location axis hs
    match axis with
    | .slicer =>
      return ⟨set.value :: others.value, set.declarations ++ others.declarations⟩
    | _ =>
      let name := operandName axis h.hierarchy
      return ⟨.identifier name :: others.value,
        set.declarations ++ .set name set.value :: others.declarations⟩

/-- The set that an axis's hierarchies make, and whether it is the set of a single one. -/
structure Joined where
  set : Option Expr
  single : Bool

/-- The hierarchies of an axis as one set. An axis with an override does not look at them.
mirrors compiler/axis:23-52 -/
def joinedHierarchies (c : Compiler) (q : Query) (location : Location) (axis : AxisName) :
    Except Failure (Declared Joined) := do
  if (q.axes.get location).shape.base.override.isSome then return ⟨⟨none, false⟩, []⟩
  match q.hierarchiesOn location, axis with
  | [h], .columns | [h], .rows =>
    let set ← c.hierarchySet q h location
    return ⟨⟨some set.value, true⟩, set.declarations⟩
  | hs, _ =>
    let sets ← c.operands q location axis hs
    let flatten := c.options.crossJoin.flattens (axis = .slicer)
    return ⟨⟨Expr.crossJoin sets.value (q.axes.get location).nonEmpty flatten, false⟩,
      sets.declarations⟩

/-- The name under which the set of an axis is declared. -/
def axisSetName (axis : AxisName) : Identifier := .ofParts [axis.text]

/-- Declares the set of a single hierarchy under the name of its axis, if the server's flavor asks
for it.
mirrors compiler/axis:56-71 -/
def declaredAxis (c : Compiler) (axis : AxisName) (single : Bool) (set : Option Expr) :
    Declared (Option Expr) :=
  match set with
  | some set =>
    if single && c.options.declaresAxes then
      ⟨some (.identifier (axisSetName axis)), [.set (axisSetName axis) set]⟩
    else ⟨some set, []⟩
  | none => ⟨none, []⟩

/-- The declarations of the calculated measures in a list. -/
def measureDeclarations (c : Compiler) : List Measure → Except Failure (List Declaration)
  | [] => return []
  | .stored _ :: ms => c.measureDeclarations ms
  | .calculated m :: ms => do
    let d ← c.declareMember m.uniqueName m.formula m.properties
    return d :: (← c.measureDeclarations ms)

/-- The measures in braces. -/
def measureSet (ms : List Measure) : Expr := .set (ms.map fun m => .member m.uniqueName)

/-- The measures joined to a set on their side of it. -/
def besideMeasures (b : MeasureBlock) : Option Expr → Expr
  | none => measureSet b.measures
  | some set =>
    match b.side with
    | .top => .function "CrossJoin" [measureSet b.measures, set]
    | .bottom => .function "CrossJoin" [set, measureSet b.measures]

/-- The measures joined to the set of their axis.
mirrors compiler/axis:73-91 -/
def withMeasures (c : Compiler) (b : MeasureBlock) (location : Location) (set : Option Expr) :
    Except Failure (Declared (Option Expr)) := do
  if b.axis = location && !b.measures.isEmpty then
    return ⟨some (besideMeasures b set), ← c.measureDeclarations b.measures⟩
  return ⟨set, []⟩

/-- The node of an axis, none if the axis stays empty.
mirrors compiler/axis:11-98 -/
def axisNode (c : Compiler) (q : Query) (location : Location) (axis : AxisName) :
    Except Failure (Declared (Option AxisNode)) := do
  let a := q.axes.get location
  let joined ← c.joinedHierarchies q location axis
  let shaped ← c.shapedAndOrdered a.shape joined.value.set
  let declared := c.declaredAxis axis joined.value.single shaped
  let complete ← c.withMeasures q.block location declared.value
  return ⟨complete.value.map fun body => { nonEmpty := a.nonEmpty, axis, body },
    joined.declarations ++ declared.declarations ++ complete.declarations⟩

end CubeQuery.Compiler
