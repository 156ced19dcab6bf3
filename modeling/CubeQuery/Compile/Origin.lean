import CubeQuery.Compile.AxisSet

/-!
# What sets are declared for

Compilation declares a set for a level, for a hierarchy that is an operand of an axis, or for a
whole axis. Which ones a query needs can be told without compiling it.
-/

namespace CubeQuery

/-- What a set is declared for. -/
inductive SetOrigin where
  | level (dimension hierarchy level : String)
  | operand (axis : AxisName) (dimension hierarchy : String)
  | axis (axis : AxisName)
  deriving DecidableEq, Repr

namespace SetOrigin

def parts : SetOrigin → List String
  | level d h l => [d, h, l]
  | operand a d h => [a.text, d, h]
  | axis a => [a.text]

/-- The name under which the set is declared. -/
def name (o : SetOrigin) : Identifier := .ofParts o.parts

end SetOrigin

/-- The sets declared for the levels of a hierarchy. -/
def HierarchySelection.setOrigins (h : HierarchySelection) (parameters : Parameters) :
    List SetOrigin :=
  if h.shape.base.override.isNone && (Compiler.Linkage.of parameters h.activeLevels).declares then
    h.activeLevels.map fun l => .level h.hierarchy.dimension h.hierarchy.name l.level.name
  else []

/-- The sets declared for a hierarchy among others on an axis. On a result axis its own set comes
last. -/
def HierarchySelection.operandOrigins (h : HierarchySelection) (parameters : Parameters)
    (axis : AxisName) : List SetOrigin :=
  h.setOrigins parameters ++
    if axis = .slicer then [] else [.operand axis h.hierarchy.dimension h.hierarchy.name]

/-- The sets declared for an axis and what lies on it. -/
def Query.axisOrigins (q : Query) (options : Options) (location : Location) (axis : AxisName) :
    List SetOrigin :=
  if (q.axes.get location).shape.base.override.isSome then []
  else
    match q.hierarchiesOn location, axis with
    | [h], .columns | [h], .rows =>
      h.setOrigins q.parameters ++ if options.declaresAxes then [.axis axis] else []
    | hs, _ => hs.flatMap (·.operandOrigins q.parameters axis)

/-- All sets that the statement of a query declares, in order. -/
def Query.setOrigins (q : Query) (options : Options) : List SetOrigin :=
  q.axisOrigins options .columns .columns ++ q.axisOrigins options .rows .rows ++
    q.axisOrigins options .filter .slicer

end CubeQuery
