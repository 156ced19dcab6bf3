import CubeQuery.Compile
import CubeQuery.Outcome

/-!
# What compilation demands

Compilation can stop at four things: a name that is no identifier, a text that the reader refuses, a
hierarchy without a default member, and a parameter's value that names no members. Which of them a
query brings, and in which order compilation meets them, can be told without compiling it.
-/

namespace CubeQuery

/-- What compilation needs from outside. -/
inductive Demand where
  /-- A unique name to declare something under. -/
  | name (uniqueName : String)
  /-- A text to read. -/
  | text (text : String)
  | defaultMember (h : Hierarchy)
  /-- The members that a parameter's value names on a level. -/
  | value (level : Level) (value : String)

/-- How the compiler fails on a demand that is not met. -/
def Compiler.refusal? (c : Compiler) : Demand → Option Failure
  | .name uniqueName =>
    match Identifier.parse? uniqueName with
    | some _ => none
    | none => some (.badName uniqueName)
  | .text text => failure? (c.expr text)
  | .defaultMember h =>
    match c.source.default? h with
    | some _ => none
    | none => some (.noDefaultMember h.uniqueName)
  | .value level value => failure? (c.valueMembers level value)

/-- The first failure among several demands. -/
def Compiler.firstRefusal? (c : Compiler) (ds : List Demand) : Option Failure :=
  ds.findSome? c.refusal?

/-! ## Shapes -/

/-- The texts that a filter reads. -/
def SetFilter.texts : SetFilter → List String
  | .predicate text => [text]
  | .ranking _ _ text => text.toList
  | .name .. => []

def SetShape.filterTexts (s : SetShape) : List String := s.filters.flatMap (·.texts)

/-- The texts that a shape reads. An override is read in braces. -/
def SetShape.texts (s : SetShape) : List String :=
  (s.override.map fun text => "\x7b" ++ text ++ "\x7d").toList ++ s.filterTexts

def OrderedShape.texts (s : OrderedShape) : List String :=
  s.base.texts ++ (s.sort.map (·.2)).toList

/-- The text of a range that is given as written, both bounds in one. -/
def LevelRange.texts : LevelRange → List String
  | .members .. => []
  | .expressions start stop =>
    match stop.filter (fun t => !Text.isBlankText t) with
    | some stop => [start ++ " : " ++ stop]
    | none => [start]

/-- The hierarchies that compilation looks at on an axis: none under an override. -/
def Query.joinedOn (q : Query) (l : Location) : List HierarchySelection :=
  if (q.axes.get l).shape.base.override.isSome then [] else q.hierarchiesOn l

namespace Compiler

/-! ## Levels and hierarchies -/

def memberDemands (uniqueName formula : String) : List Demand := [.name uniqueName, .text formula]

def levelDemands (c : Compiler) (parameters : Parameters) (h : Hierarchy) (s : LevelSelection) :
    List Demand :=
  ((c.valueOn parameters s).map (Demand.value s.level)).toList ++
    (if s.level.isAll then [.defaultMember h] else []) ++
      (((s.range.map (·.texts)).getD []) ++ s.shape.texts).map .text

/-- An override takes the place of the levels. -/
def hierarchyDemands (c : Compiler) (parameters : Parameters) (h : HierarchySelection) :
    List Demand :=
  if h.shape.base.override.isSome then h.shape.texts.map .text
  else if h.activeLevels.isEmpty && h.activeCalculatedMembers.isEmpty then []
  else
    h.activeLevels.flatMap (c.levelDemands parameters h.hierarchy) ++ h.shape.texts.map .text

/-! ## Queries -/

def measureDemands : Measure → List Demand
  | .stored _ => []
  | .calculated m => memberDemands m.uniqueName m.formula

/-- An axis with neither hierarchies nor an override has nothing to shape. -/
def axisDemands (c : Compiler) (q : Query) (l : Location) : List Demand :=
  let shape := (q.axes.get l).shape
  (q.joinedOn l).flatMap (c.hierarchyDemands q.parameters) ++
    ((if shape.base.override.isSome || !(q.joinedOn l).isEmpty then shape.texts.map .text else [])
      ++ if q.block.axis = l then q.block.measures.flatMap measureDemands else [])

/-- All that the statement of a query demands, in the order in which it is met. -/
def demands (c : Compiler) (q : Query) : List Demand :=
  q.calculatedMembers.flatMap (fun m => memberDemands m.uniqueName m.formula) ++
    c.axisDemands q .columns ++ c.axisDemands q .rows ++
      if (q.axes.get .filter).hierarchies.isEmpty then [] else c.axisDemands q .filter

end Compiler

/-- What the statement of a query demands on its own cube. -/
def Query.demands (q : Query) (options : Options) : List Demand :=
  (Compiler.ofCube q.cube options).demands q

end CubeQuery
