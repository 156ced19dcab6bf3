import CubeQuery.Definition
import CubeQuery.Yaml.Value

/-!
# Definitions as documents

Filters and levels are read as typed values; all else is read as text wherever text is asked for.
-/

namespace CubeQuery

open Yaml

/-! ## Filters -/

/-- The kinds of filters. -/
inductive FilterKind where
  | predicate
  | ranking (r : Ranking)
  | name
  deriving DecidableEq, Repr

def FilterKind.words : List (String × FilterKind) :=
  [("generic", .predicate), ("topCount", .ranking .topCount),
    ("topPercent", .ranking .topPercent), ("topSum", .ranking .topSum),
    ("bottomCount", .ranking .bottomCount), ("bottomPercent", .ranking .bottomPercent),
    ("bottomSum", .ranking .bottomSum), ("name", .name)]

/-- A filter of a known kind from what is written beside the kind. -/
def FilterEntry.ofFields? (kind : FilterKind) (fields : Value) : Option FilterEntry := do
  match kind with
  | .predicate =>
    let r ← fields.record? ["expression"]
    return .predicate (← r.required "expression" Value.text?)
  | .ranking function =>
    let r ← fields.record? ["n", "expression"]
    return .ranking function (← r.required "n" Value.word32?)
      (← r.optionalValue "expression" Value.text?)
  | .name =>
    let r ← fields.record? ["hierarchy", "values", "operator"]
    return .name (← r.optionalValue "hierarchy" Value.text?)
      (← r.required "values" (Value.list? Value.text?))
      (← r.optionalValue "operator" Value.text?)

/-- The entry of a mapping that tells the kind. -/
def isTypeKey : Value × Value → Bool
  | (.text "type", _) => true
  | _ => false

/-- A filter: a mapping with the kind under `type`, or a list that begins with the kind. -/
def FilterEntry.ofTagged? (kind : Value → Option FilterKind) : Value → Option FilterEntry
  | .map entries => do
    let [(_, tag)] := entries.filter isTypeKey | none
    ofFields? (← kind tag) (.map (entries.filter (!isTypeKey ·)))
  | .list (tag :: fields) => do
    ofFields? (← kind tag) (.list fields)
  | _ => none

/-- The kind by its word. -/
def FilterKind.ofText? (v : Value) : Option FilterKind :=
  v.text?.bind fun s => List.lookup s words

/-- The kind by its word or its place among the words. -/
def FilterKind.ofName? (v : Value) : Option FilterKind :=
  (v.name? (words.map (·.1))).bind fun s => List.lookup s words

/-- A filter that lies in so many collections. -/
def FilterEntry.ofNode? (around : Nat) (n : Node) : Option FilterEntry :=
  (Value.ofNode? around n).bind (ofTagged? FilterKind.ofText?)

/-! ## Levels -/

def Pick.words : List (String × Pick) :=
  [("inclusion", .inclusion), ("exclusion", .exclusion)]

/-- A range of texts. -/
def textRange? (v : Value) : Option (String × Option String) := do
  let r ← v.record? ["start", "end"]
  return (← r.required "start" Value.text?, ← r.optionalValue "end" Value.text?)

/-- A level with what is picked on it. -/
def LevelChoice.ofDetail? (v : Value) : Option LevelChoice := do
  let r ← v.record? ["name", "mdx", "filters", "parameter", "selection", "range"]
  let name ← r.required "name" Value.text?
  let detail : LevelDetail := {
    override := ← r.optionalValue "mdx" Value.text?
    filters := ← r.withDefault "filters" []
      (Value.list? (FilterEntry.ofTagged? FilterKind.ofName?))
    parameter := ← r.optionalValue "parameter" Value.text?
    parameterPick := ← r.withDefault "selection" .inclusion (Value.word? Pick.words)
    range := ← r.optionalValue "range" textRange? }
  return { name, detail := some detail }

/-- A level by its name alone or with what is picked on it. Around it are its list, the hierarchy,
the list of hierarchies, the axis and the document. -/
def LevelChoice.ofNode? (n : Node) : Option LevelChoice :=
  (Value.ofNode? 5 n).bind fun
    | .text name => some { name }
    | v => ofDetail? v

/-! ## Hierarchies and axes -/

def SortOrder.words : List (String × SortOrder) :=
  [("ASC", .asc), ("DESC", .desc), ("BASC", .basc), ("BDESC", .bdesc)]

def SortEntry.ofNode? (n : Node) : Option SortEntry := do
  let r ← n.record? ["order", "by"]
  return {
    order := ← r.required "order" (Node.word? SortOrder.words)
    expression := ← r.required "by" Node.text? }

def RangeEntry.ofNode? (n : Node) : Option RangeEntry := do
  let r ← n.record? ["start", "end"]
  return { start := ← r.required "start" Node.text?, stop := ← r.required "end" Node.text? }

/-- Names bound to texts. The last text of a name counts. -/
def properties? (n : Node) : Option (Bindings String) :=
  (n.pairs? Node.text?).map Bindings.ofList

def CalculatedEntry.ofNode? (n : Node) : Option CalculatedEntry := do
  let r ← n.record? ["name", "formula", "properties", "parent", "level", "includeAsMember"]
  return {
    name := ← r.required "name" Node.text?
    formula := ← r.required "formula" Node.text?
    properties := ← r.withDefault "properties" .empty properties?
    parent := ← r.optional "parent" Node.text?
    level := ← r.optional "level" Node.text?
    onLevel := ← r.withDefault "includeAsMember" false Node.bool? }

/-- The fields that hierarchies and axes share. -/
def ShapeEntry.names : List String := ["sort", "hierarchizeMode", "mdx", "filters"]

/-- The shape that a record sets, with as many collections around its filters as given. -/
def ShapeEntry.ofRecord? (around : Nat) (r : Record Node) : Option ShapeEntry := do
  return {
    sort := ← r.optional "sort" SortEntry.ofNode?
    hierarchize := ← r.optional "hierarchizeMode" Node.text?
    override := ← r.optional "mdx" Node.text?
    filters := ← r.withDefault "filters" [] (Node.list? (FilterEntry.ofNode? around)) }

def HierarchyChoice.ofNode? (n : Node) : Option HierarchyChoice := do
  let r ← n.record?
    (ShapeEntry.names ++ ["name", "levels", "include", "exclude", "range", "calculatedMembers",
      "visualTotals", "visualTotalsPattern", "consistent"])
  return {
    name := ← r.required "name" Node.text?
    levels := ← r.withDefault "levels" [] (Node.list? LevelChoice.ofNode?)
    included := ← r.withDefault "include" [] (Node.list? Node.text?)
    excluded := ← r.withDefault "exclude" [] (Node.list? Node.text?)
    range := ← r.optional "range" RangeEntry.ofNode?
    calculated := ← r.withDefault "calculatedMembers" [] (Node.list? CalculatedEntry.ofNode?)
    shape := ← ShapeEntry.ofRecord? 5 r
    visualTotals := ← r.withDefault "visualTotals" false Node.bool?
    visualPattern := ← r.optional "visualTotalsPattern" Node.text?
    consistent := ← r.optional "consistent" Node.bool? }

def AxisEntry.ofNode? (n : Node) : Option AxisEntry := do
  let r ← n.record? (ShapeEntry.names ++ ["nonEmpty", "hierarchies"])
  return {
    nonEmpty := ← r.withDefault "nonEmpty" false Node.bool?
    shape := ← ShapeEntry.ofRecord? 3 r
    hierarchies := ← r.withDefault "hierarchies" [] (Node.list? HierarchyChoice.ofNode?) }

/-! ## Definitions -/

def Location.words : List (String × Location) :=
  [("unused", .unused), ("columns", .columns), ("rows", .rows), ("filter", .filter)]

def Side.words : List (String × Side) := [("top", .top), ("bottom", .bottom)]

def BlockEntry.ofNode? (n : Node) : Option BlockEntry := do
  let r ← n.record? ["measures", "axis", "location"]
  return {
    measures := ← r.required "measures" (Node.list? Node.text?)
    axis := ← r.withDefault "axis" .columns (Node.word? Location.words)
    side := ← r.withDefault "location" .bottom (Node.word? Side.words) }

/-- mirrors query/request:263-265 -/
def Definition.ofNode? (n : Node) : Option Definition := do
  let r ← n.record? ["name", "cube", "lowestLevelsOnly", "visualTotals", "visualTotalsPattern",
    "defaultHierarchizeMode", "parameters", "calculatedMeasures", "details", "columns", "rows",
    "filter"]
  return {
    name := ← r.required "name" Node.text?
    cube := ← r.required "cube" Node.text?
    lowestLevelsOnly := ← r.withDefault "lowestLevelsOnly" false Node.bool?
    visualTotals := ← r.withDefault "visualTotals" false Node.bool?
    visualPattern := ← r.optional "visualTotalsPattern" Node.text?
    defaultHierarchize := ← r.optional "defaultHierarchizeMode" Node.text?
    parameters := ← r.withDefault "parameters" .empty
      (fun n => (n.pairs? (Node.optional? Node.text?)).map Bindings.ofList)
    calculatedMeasures := ←
      r.withDefault "calculatedMeasures" [] (Node.list? CalculatedEntry.ofNode?)
    block := ← r.optional "details" BlockEntry.ofNode?
    columns := ← r.withDefault "columns" {} AxisEntry.ofNode?
    rows := ← r.withDefault "rows" {} AxisEntry.ofNode?
    filter := ← r.withDefault "filter" {} AxisEntry.ofNode? }

end CubeQuery
