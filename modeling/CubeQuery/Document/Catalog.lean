import CubeQuery.Catalog
import CubeQuery.Yaml.Value

/-!
# Catalogs as documents
-/

namespace CubeQuery

open Yaml

/-- A member: its name, or the path of names that leads to it. From its list up to the document,
ten collections are around it. -/
def memberPath? (n : Node) : Option (List String) :=
  (Value.ofNode? 10 n).bind fun
    | .text name => some [name]
    | v => v.list? Value.text?

def LevelEntry.ofNode? (n : Node) : Option LevelEntry := do
  let r ← n.record? ["name", "caption", "type", "members"]
  return {
    name := ← r.required "name" Node.text?
    caption := ← r.optional "caption" Node.text?
    kind := ← r.withDefault "type" .regular
      (Node.word? [("all", .all), ("regular", .regular)])
    members := ← r.withDefault "members" [] (Node.list? memberPath?) }

def HierarchyEntry.ofNode? (n : Node) : Option HierarchyEntry := do
  let r ← n.record? ["name", "caption", "defaultMember", "levels"]
  return {
    name := ← r.required "name" Node.text?
    caption := ← r.optional "caption" Node.text?
    defaultMember := ← r.optional "defaultMember" Node.text?
    levels := ← r.required "levels" (Node.list? LevelEntry.ofNode?) }

def DimensionEntry.ofNode? (n : Node) : Option DimensionEntry := do
  let r ← n.record? ["name", "caption", "hierarchies"]
  return {
    name := ← r.required "name" Node.text?
    caption := ← r.optional "caption" Node.text?
    hierarchies := ← r.required "hierarchies" (Node.list? HierarchyEntry.ofNode?) }

def StoredMeasure.ofNode? (n : Node) : Option StoredMeasure := do
  let r ← n.record? ["name", "caption", "formatString"]
  return {
    name := ← r.required "name" Node.text?
    caption := ← r.optional "caption" Node.text?
    formatString := ← r.optional "formatString" Node.text? }

def CubeEntry.ofNode? (n : Node) : Option CubeEntry := do
  let r ← n.record? ["name", "caption", "dimensions", "measures"]
  return {
    name := ← r.required "name" Node.text?
    caption := ← r.optional "caption" Node.text?
    dimensions := ← r.withDefault "dimensions" [] (Node.list? DimensionEntry.ofNode?)
    measures := ← r.withDefault "measures" [] (Node.list? StoredMeasure.ofNode?) }

/-- The cubes that a document lists.
mirrors parser/mod:16-21 -/
def Catalog.ofNode? (n : Node) : Option Catalog := do
  let r ← n.record? ["cubes"]
  return .ofEntries (← r.required "cubes" (Node.list? CubeEntry.ofNode?))

end CubeQuery
