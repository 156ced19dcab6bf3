import CubeQuery.Options
import CubeQuery.Yaml.Node

/-!
# Options as documents
-/

namespace CubeQuery

open Yaml

def JoinNotation.words : List (String × JoinNotation) :=
  [("nested", .nested), ("flattened", .flattened), ("flattenOnFilterAxis", .flattenOnFilterAxis)]

def Flavor.words : List (String × Flavor) :=
  [("mondrian", .mondrian), ("microsoft", .microsoft), ("palo", .palo), ("sap", .sap),
    ("essbase", .essbase)]

/-- The options that a document sets. All others keep their defaults.
mirrors compiler/options:48-50 -/
def Options.ofNode? (n : Node) : Option Options := do
  let r ← n.record? ["crossJoin", "legacyParameterResolution", "flavor"]
  let default : Options := {}
  return {
    crossJoin := ← r.withDefault "crossJoin" default.crossJoin (Node.word? JoinNotation.words)
    legacyParameters := ←
      r.withDefault "legacyParameterResolution" default.legacyParameters Node.bool?
    flavor := ← r.optional "flavor" (Node.word? Flavor.words) }

end CubeQuery
