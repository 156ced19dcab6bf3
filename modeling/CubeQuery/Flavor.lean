import CubeQuery.Text.Fields

/-!
# Server flavors

The families of servers that a statement can be written for. A server is recognised by a word in
the name of its provider or, failing that, in the description of its data source.
-/

namespace CubeQuery

inductive Flavor where
  | mondrian
  | microsoft
  | palo
  | sap
  | essbase
  deriving DecidableEq, Repr

namespace Flavor

/-- All flavors, in the order in which they are tried. -/
def all : List Flavor := [mondrian, microsoft, palo, sap, essbase]

/-- The word by which the flavor is recognised. -/
def word : Flavor → String
  | mondrian => "Mondrian"
  | microsoft => "Microsoft"
  | palo => "Palo"
  | sap => "SAP"
  | essbase => "Essbase"

/-- The first flavor whose word occurs in a text. -/
def inText? (text : String) : Option Flavor :=
  all.find? fun f => Text.occursIn f.word.toList text.toList

/-- A server that belongs to no known family. -/
structure Unrecognised where
  provider : String
  dataSource : String
  deriving DecidableEq, Repr

def Unrecognised.message (e : Unrecognised) : String :=
  "Cannot determine the backend flavor of provider '" ++ e.provider ++ "' (" ++ e.dataSource ++ ")"

/-- The flavor of a server.
mirrors execution/flavor:39-47 -/
def detect (provider dataSource : String) : Except Unrecognised Flavor :=
  match inText? provider <|> inText? dataSource with
  | some f => .ok f
  | none => .error ⟨provider, dataSource⟩

end Flavor
end CubeQuery
