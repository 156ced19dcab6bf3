import CubeQuery.Compile

/-!
# Running queries

A query runs on a connection to a server: its text, written for the flavor of the server, is handed
to the connection.
-/

namespace CubeQuery

/-- A connection answers a statement or fails with a text.
mirrors execution/mod:19-29 -/
structure Connection (α : Type) where
  provider : String
  dataSource : String
  run : String → Except String α

/-- Why a query did not run. -/
inductive RunError where
  | unrecognised (server : Flavor.Unrecognised)
  | text (error : TextError)
  | connection (why : String)
  deriving DecidableEq, Repr

def RunError.message : RunError → String
  | .unrecognised server => server.message
  | .text error => error.message
  | .connection why => "Execution failed: " ++ why

/-- The options with a flavor: their own, or that of the connection's server. -/
def Connection.options {α : Type} (k : Connection α) (options : Options) :
    Except RunError Options :=
  match options.flavor with
  | some _ => .ok options
  | none =>
    match Flavor.detect k.provider k.dataSource with
    | .ok f => .ok { options with flavor := some f }
    | .error e => .error (.unrecognised e)

/-- Runs a query on a connection.
mirrors execution/mod:88-103 -/
def Query.run {α : Type} (q : Query) (k : Connection α) (options : Options := {}) :
    Except RunError α := do
  let options ← k.options options
  let text ← (q.text options).mapError .text
  (k.run text).mapError .connection

end CubeQuery
