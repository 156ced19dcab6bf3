/-!
# Unreadable documents
-/

namespace CubeQuery

/-- Why a document cannot be used. -/
inductive DocumentError where
  /-- The file cannot be read. -/
  | file (path : String)
  /-- The text is no YAML, or not the document asked for. -/
  | malformed
  deriving DecidableEq, Repr

/-- The message up to what the system or the reader would add to it. -/
def DocumentError.message : DocumentError → String
  | .file path => "Failed to read '" ++ path ++ "': "
  | .malformed => "Invalid YAML: "

/-- The text of a file, given what was found at its path. -/
def fileText (path : String) (contents : Option String) : Except DocumentError String :=
  match contents with
  | some text => .ok text
  | none => .error (.file path)

end CubeQuery
