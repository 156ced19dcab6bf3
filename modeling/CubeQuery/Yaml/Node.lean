/-!
# YAML nodes

A YAML document is a tree of scalars, sequences and mappings. A scalar keeps its text, and whether
it was written plainly: only plain scalars can mean anything but their text.
-/

namespace CubeQuery.Yaml

inductive Node where
  | scalar (plain : Bool) (text : String)
  | sequence (items : List Node)
  | mapping (entries : List (Node × Node))
  deriving Repr, Inhabited

namespace Node

/-- A value that was left out. -/
def blank : Node := .scalar true ""

/-- The plain spellings of null. -/
def isNullWord (text : String) : Bool :=
  text = "~" || text = "null" || text = "Null" || text = "NULL"

/-- The truth value that a plain word spells. -/
def boolWord? (text : String) : Option Bool :=
  if text = "true" || text = "True" || text = "TRUE" then some true
  else if text = "false" || text = "False" || text = "FALSE" then some false
  else none

/-- The text of a scalar. -/
def text? : Node → Option String
  | .scalar _ text => some text
  | _ => none

/-- The truth value of a plain scalar. -/
def bool? : Node → Option Bool
  | .scalar true text => boolWord? text
  | _ => none

/-- The items of a sequence. A value left out has none. -/
def items? : Node → Option (List Node)
  | .sequence items => some items
  | .scalar true "" => some []
  | _ => none

/-- The entries of a mapping. A value left out has none. -/
def entries? : Node → Option (List (Node × Node))
  | .mapping entries => some entries
  | .scalar true "" => some []
  | _ => none

/-- A value that may be missing: null and a value left out are none. -/
def optional? {α : Type} (decode : Node → Option α) (n : Node) : Option (Option α) :=
  match n with
  | .scalar true text =>
    if text = "" || isNullWord text then some none else (decode n).map some
  | _ => (decode n).map some

/-- A sequence of values. -/
def list? {α : Type} (decode : Node → Option α) (n : Node) : Option (List α) :=
  n.items?.bind (·.mapM decode)

/-- One of a few words, quoted or not. -/
def word? {α : Type} (words : List (String × α)) (n : Node) : Option α :=
  n.text?.bind fun t => List.lookup t words

/-- A mapping from texts to values. -/
def pairs? {α : Type} (decode : Node → Option α) (n : Node) : Option (List (String × α)) :=
  n.entries?.bind (·.mapM fun (k, v) => do return (← k.text?, ← decode v))

end Node

/-! ## Records -/

/-- The values that a mapping gives to the fields of a record. -/
structure Record (α : Type) where
  fields : List (String × α)

namespace Record

variable {α : Type}

/-- The entries that name one of the given fields, if none of the fields is named twice. -/
def ofEntries? (names : List String) (entries : List (String × α)) : Option (Record α) :=
  let known := entries.filter (·.1 ∈ names)
  if (known.map (·.1)).Nodup then some ⟨known⟩ else none

def get? (r : Record α) (name : String) : Option α := List.lookup name r.fields

/-- A field that has to be there. -/
def required {β : Type} (r : Record α) (name : String) (decode : α → Option β) : Option β :=
  (r.get? name).bind decode

/-- A field with a value of its own when it is not there. -/
def withDefault {β : Type} (r : Record α) (name : String) (default : β) (decode : α → Option β) :
    Option β :=
  match r.get? name with
  | some v => decode v
  | none => some default

end Record

/-- The record that a mapping holds. Other keys are ignored, but every key has to be a scalar. -/
def Node.record? (names : List String) (n : Node) : Option (Record Node) :=
  (n.pairs? some).bind (Record.ofEntries? names)

/-- A field that may be null or not there. -/
def Record.optional {β : Type} (r : Record Node) (name : String) (decode : Node → Option β) :
    Option (Option β) :=
  r.withDefault name none (Node.optional? decode)

end CubeQuery.Yaml
