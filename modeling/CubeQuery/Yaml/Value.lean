import CubeQuery.Yaml.Node
import CubeQuery.Yaml.Number

/-!
# Typed values

In some places of a document a plain scalar counts by what it spells: null, a truth value, a
number, or else a text.
-/

namespace CubeQuery.Yaml

inductive Value where
  | null
  | bool (b : Bool)
  /-- An integer, with the sign that it is written with. -/
  | int (minus : Bool) (magnitude : Nat)
  | float
  | text (s : String)
  | list (items : List Value)
  | map (entries : List (Value × Value))
  deriving Repr, Inhabited

namespace Value

/-- What a plain scalar spells. Integers of more than 64 bits have no place in a value. -/
def ofPlain? (text : String) : Option Value :=
  if text = "" || Node.isNullWord text then some .null
  else match Node.boolWord? text with
    | some b => some (.bool b)
    | none =>
      match Number.ofText? text with
      | some (.int minus m) => some (.int minus m)
      | some .wide => none
      | some .float => some .float
      | none => some (.text text)

mutual

/-- The value of a node in which at most `room` collections nest. -/
def within? (room : Nat) : Node → Option Value
  | .scalar true t => ofPlain? t
  | .scalar false t => some (.text t)
  | .sequence items =>
    match room with
    | 0 => none
    | room + 1 => (allWithin? room items).map .list
  | .mapping entries =>
    match room with
    | 0 => none
    | room + 1 => (entriesWithin? room entries).map .map

def allWithin? (room : Nat) : List Node → Option (List Value)
  | [] => some []
  | n :: ns => do
    let v ← within? room n
    return v :: (← allWithin? room ns)

def entriesWithin? (room : Nat) : List (Node × Node) → Option (List (Value × Value))
  | [] => some []
  | (k, v) :: rest => do
    let key ← within? room k
    let value ← within? room v
    return (key, value) :: (← entriesWithin? room rest)

end

/-- How many collections may nest in a document where values are read from it. -/
def nestingLimit : Nat := 128

/-- The value of a node that lies in so many collections. -/
def ofNode? (around : Nat) (n : Node) : Option Value := within? (nestingLimit - around) n

/-- A text. -/
def text? : Value → Option String
  | .text s => some s
  | _ => none

/-- An integer that fits into 32 bits without a sign. -/
def word32? : Value → Option UInt32
  | .int minus m =>
    if (minus && m ≠ 0) || UInt32.size ≤ m then none else some (UInt32.ofNat m)
  | _ => none

/-- A value that may be null. -/
def optional? {α : Type} (decode : Value → Option α) : Value → Option (Option α)
  | .null => some none
  | v => (decode v).map some

/-- A list of values. -/
def list? {α : Type} (decode : Value → Option α) : Value → Option (List α)
  | .list items => items.mapM decode
  | _ => none

/-- One of a list of names: as a text, or by its position in the list, without a minus. -/
def name? (names : List String) : Value → Option String
  | .text s => some s
  | .int false m => some (names[m]?.getD "")
  | _ => none

/-- One of a few words: as a text, or as the only key of a mapping to null. -/
def word? {α : Type} (words : List (String × α)) : Value → Option α
  | .text s => List.lookup s words
  | .map [(key, .null)] => (key.name? (words.map (·.1))).bind fun s => List.lookup s words
  | _ => none

/-- A record: a mapping, whose keys may be the positions of the fields, or the list of all its
fields in order. -/
def record? (names : List String) : Value → Option (Record Value)
  | .map entries => do
    let named ← entries.mapM fun (k, v) => do return (← k.name? names, v)
    Record.ofEntries? names named
  | .list items => if items.length = names.length then some ⟨names.zip items⟩ else none
  | _ => none

end Value

/-- A field that may be null or not there. -/
def Record.optionalValue {β : Type} (r : Record Value) (name : String)
    (decode : Value → Option β) : Option (Option β) :=
  r.withDefault name none (Value.optional? decode)

end CubeQuery.Yaml
