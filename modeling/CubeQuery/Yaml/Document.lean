import CubeQuery.Yaml.Node
import CubeQuery.Yaml.Token

/-!
# YAML documents

The tokens of a text make up a document, which is one node. A key without a value, a value without
a key and an entry without a node stand for a blank. More than one document, and anything that is
not YAML, is refused.
-/

namespace CubeQuery.Yaml

/-- A node and the tokens behind it. -/
abbrev Step := Option (Node × List Token)

mutual

/-- The node at which the tokens start. Block collections are not allowed inside flow collections;
a sequence without indentation of its own may be the key or the value of a block mapping. -/
def node? (block bare : Bool) : (fuel : Nat) → List Token → Step
  | _, .scalar plain text :: ts => some (.scalar plain text, ts)
  | n + 1, .flowSequence :: ts => flowItems? true [] n ts
  | n + 1, .flowMapping :: ts => flowFields? true [] n ts
  | n + 1, .blockSequence :: ts => if block then blockItems? [] n ts else none
  | n + 1, .blockMapping :: ts => if block then blockFields? [] n ts else none
  | n + 1, .blockEntry :: ts => if bare then bareItems? [] n (.blockEntry :: ts) else none
  | _, _ => none

/-- A node of a block collection, a blank where the next token is one of those given. -/
def blockNode? (bare : Bool) (ends : List Token) : (fuel : Nat) → List Token → Step
  | n + 1, t :: ts => if t ∈ ends then some (.blank, t :: ts) else node? true bare n (t :: ts)
  | _, _ => none

/-- A node of a flow collection, a blank where the next token is one of those given. -/
def flowNode? (ends : List Token) : (fuel : Nat) → List Token → Step
  | n + 1, t :: ts => if t ∈ ends then some (.blank, t :: ts) else node? false false n (t :: ts)
  | _, _ => none

/-- The items of a block sequence, with those before them. -/
def blockItems? (items : List Node) : (fuel : Nat) → List Token → Step
  | _, .blockEnd :: ts => some (.sequence items, ts)
  | n + 1, .blockEntry :: ts => do
    let (item, ts) ← blockNode? false [.blockEntry, .blockEnd] n ts
    blockItems? (items ++ [item]) n ts
  | _, _ => none

/-- The items of a sequence without indentation of its own, with those before them. -/
def bareItems? (items : List Node) : (fuel : Nat) → List Token → Step
  | n + 1, .blockEntry :: ts => do
    let (item, ts) ← blockNode? false [.blockEntry, .key, .value, .blockEnd] n ts
    bareItems? (items ++ [item]) n ts
  | 0, _ => none
  | _, ts => some (.sequence items, ts)

/-- The fields of a block mapping, with those before them. -/
def blockFields? (fields : List (Node × Node)) : (fuel : Nat) → List Token → Step
  | _, .blockEnd :: ts => some (.mapping fields, ts)
  | n + 1, .key :: ts => do
    let (key, ts) ← blockNode? true [.key, .value, .blockEnd] n ts
    match ts with
    | .value :: ts =>
      let (value, ts) ← blockNode? true [.key, .value, .blockEnd] n ts
      blockFields? (fields ++ [(key, value)]) n ts
    | ts => blockFields? (fields ++ [(key, .blank)]) n ts
  | _, _ => none

/-- The key of a mapping of one field in a flow sequence. Where it is left out, the next token goes
with it. -/
def pairKey? : (fuel : Nat) → List Token → Step
  | n + 1, t :: ts =>
    if t ∈ [.value, .flowEntry, .flowSequenceEnd] then some (.blank, ts)
    else node? false false n (t :: ts)
  | _, _ => none

/-- The items of a flow sequence, with those before them. A key makes an item a mapping of one
field. -/
def flowItems? (isFirst : Bool) (items : List Node) : (fuel : Nat) → List Token → Step
  | _, .flowSequenceEnd :: ts => some (.sequence items, ts)
  | n + 1, .flowEntry :: ts => if isFirst then none else flowItem? items n ts
  | n + 1, ts => if isFirst then flowItem? items n ts else none
  | 0, _ => none

/-- An item of a flow sequence and those behind it. -/
def flowItem? (items : List Node) : (fuel : Nat) → List Token → Step
  | _, .flowSequenceEnd :: ts => some (.sequence items, ts)
  | n + 1, .key :: ts => do
    let (key, ts) ← pairKey? n ts
    match ts with
    | .value :: ts =>
      let (value, ts) ← flowNode? [.flowEntry, .flowSequenceEnd] n ts
      flowItems? false (items ++ [.mapping [(key, value)]]) n ts
    | ts => flowItems? false (items ++ [.mapping [(key, .blank)]]) n ts
  | n + 1, ts => do
    let (item, ts) ← node? false false n ts
    flowItems? false (items ++ [item]) n ts
  | 0, _ => none

/-- The fields of a flow mapping, with those before them. -/
def flowFields? (isFirst : Bool) (fields : List (Node × Node)) :
    (fuel : Nat) → List Token → Step
  | _, .flowMappingEnd :: ts => some (.mapping fields, ts)
  | n + 1, .flowEntry :: ts => if isFirst then none else flowField? fields n ts
  | n + 1, ts => if isFirst then flowField? fields n ts else none
  | 0, _ => none

/-- A field of a flow mapping and those behind it. -/
def flowField? (fields : List (Node × Node)) : (fuel : Nat) → List Token → Step
  | _, .flowMappingEnd :: ts => some (.mapping fields, ts)
  | n + 1, .key :: ts => do
    let (key, ts) ← flowNode? [.value, .flowEntry, .flowMappingEnd] n ts
    match ts with
    | .value :: ts =>
      let (value, ts) ← flowNode? [.flowEntry, .flowMappingEnd] n ts
      flowFields? false (fields ++ [(key, value)]) n ts
    | ts => flowFields? false (fields ++ [(key, .blank)]) n ts
  | n + 1, ts => do
    let (key, ts) ← node? false false n ts
    flowFields? false (fields ++ [(key, .blank)]) n ts
  | 0, _ => none

end

/-- A bound for the steps that the tokens of a document take. -/
def stepBound (ts : List Token) : Nat := 4 * ts.length + 4

/-- The node of a document and what follows it. -/
def documentNode? (ts : List Token) : Step :=
  match ts with
  | .documentStart :: ts =>
    match ts with
    | [] | .documentStart :: _ | .documentEnd :: _ => some (.blank, ts)
    | ts => node? true false (stepBound ts) ts
  | [] => some (.blank, [])
  | ts => node? true false (stepBound ts) ts

/-- The one document of a text. An empty text is a blank. -/
def Node.ofText? (text : String) : Option Node := do
  let (n, rest) ← documentNode? (← tokens? text.toList)
  if rest.all (· = .documentEnd) then some n else none

end CubeQuery.Yaml
