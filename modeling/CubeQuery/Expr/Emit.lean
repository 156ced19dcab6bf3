import CubeQuery.Expr

/-!
# Expressions in writing

Each form of a call has its spelling. An operand of an operation that is itself an operation
stands in parentheses if it binds less tightly, or equally tightly with another operator behind
the first place.
-/

namespace CubeQuery.Expr

/-- Calls that have no written form. -/
inductive EmitError where
  | propertyWithoutTarget (name : String)
  | methodWithoutTarget (name : String)
  | tooFewOperands (op : String) (count : Nat)
  deriving DecidableEq, Repr

def EmitError.message : EmitError → String
  | .propertyWithoutTarget name => "Invalid node: property '" ++ name ++ "' has no target"
  | .methodWithoutTarget name => "Invalid node: method '" ++ name ++ "' has no target"
  | .tooFewOperands op count =>
    "Invalid node: operator '" ++ op ++ "' needs at least 2 operands, got " ++ toString count

/-- How tightly an operator binds. Operators that are not listed bind like comparisons.
mirrors emitter/mdx:147-156 -/
def precedence (op : String) : Nat :=
  let op := op.toUpper
  if op = "OR" ∨ op = "XOR" then 1
  else if op = "AND" then 2
  else if op = "+" ∨ op = "-" ∨ op = "||" then 4
  else if op = "*" ∨ op = "/" then 5
  else if op = ":" then 6
  else 3

/-- An operand of `op` needs parentheses. The first operand may have the operator's own
precedence, the others only with the same operator.
mirrors emitter/mdx:124-142 -/
def needsParens (op : String) (isFirst : Bool) (operand : Expr) : Bool :=
  match operand.operator? with
  | none => false
  | some inner =>
    let inner := Text.trimmed inner
    precedence inner < precedence op ||
      (!isFirst && precedence inner == precedence op && inner.toUpper != op.toUpper)

/-- The text between parentheses. -/
def parenthesized (text : String) : String := "(" ++ text ++ ")"

/-- A literal in writing. Quotes inside a text are doubled.
mirrors emitter/mdx:158-164 -/
def emitLiteral : Literal → String
  | .text s => "\"" ++ String.ofList (Text.double '"' s.toList) ++ "\""
  | .number n => toString n
  | .symbol s => s

theorem toList_emitLiteral_text (value : String) :
    (emitLiteral (.text value)).toList = '"' :: (Text.double '"' value.toList ++ ['"']) := by
  simp [emitLiteral]

mutual

/-- An expression in writing, on one line.
mirrors emitter/mdx:80-145 -/
def emit : Expr → Except EmitError String
  | .call name .function args => do
    let parts ← emitAll args
    return name ++ "(" ++ ", ".intercalate parts ++ ")"
  | .call _ .braces args => do
    let parts ← emitAll args
    return "\x7b" ++ ", ".intercalate parts ++ "\x7d"
  | .call _ .parentheses args => do
    let parts ← emitAll args
    return parenthesized (", ".intercalate parts)
  | .call name .property [] => .error (.propertyWithoutTarget name)
  | .call name .property (target :: _) => do
    return (← emit target) ++ "." ++ name
  | .call name .method [] => .error (.methodWithoutTarget name)
  | .call name .method (target :: args) => do
    let text ← emit target
    let parts ← emitAll args
    return text ++ "." ++ name ++ parenthesized (", ".intercalate parts)
  | .call name .infixOp args => do
    let op := Text.trimmed name
    if args.length < 2 then throw (.tooFewOperands op args.length)
    let parts ← emitOperands op true args
    return (" " ++ op ++ " ").intercalate parts
  | .identifier id => return id.quoted
  | .member name => return name
  | .level name => return name
  | .hierarchy name => return name
  | .literal value => return emitLiteral value
  | .raw text => return text

/-- The expressions of a list in writing. -/
def emitAll : List Expr → Except EmitError (List String)
  | [] => return []
  | e :: es => do
    let text ← emit e
    return text :: (← emitAll es)

/-- The operands of `op` in writing, in parentheses where they need them. -/
def emitOperands (op : String) (isFirst : Bool) : List Expr → Except EmitError (List String)
  | [] => return []
  | e :: es => do
    let text ← emit e
    let part := if needsParens op isFirst e then parenthesized text else text
    return part :: (← emitOperands op false es)

end

end CubeQuery.Expr
