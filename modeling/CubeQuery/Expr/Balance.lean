/-!
# Balanced fragments

A fragment can stand inside a statement when it closes what it opens: parentheses and braces
nest, string literals end at the next quote, bracketed names at the next closing bracket.
-/

namespace CubeQuery.Expr

/-- What is wrong with a fragment that is not balanced. -/
inductive Imbalance where
  /-- A closing character that does not answer the innermost open one. -/
  | unexpected (c : Char)
  | unterminatedString
  | unterminatedIdentifier
  /-- The innermost opening character left open at the end. -/
  | unclosed (c : Char)
  deriving DecidableEq, Repr

def Imbalance.message : Imbalance → String
  | .unexpected c => "unexpected '" ++ c.toString ++ "'"
  | .unterminatedString => "unterminated string"
  | .unterminatedIdentifier => "unterminated identifier"
  | .unclosed c => "unclosed '" ++ c.toString ++ "'"

/-- Where the reading of a fragment stands. -/
inductive Place where
  | code
  | string
  | bracket
  deriving DecidableEq, Repr

/-- The opening character that a closing one answers. -/
def opener (close : Char) : Char := if close = ')' then '(' else '{'

/-- Reads on from a place, with the open parentheses and braces listed innermost first. -/
def balanceFrom : Place → List Char → List Char → Except Imbalance Unit
  | .string, _, [] => .error .unterminatedString
  | .bracket, _, [] => .error .unterminatedIdentifier
  | .code, [], [] => .ok ()
  | .code, c :: _, [] => .error (.unclosed c)
  | .string, stack, c :: cs => balanceFrom (if c = '"' then .code else .string) stack cs
  | .bracket, stack, c :: cs => balanceFrom (if c = ']' then .code else .bracket) stack cs
  | .code, stack, c :: cs =>
    if c = '"' then balanceFrom .string stack cs
    else if c = '[' then balanceFrom .bracket stack cs
    else if c = '(' ∨ c = '{' then balanceFrom .code (c :: stack) cs
    else if c = ')' ∨ c = '}' then
      match stack with
      | o :: outer => if o = opener c then balanceFrom .code outer cs else .error (.unexpected c)
      | [] => .error (.unexpected c)
    else balanceFrom .code stack cs

/-- Finds the first fault in the nesting of a fragment.
mirrors mdx/parser:54-95 -/
def checkBalance (cs : List Char) : Except Imbalance Unit := balanceFrom .code [] cs

end CubeQuery.Expr
