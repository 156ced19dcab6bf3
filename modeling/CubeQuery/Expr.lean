import CubeQuery.Identifier

/-!
# Expressions

The tree of an MDX expression: calls in one of six written forms, references, literals, and
fragments of text that nobody has looked into.
-/

namespace CubeQuery

/-- How a call is written.
mirrors mdx/expr:7-20 -/
inductive Form where
  /-- `Name(a, b)` -/
  | function
  /-- `target.Name` -/
  | property
  /-- `target.Name(a, b)` -/
  | method
  /-- `{a, b}` -/
  | braces
  /-- `(a, b)` -/
  | parentheses
  /-- `a op b` -/
  | infixOp
  deriving DecidableEq, Repr, Inhabited

/-- Literal values. A symbol, such as `ASC`, stands for itself. -/
inductive Literal where
  | text (value : String)
  | number (value : Int)
  | symbol (value : String)
  deriving DecidableEq, Repr, Inhabited

/-- An MDX expression.
mirrors mdx/expr:69-82 -/
inductive Expr where
  | call (name : String) (form : Form) (args : List Expr)
  /-- A reference to a named set or a calculated member. -/
  | identifier (id : Identifier)
  | member (uniqueName : String)
  | level (uniqueName : String)
  | hierarchy (uniqueName : String)
  | literal (value : Literal)
  /-- A fragment kept as it was written. -/
  | raw (text : String)
  deriving Repr, Inhabited

namespace Expr

def function (name : String) (args : List Expr) : Expr := .call name .function args

def property (target : Expr) (name : String) : Expr := .call name .property [target]

/-- `{a, b}` -/
def set (items : List Expr) : Expr := .call "\x7b\x7d" .braces items

/-- `{}` -/
def emptySet : Expr := set []

/-- `(a, b)` -/
def tuple (items : List Expr) : Expr := .call "()" .parentheses items

/-- `a op b op c` -/
def operation (op : String) (operands : List Expr) : Expr := .call op .infixOp operands

def text (value : String) : Expr := .literal (.text value)

def symbol (value : String) : Expr := .literal (.symbol value)

def number (value : Int) : Expr := .literal (.number value)

/-- The operator of an operation. -/
def operator? : Expr → Option String
  | .call name .infixOp _ => some name
  | _ => none

end Expr
end CubeQuery
