import CubeQuery.Expr.CrossJoin
import CubeQuery.Options
import CubeQuery.Query

/-!
# What compilation works with

A compiler reads the texts of a query, looks up members, and knows its options. It stops at the
first text that cannot be read and at the first member that cannot be found.
-/

namespace CubeQuery

/-- Why compilation stops.
mirrors compiler/error:8-20 -/
inductive Failure where
  /-- A unique name that is no identifier cannot be declared. -/
  | badName (uniqueName : String)
  /-- An entry of a parameter's value names no member. -/
  | unknownMember (name : String)
  | unreadable (error : Expr.ReadError)
  | noDefaultMember (hierarchy : String)
  deriving DecidableEq, Repr

def Failure.message : Failure → String
  | .badName name => "Invalid query configuration: invalid member name " ++ name
  | .unknownMember name => "Cannot find member '" ++ name ++ "'"
  | .unreadable error => error.message
  | .noDefaultMember hierarchy => "Cannot resolve the default member of hierarchy " ++ hierarchy

/-- The name of a declared set: a tilde and the given parts.
mirrors compiler/util:6-8 -/
def Identifier.ofParts (parts : List String) : Identifier :=
  .named ("~" ++ "_".intercalate parts)

/-- A result together with the declarations it needs, in order. -/
structure Declared (α : Type) where
  value : α
  declarations : List Declaration

/-- How a query is compiled.
mirrors compiler/mod:27-31 -/
structure Compiler where
  source : MemberSource
  read : Expr.Reader := Expr.fragment
  options : Options := {}

/-- Members are looked up in the query's own cube. -/
def Compiler.ofCube (cube : Cube) (options : Options := {}) : Compiler :=
  { source := cube.source, options := options }

namespace Compiler

/-- Reads a text as an expression. -/
def expr (c : Compiler) (text : String) : Except Failure Expr :=
  (c.read text).mapError .unreadable

/-- Reads a text as one set, in braces.
mirrors compiler/mod:104-106 -/
def setExpr (c : Compiler) (text : String) : Except Failure Expr :=
  c.expr ("\x7b" ++ text ++ "\x7d")

/-- The declaration of a calculated member or measure.
mirrors compiler/mod:108-125 -/
def declareMember (c : Compiler) (uniqueName formula : String) (properties : Bindings String) :
    Except Failure Declaration := do
  let some name := Identifier.parse? uniqueName | throw (.badName uniqueName)
  let body ← c.expr formula
  return .member name body (properties.entries.map fun (n, v) => (n, .text v))

/-- The filters of a shape around a set.
mirrors compiler/mod:127-132 -/
def filtered (c : Compiler) (s : SetShape) (set : Expr) : Except Failure Expr :=
  (SetFilter.applyAll c.read s.filters set).mapError .unreadable

/-- The override of a shape in place of a set, then its filters.
mirrors compiler/mod:135-141 -/
def shaped (c : Compiler) (s : SetShape) (set : Expr) : Except Failure Expr := do
  match s.override with
  | some text => c.filtered s (← c.setExpr text)
  | none => c.filtered s set

/-- The order of a shape around a set: its sort or else its hierarchize mode. -/
def ordered (c : Compiler) (s : OrderedShape) (set : Expr) : Except Failure Expr := do
  match s.sort, s.hierarchize with
  | some (order, text), _ =>
    return .function "Order" [set, ← c.expr text, .symbol order.symbol]
  | none, some .pre => return .function "Hierarchize" [set]
  | none, some .post =>
    return .function "Hierarchize" [set, .symbol HierarchizeMode.post.symbol]
  | none, none => return set

/-- All that a shape asks of a set, if there is a set or an override for it.
mirrors compiler/mod:144-173 -/
def shapedAndOrdered (c : Compiler) (s : OrderedShape) (set : Option Expr) :
    Except Failure (Option Expr) := do
  match s.base.override, set with
  | none, none => return none
  | none, some set => return some (← c.ordered s (← c.filtered s.base set))
  | some text, _ => return some (← c.ordered s (← c.filtered s.base (← c.setExpr text)))

end Compiler
end CubeQuery
