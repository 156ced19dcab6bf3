import CubeQuery.Expr.Emit

/-!
# Statements

A compiled query: its declarations, its result axes, the cube and the slicer.
-/

namespace CubeQuery

/-- The places of a statement that hold a set. -/
inductive AxisName where
  | columns
  | rows
  /-- The slicer, written behind `WHERE`. -/
  | slicer
  deriving DecidableEq, Repr, Inhabited

/-- The name in `ON COLUMNS` and in the names of declared sets. -/
def AxisName.text : AxisName → String
  | .columns => "COLUMNS"
  | .rows => "ROWS"
  | .slicer => "FILTER"

/-- A declaration in front of the statement. -/
inductive Declaration where
  /-- `MEMBER name AS formula, PROPERTY = value` -/
  | member (name : Identifier) (formula : Expr) (properties : List (String × Expr))
  /-- `SET name AS set` -/
  | set (name : Identifier) (body : Expr)
  deriving Repr, Inhabited

/-- One axis of a statement. -/
structure AxisNode where
  nonEmpty : Bool
  axis : AxisName
  body : Expr
  deriving Repr, Inhabited

/-- A statement.
mirrors mdx/select:27-36 -/
structure Statement where
  declarations : List Declaration
  axes : List AxisNode
  /-- The unique name of the cube. -/
  cube : String
  slicer : Option AxisNode
  deriving Repr, Inhabited

namespace Statement

/-! ## Parts -/

/-- The first declared set of the given name.
mirrors mdx/select:71-78 -/
def namedSet? (s : Statement) (name : String) : Option Expr :=
  s.declarations.findSome? fun
    | .set id body => if id.segments = [name] then some body else none
    | .member .. => none

/-- The formula of the first declared member whose name reads as given.
mirrors mdx/select:81-86 -/
def memberFormula? (s : Statement) (uniqueName : String) : Option Expr :=
  s.declarations.findSome? fun
    | .member id formula _ => if id.quoted = uniqueName then some formula else none
    | .set .. => none

/-- The node of an axis.
mirrors mdx/select:89-94 -/
def axis? (s : Statement) (axis : AxisName) : Option AxisNode :=
  match axis with
  | .slicer => s.slicer
  | axis => s.axes.find? (·.axis = axis)

end Statement

/-! ## Writing -/

/-- The written properties of a declared member, each behind a comma. -/
def Declaration.emitProperties : List (String × Expr) → Except Expr.EmitError String
  | [] => return ""
  | (name, value) :: rest => do
    let text ← value.emit
    return ", " ++ name ++ " = " ++ text ++ (← emitProperties rest)

/-- mirrors emitter/mdx:46-64 -/
def Declaration.emit : Declaration → Except Expr.EmitError String
  | .set name body => do
    return "SET " ++ name.quoted ++ " AS\n    " ++ (← body.emit)
  | .member name formula properties => do
    let text ← formula.emit
    return "MEMBER " ++ name.quoted ++ " AS\n    " ++ text ++ (← emitProperties properties)

/-- mirrors emitter/mdx:66-73 -/
def AxisNode.emit (node : AxisNode) : Except Expr.EmitError String := do
  let text ← node.body.emit
  return (if node.nonEmpty then "NON EMPTY " else "") ++ text ++ " ON " ++ node.axis.text

/-- Each text followed by a line end. -/
def lines (texts : List String) : String := String.join (texts.map (· ++ "\n"))

/-- The statement in writing.
mirrors emitter/mdx:11-44 -/
def Statement.emit (s : Statement) : Except Expr.EmitError String := do
  let declarations ← s.declarations.mapM Declaration.emit
  let axes ← s.axes.mapM AxisNode.emit
  let slicer ← s.slicer.mapM (·.body.emit)
  return (if declarations.isEmpty then "" else "WITH\n" ++ lines declarations)
    ++ "SELECT\n"
    ++ (if axes.isEmpty then "" else ",\n".intercalate axes ++ "\n")
    ++ "FROM " ++ s.cube
    ++ (match slicer with
      | none => ""
      | some text => "\nWHERE " ++ text)

end CubeQuery
