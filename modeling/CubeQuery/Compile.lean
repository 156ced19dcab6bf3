import CubeQuery.Compile.AxisSet
import CubeQuery.Query.Members

/-!
# Compiling queries

The statement of a query: the calculated members of all hierarchies are declared first, then what
the columns, the rows and the slicer need. Compilation gives a whole statement or none.
-/

namespace CubeQuery

namespace Compiler

/-- The slicer. Without hierarchies on the filter axis there is none. -/
def slicer (c : Compiler) (q : Query) : Except Failure (Declared (Option AxisNode)) :=
  if (q.axes.get .filter).hierarchies.isEmpty then .ok ⟨none, []⟩
  else c.axisNode q .filter .slicer

/-- The statement of a query.
mirrors compiler/mod:59-97 -/
def statement (c : Compiler) (q : Query) : Except Failure Statement := do
  let members ← q.calculatedMembers.mapM fun m =>
    c.declareMember m.uniqueName m.formula m.properties
  let columns ← c.axisNode q .columns .columns
  let rows ← c.axisNode q .rows .rows
  let slicer ← c.slicer q
  return {
    declarations :=
      members ++ columns.declarations ++ rows.declarations ++ slicer.declarations
    axes := columns.value.toList ++ rows.value.toList
    cube := q.cube.uniqueName
    slicer := slicer.value }

end Compiler

/-- The statement of a query on its own cube.
mirrors compiler/mod:177-187 -/
def Query.statement (q : Query) (options : Options := {}) : Except Failure Statement :=
  (Compiler.ofCube q.cube options).statement q

/-! ## Text -/

/-- Why a query has no text. -/
inductive TextError where
  | compile (failure : Failure)
  | emit (error : Expr.EmitError)
  deriving DecidableEq, Repr

def TextError.message : TextError → String
  | .compile failure => failure.message
  | .emit error => error.message

/-- The statement of a query in writing.
mirrors execution/mod:77-83 -/
def Query.text (q : Query) (options : Options := {}) : Except TextError String := do
  let s ← (q.statement options).mapError .compile
  s.emit.mapError .emit

end CubeQuery
