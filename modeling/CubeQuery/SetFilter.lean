import CubeQuery.Expr.Fragment

/-!
# Set filters

A filter narrows a set: to the members that satisfy a predicate, to the first few of a ranking, or
to the members with one of the given names. It writes itself as a call around the set.
-/

namespace CubeQuery

/-- The functions that rank a set. -/
inductive Ranking where
  | topCount
  | topPercent
  | topSum
  | bottomCount
  | bottomPercent
  | bottomSum
  deriving DecidableEq, Repr

/-- The name of the function. -/
def Ranking.function : Ranking → String
  | .topCount => "TopCount"
  | .topPercent => "TopPercent"
  | .topSum => "TopSum"
  | .bottomCount => "BottomCount"
  | .bottomPercent => "BottomPercent"
  | .bottomSum => "BottomSum"

/-- The functions a filter can call. -/
inductive FilterFunction where
  | filter
  | ranking (r : Ranking)
  deriving DecidableEq, Repr

/-- The name of the function. -/
def FilterFunction.name : FilterFunction → String
  | .filter => "Filter"
  | .ranking r => r.function

/-- How names are compared. -/
inductive NameOperator where
  | equal
  | notEqual
  deriving DecidableEq, Repr

/-- The operator that a word asks for. Every word but `NOTEQUAL` asks for equality. -/
def NameOperator.ofWord (word : String) : NameOperator :=
  if word = "NOTEQUAL" then .notEqual else .equal

def NameOperator.symbol : NameOperator → String
  | .equal => "="
  | .notEqual => "<>"

/-- A filter on a set.
mirrors filter/mod:68-84 -/
inductive SetFilter where
  | predicate (expression : String)
  | ranking (function : Ranking) (count : UInt32) (expression : Option String)
  /-- Compares the names of the current members of a hierarchy. -/
  | name (hierarchy : String) (values : List String) (operator : NameOperator)
  deriving DecidableEq, Repr

/-- A filter that cannot be built: only rankings take a count. -/
inductive FilterError where
  | notRanking
  deriving DecidableEq, Repr

def FilterError.message : FilterError → String
  | .notRanking => "Invalid filter argument: Filter() cannot be used as a ranking function"

namespace SetFilter

/-- The ranking filter of a function.
mirrors filter/mod:92-103 -/
def rank (function : FilterFunction) (count : UInt32) (expression : Option String) :
    Except FilterError SetFilter :=
  match function with
  | .filter => .error .notRanking
  | .ranking r => .ok (.ranking r count expression)

/-- The function that the filter calls. -/
def function : SetFilter → FilterFunction
  | .ranking r .. => .ranking r
  | _ => .filter

/-! ## Names -/

/-- `hierarchy.CurrentMember.Name op "value"` -/
def nameClause (hierarchy : String) (op : NameOperator) (value : String) : Expr :=
  .operation op.symbol
    [.property (.property (.hierarchy hierarchy) "CurrentMember") "Name", .text value]

/-- The clauses joined by `OR`, nested to the left. -/
def anyOf (first : Expr) (rest : List Expr) : Expr :=
  rest.foldl (fun acc clause => .operation "OR" [acc, clause]) first

/-- The predicate of a name filter. The first of several values is always compared for
equality.
mirrors filter/mod:163-177 -/
def namePredicate (hierarchy : String) (op : NameOperator) : List String → Option Expr
  | [] => none
  | [value] => some (nameClause hierarchy op value)
  | value :: values =>
    some (anyOf (nameClause hierarchy .equal value) (values.map (nameClause hierarchy op)))

/-! ## Calls -/

/-- What follows the set in the filter's call.
mirrors filter/mod:130-144 -/
def arguments (read : Expr.Reader) : SetFilter → Except Expr.ReadError (List Expr)
  | .predicate text => do return [← read text]
  | .ranking _ count none => return [.number count.toNat]
  | .ranking _ count (some text) => do return [.number count.toNat, ← read text]
  | .name hierarchy values op => return (namePredicate hierarchy op values).toList

/-- The filter's call around a set. A name filter without values leaves the set as it is.
mirrors filter/mod:147-157 -/
def apply (read : Expr.Reader) (f : SetFilter) (set : Expr) : Except Expr.ReadError Expr := do
  let args ← f.arguments read
  if args.isEmpty then return set
  return .function f.function.name (set :: args)

/-- The calls of several filters around a set, the first innermost. -/
def applyAll (read : Expr.Reader) (filters : List SetFilter) (set : Expr) :
    Except Expr.ReadError Expr :=
  filters.foldlM (fun acc f => f.apply read acc) set

end SetFilter
end CubeQuery
