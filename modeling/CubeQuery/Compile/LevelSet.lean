import CubeQuery.Compile.Context
import CubeQuery.Query.Parameters

/-!
# The set of a level

All members of the level, narrowed by what the query picks on it.
-/

namespace CubeQuery.Compiler

/-- The members that a parameter's value names, separated by commas. A single name is taken as a
name on the level.
mirrors compiler/level:94-116 -/
def valueMembers (c : Compiler) (level : Level) (value : String) :
    Except Failure (List Member) :=
  (Text.commaList value).mapM fun name => do
    let some path := Identifier.segments? name | throw (.unknownMember name)
    let path := match path with
      | [_] => (Identifier.segments? level.uniqueName).getD [] ++ path
      | _ => path
    let some m := c.source.member? path | throw (.unknownMember name)
    return m

/-- The parameter value that stands for members of the level. -/
def valueOn (c : Compiler) (parameters : Parameters) (s : LevelSelection) : Option String :=
  if c.options.legacyParameters then
    ((s.parameter?.bind parameters.get?).getD none).filter (fun v => !Text.isBlankText v)
  else none

/-- The included and the excluded members, one of the lists replaced by the value of the bound
parameter.
mirrors compiler/level:67-91 -/
def picked (c : Compiler) (parameters : Parameters) (s : LevelSelection) :
    Except Failure (List Member × List Member) := do
  match c.valueOn parameters s with
  | none => return (s.included, s.excluded)
  | some value =>
    let members ← c.valueMembers s.level value
    match s.parameterPick with
    | .inclusion => return (members, s.excluded)
    | .exclusion => return (s.included, members)

/-- The members in braces. -/
def memberSet (ms : List Member) : Expr := .set (ms.map fun m => .member m.uniqueName)

/-- The whole level: its members, or the default member in place of an all level. -/
def wholeLevel (c : Compiler) (h : Hierarchy) (l : Level) : Except Failure Expr :=
  if l.isAll then
    match c.source.default? h with
    | some m => .ok (memberSet [m])
    | none => .error (.noDefaultMember h.uniqueName)
  else .ok (.set [.property (.level l.uniqueName) "Members"])

/-- The range in place of the whole level. -/
def ranged (c : Compiler) (range : Option LevelRange) (whole : Expr) : Except Failure Expr :=
  match range with
  | none => .ok whole
  | some (.members start stop) =>
    .ok (.operation ":" [.member start.uniqueName, .member stop.uniqueName])
  | some (.expressions start stop) => do
    let text := match stop.filter (fun t => !Text.isBlankText t) with
      | some stop => start ++ " : " ++ stop
      | none => start
    return .set [← c.expr text]

/-- The included members in place of a set, and the excluded ones taken out of it. -/
def narrowed (included excluded : List Member) (set : Expr) : Expr :=
  let set := if included.isEmpty then set else memberSet included
  if excluded.isEmpty then set else .function "Except" [set, memberSet excluded]

/-- The set of a level.
mirrors compiler/level:12-64 -/
def levelSet (c : Compiler) (parameters : Parameters) (h : Hierarchy) (s : LevelSelection) :
    Except Failure Expr := do
  let (included, excluded) ← c.picked parameters s
  let whole ← c.wholeLevel h s.level
  let set ← c.ranged s.range whole
  c.shaped s.shape (narrowed included excluded set)

end CubeQuery.Compiler
