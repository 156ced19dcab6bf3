import CubeQuery.Bindings
import CubeQuery.Catalog
import CubeQuery.SetShape

/-!
# What a query picks on a level

Members to include and to exclude, a range, the parameter that stands for either list, and the
shape of the level's set.
-/

namespace CubeQuery

/-- The values of a query's parameters. A parameter may be known and still lack a value. -/
abbrev Parameters := Bindings (Option String)

/-- A range on a level: between two members, or as written. -/
inductive LevelRange where
  | members (start stop : Member)
  | expressions (start : String) (stop : Option String)
  deriving DecidableEq, Repr

/-- What is picked on one level.
mirrors query/level:31-40 -/
structure LevelSelection where
  level : Level
  included : List Member := []
  excluded : List Member := []
  range : Option LevelRange := none
  /-- The name of the bound parameter, as given. -/
  parameter : Option String := none
  /-- The list that the parameter's value replaces. -/
  parameterPick : Pick := .inclusion
  shape : SetShape := {}
  deriving DecidableEq, Repr

namespace LevelSelection

/-- The bound parameter. A blank name binds none.
mirrors query/level:124-128 -/
def parameter? (s : LevelSelection) : Option String :=
  s.parameter.filter (fun name => !Text.isBlankText name)

/-- Includes a member, once.
mirrors query/level:164-168 -/
def add (s : LevelSelection) (m : Member) : LevelSelection :=
  if m ∈ s.included then s else { s with included := s.included ++ [m] }

/-- Moves a member to the excluded ones.
mirrors query/level:171-176 -/
def exclude (s : LevelSelection) (m : Member) : LevelSelection :=
  { s with
    included := s.included.filter (· ≠ m)
    excluded := if m ∈ s.excluded then s.excluded else s.excluded ++ [m] }

def pick (s : LevelSelection) : Pick → Member → LevelSelection
  | .inclusion => s.add
  | .exclusion => s.exclude

/-- Drops the members and the range.
mirrors query/level:182-186 -/
def clear (s : LevelSelection) : LevelSelection :=
  { s with included := [], excluded := [], range := none }

/-- The parameter bound to the level has a value. -/
def hasValue (s : LevelSelection) (parameters : Parameters) : Bool :=
  match s.parameter? with
  | some name => ((parameters.get? name).getD none).isSome
  | none => false

/-- The level stands for all its members, unchanged. Members and a range do not count on an all
level.
mirrors query/level:154-162 -/
def isSimple (s : LevelSelection) (parameters : Parameters) : Bool :=
  s.shape.isPlain
    && (s.level.isAll || (s.included.isEmpty && s.excluded.isEmpty && s.range.isNone))
    && !s.hasValue parameters

end LevelSelection
end CubeQuery
