import CubeQuery.Identifier

/-!
# Catalogs

A catalog lists cubes. A cube has dimensions, a dimension hierarchies, a hierarchy levels, a level
members; measures stand beside the dimensions. The entries of a catalog are what somebody wrote
down. Linking them settles what follows from where an entry stands: the unique names, the depth of
a level, and the one member of an all level that lists none.
-/

namespace CubeQuery

/-! ## Members -/

/-- What kind of member it is. -/
inductive MemberKind where
  | regular
  /-- The root member of an all level. -/
  | all
  | measure
  /-- A member that a query defines by a formula. -/
  | formula
  deriving DecidableEq, Repr, Inhabited

/-- A member, known by its unique name.
mirrors metadata/member:20-30 -/
structure Member where
  name : String
  uniqueName : String
  /-- The unique name of its level. -/
  level : String
  /-- The unique name of its hierarchy. -/
  hierarchy : String
  depth : Nat := 0
  kind : MemberKind := .regular
  deriving DecidableEq, Repr, Inhabited

/-- A name below another one: the unique name of a member under its parent. -/
def below (parent name : String) : String := parent ++ "." ++ Identifier.quote name

/-! ## Entries -/

inductive LevelKind where
  | all
  | regular
  deriving DecidableEq, Repr, Inhabited

/-- A level as written down. A member is the path of names that leads to it. -/
structure LevelEntry where
  name : String
  caption : Option String := none
  kind : LevelKind := .regular
  members : List (List String) := []
  deriving DecidableEq, Repr, Inhabited

structure HierarchyEntry where
  name : String
  caption : Option String := none
  defaultMember : Option String := none
  levels : List LevelEntry := []
  deriving DecidableEq, Repr, Inhabited

structure DimensionEntry where
  name : String
  caption : Option String := none
  hierarchies : List HierarchyEntry := []
  deriving DecidableEq, Repr, Inhabited

/-- A measure that the cube stores. -/
structure StoredMeasure where
  name : String
  caption : Option String := none
  formatString : Option String := none
  deriving DecidableEq, Repr, Inhabited

structure CubeEntry where
  name : String
  caption : Option String := none
  dimensions : List DimensionEntry := []
  measures : List StoredMeasure := []
  deriving DecidableEq, Repr, Inhabited

/-! ## Linked parts -/

/-- A level at its place in a hierarchy.
mirrors metadata/dimension:42-56 -/
structure Level where
  name : String
  caption : Option String
  kind : LevelKind
  /-- The paths of its members. -/
  paths : List (List String)
  /-- The unique name of its hierarchy. -/
  hierarchy : String
  depth : Nat
  deriving DecidableEq, Repr, Inhabited

/-- A hierarchy of a dimension.
mirrors metadata/dimension:18-29 -/
structure Hierarchy where
  name : String
  caption : Option String
  /-- The default member as written down. -/
  defaultMember : Option String
  /-- The name of its dimension. -/
  dimension : String
  levels : List Level
  deriving DecidableEq, Repr, Inhabited

structure Dimension where
  name : String
  caption : Option String
  hierarchies : List Hierarchy
  deriving DecidableEq, Repr, Inhabited

/-- mirrors metadata/schema:21-28 -/
structure Cube where
  name : String
  caption : Option String
  dimensions : List Dimension
  measures : List StoredMeasure
  deriving DecidableEq, Repr, Inhabited

namespace Level

def uniqueName (l : Level) : String := below l.hierarchy l.name

def isAll (l : Level) : Bool := l.kind = .all

/-- The member that a path leads to.
mirrors metadata/dimension:244-259 -/
def member (l : Level) (path : List String) : Member where
  name := path.getLast?.getD ""
  uniqueName := path.foldl below l.hierarchy
  level := l.uniqueName
  hierarchy := l.hierarchy
  depth := l.depth
  kind := if l.isAll then .all else .regular

def members (l : Level) : List Member := l.paths.map l.member

end Level

namespace Hierarchy

/-- A hierarchy named like its dimension is known by that one name. -/
def nameIn (dimension name : String) : String :=
  if name = dimension then Identifier.quote dimension
  else Identifier.uniqueName [dimension, name]

def uniqueName (h : Hierarchy) : String := nameIn h.dimension h.name

/-- The caption, or the name in its place. -/
def label (h : Hierarchy) : String := h.caption.getD h.name

/-- The first level of the given name. -/
def level? (h : Hierarchy) (name : String) : Option Level := h.levels.find? (·.name = name)

/-- The members of the first level.
mirrors metadata/dimension:163-168 -/
def rootMembers (h : Hierarchy) : List Member :=
  match h.levels with
  | [] => []
  | l :: _ => l.members

end Hierarchy

namespace Dimension

/-- The first hierarchy of the given name. -/
def hierarchy? (d : Dimension) (name : String) : Option Hierarchy :=
  d.hierarchies.find? (·.name = name)

end Dimension

namespace Cube

def uniqueName (c : Cube) : String := Identifier.quote c.name

/-- The hierarchies, dimension by dimension. -/
def hierarchies (c : Cube) : List Hierarchy := c.dimensions.flatMap (·.hierarchies)

/-- The first hierarchy of the given unique name. -/
def hierarchy? (c : Cube) (uniqueName : String) : Option Hierarchy :=
  c.hierarchies.find? (·.uniqueName = uniqueName)

/-- The first dimension of the given name. -/
def dimension? (c : Cube) (name : String) : Option Dimension :=
  c.dimensions.find? (·.name = name)

end Cube

/-! ## Linking -/

/-- The level at a depth of a hierarchy. An all level without members has one, named after its
hierarchy. -/
def LevelEntry.link (e : LevelEntry) (hierarchy label : String) (depth : Nat) : Level where
  name := e.name
  caption := e.caption
  kind := e.kind
  paths := if e.kind = .all ∧ e.members = [] then [["All " ++ label ++ "s"]] else e.members
  hierarchy := hierarchy
  depth := depth

/-- The levels of a hierarchy, counted from a depth. -/
def LevelEntry.linkFrom (hierarchy label : String) (depth : Nat) : List LevelEntry → List Level
  | [] => []
  | e :: es => e.link hierarchy label depth :: linkFrom hierarchy label (depth + 1) es

def HierarchyEntry.link (e : HierarchyEntry) (dimension : String) : Hierarchy where
  name := e.name
  caption := e.caption
  defaultMember := e.defaultMember
  dimension := dimension
  levels := LevelEntry.linkFrom (Hierarchy.nameIn dimension e.name) e.name 0 e.levels

/-- mirrors metadata/dimension:103-122 -/
def DimensionEntry.link (e : DimensionEntry) : Dimension where
  name := e.name
  caption := e.caption
  hierarchies := e.hierarchies.map (·.link e.name)

def CubeEntry.link (e : CubeEntry) : Cube where
  name := e.name
  caption := e.caption
  dimensions := e.dimensions.map (·.link)
  measures := e.measures

/-- The cubes of a catalog. -/
structure Catalog where
  cubes : List Cube
  deriving DecidableEq, Repr, Inhabited

/-- The first cube of the given name. -/
def Catalog.cube? (c : Catalog) (name : String) : Option Cube := c.cubes.find? (·.name = name)

/-- The catalog of the given entries. -/
def Catalog.ofEntries (entries : List CubeEntry) : Catalog := ⟨entries.map (·.link)⟩

end CubeQuery
