import CubeQuery.Catalog

/-!
# Finding members

A member is found by a path of names: the names of a hierarchy, then the member's own path or the
name of a level with the member's name on it. Hierarchies with more names are tried first.
-/

namespace CubeQuery

/-- The name of the hierarchy that holds the measures. -/
def measuresName : String := "Measures"

/-- The hierarchy of the measures. -/
def measuresHierarchy : String := Identifier.quote measuresName

/-- The level of the measures. -/
def measuresLevel : String := Identifier.uniqueName [measuresName, "MeasuresLevel"]

/-- The unique name of a measure. -/
def measureUniqueName (name : String) : String := Identifier.uniqueName [measuresName, name]

def StoredMeasure.member (m : StoredMeasure) : Member where
  name := m.name
  uniqueName := measureUniqueName m.name
  level := measuresLevel
  hierarchy := measuresHierarchy
  kind := .measure

/-- The stored measures as members. -/
def Cube.measureMembers (c : Cube) : List Member := c.measures.map (·.member)

namespace Hierarchy

/-- The first member, level by level, with the given path. -/
def memberAt? (h : Hierarchy) (path : List String) : Option Member :=
  h.levels.findSome? fun l => (l.paths.find? (· = path)).map l.member

/-- The first member of the given name on the first level of the given name. -/
def memberOn? (h : Hierarchy) (level name : String) : Option Member :=
  (h.level? level).bind fun l => l.members.find? (·.name = name)

/-- The member that a path names inside the hierarchy.
mirrors metadata/dimension:171-191 -/
def member? (h : Hierarchy) (path : List String) : Option Member :=
  match h.memberAt? path with
  | some m => some m
  | none =>
    match path with
    | [level, name] => h.memberOn? level name
    | _ => none

/-- What follows the hierarchy's own names in a path, if anything does. -/
def rest? (h : Hierarchy) (path : List String) : Option (List String) :=
  (Identifier.segments? h.uniqueName).bind fun names =>
    match names.isPrefixOf? path with
    | some (name :: rest) => some (name :: rest)
    | _ => none

end Hierarchy

namespace Cube

/-- The hierarchies whose names begin a path, with the rest of the path, most names first. -/
def candidates (c : Cube) (path : List String) : List (Hierarchy × List String) :=
  (c.hierarchies.filterMap fun h => (h.rest? path).map (h, ·)).mergeSort
    (fun a b => a.2.length ≤ b.2.length)

/-- The member that a path names. A path of two names that begins with the name of the measures
names a stored measure or nothing.
mirrors metadata/schema:133-157 -/
def member? (c : Cube) (path : List String) : Option Member :=
  match path with
  | [a, b] =>
    if a = measuresName then (c.measures.find? (·.name = b)).map (·.member)
    else (c.candidates path).findSome? fun (h, rest) => h.member? rest
  | _ => (c.candidates path).findSome? fun (h, rest) => h.member? rest

/-- The member of a written name.
mirrors metadata/schema:115-118 -/
def memberNamed? (c : Cube) (uniqueName : String) : Option Member :=
  (Identifier.segments? uniqueName).bind c.member?

/-- The default member of a hierarchy: the one it names, or else its first root member.
mirrors metadata/schema:159-164 -/
def defaultMember? (c : Cube) (h : Hierarchy) : Option Member :=
  match h.defaultMember with
  | some name => c.memberNamed? name
  | none => h.rootMembers.head?

end Cube

/-- Where members are looked up: by a path of names, and the default member of a hierarchy.
mirrors metadata/member:42-48 -/
structure MemberSource where
  member? : List String → Option Member
  default? : Hierarchy → Option Member

/-- Members are looked up in the cube itself. -/
def Cube.source (c : Cube) : MemberSource := ⟨c.member?, c.defaultMember?⟩

end CubeQuery
