import CubeQuery.Bindings
import CubeQuery.Catalog.Lookup

/-!
# Calculated members and measures

A query can define members of a hierarchy, and measures, by formulas. Each gets a unique name of
its own and may carry properties such as a format.
-/

namespace CubeQuery

/-- The property that holds a display format. -/
def formatProperty : String := "FORMAT_STRING"

/-- A member defined by a formula.
mirrors query/calculated:8-22 -/
structure CalculatedMember where
  name : String
  uniqueName : String
  /-- The unique name of its hierarchy. -/
  hierarchy : String
  dimension : String
  /-- The unique name of the level it is listed on. -/
  level : String
  /-- The unique name of its parent. -/
  parent : Option String
  formula : String
  properties : Bindings String

namespace CalculatedMember

/-- A member of a hierarchy, listed on its first level and named by dimension, hierarchy and its
own name.
mirrors query/calculated:26-46 -/
def new (h : Hierarchy) (name formula : String) : CalculatedMember where
  name := name
  uniqueName := Identifier.uniqueName [h.dimension, h.name, name]
  hierarchy := h.uniqueName
  dimension := h.dimension
  level := (h.levels.head?.map (·.uniqueName)).getD ""
  parent := none
  formula := formula
  properties := .empty

/-- Puts the member below a parent and names it after the parent. -/
def withParent (m : CalculatedMember) (parent : Member) : CalculatedMember :=
  { m with uniqueName := below parent.uniqueName m.name, parent := some parent.uniqueName }

/-- Names a member without a parent by the last name of its hierarchy and its own. -/
def withTwoPartName (m : CalculatedMember) : CalculatedMember :=
  match m.parent with
  | some _ => m
  | none =>
    let last := ((Identifier.segments? m.hierarchy).bind (·.getLast?)).getD m.hierarchy
    { m with uniqueName := Identifier.uniqueName [last, m.name] }

/-- Lists the member on a level of the hierarchy. A level that the hierarchy lacks changes
nothing.
mirrors query/calculated:67-78 -/
def withLevel (m : CalculatedMember) (h : Hierarchy) (level : String) : CalculatedMember :=
  if h.levels.any (·.uniqueName = level) then { m with level := level } else m

theorem withLevel_hierarchy (m : CalculatedMember) (h : Hierarchy) (level : String) :
    (m.withLevel h level).hierarchy = m.hierarchy := by
  unfold withLevel
  split <;> rfl

def withProperties (m : CalculatedMember) (properties : Bindings String) : CalculatedMember :=
  { m with properties := m.properties.union properties }

def withProperty (m : CalculatedMember) (name value : String) : CalculatedMember :=
  { m with properties := m.properties.insert name value }

/-- The member as it is picked on a level.
mirrors query/calculated:91-100 -/
def asMember (m : CalculatedMember) : Member where
  name := m.name
  uniqueName := m.uniqueName
  level := m.level
  hierarchy := m.hierarchy
  kind := .formula

end CalculatedMember

/-- A measure defined by a formula.
mirrors query/calculated:105-110 -/
structure CalculatedMeasure where
  name : String
  formula : String
  properties : Bindings String

namespace CalculatedMeasure

def new (name formula : String) : CalculatedMeasure := ⟨name, formula, .empty⟩

def uniqueName (m : CalculatedMeasure) : String := measureUniqueName m.name

def withProperties (m : CalculatedMeasure) (properties : Bindings String) : CalculatedMeasure :=
  { m with properties := m.properties.union properties }

def withProperty (m : CalculatedMeasure) (name value : String) : CalculatedMeasure :=
  { m with properties := m.properties.insert name value }

def asMember (m : CalculatedMeasure) : Member where
  name := m.name
  uniqueName := m.uniqueName
  level := measuresLevel
  hierarchy := measuresHierarchy
  kind := .formula

end CalculatedMeasure
end CubeQuery
