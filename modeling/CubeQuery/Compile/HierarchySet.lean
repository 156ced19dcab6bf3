import CubeQuery.Compile.LevelSet

/-!
# The set of a hierarchy

The sets of the levels in use, joined. The first level that is not simple is the pivot: in a
consistent hierarchy the levels above it keep what exists with it, and each level below keeps what
exists with the level before it. With a pivot among several levels, every level's set is declared
and stands under its name.
-/

namespace CubeQuery.Compiler

/-- The name under which the set of a level is declared.
mirrors compiler/hierarchy:122-124 -/
def levelSetName (h : Hierarchy) (l : Level) : Identifier :=
  .ofParts [h.dimension, h.name, l.name]

/-- The part of a set that exists with a reference. -/
def existing (set : Expr) : Option Expr → Expr
  | none => set
  | some reference => .function "Exists" [set, reference]

/-- How the levels of a hierarchy refer to each other. -/
structure Linkage where
  /-- The position of the first level that is not simple. -/
  pivot : Option Nat
  /-- The sets of the levels are declared. -/
  declares : Bool

/-- The linkage of the given levels. -/
def Linkage.of (parameters : Parameters) (levels : List LevelSelection) : Linkage :=
  let pivot := levels.findIdx? (!·.isSimple parameters)
  { pivot, declares := pivot.isSome && levels.length > 1 }

/-- The set of a level, restricted by the reference that holds at its position. -/
def restricted (h : HierarchySelection) (k : Linkage) (i : Nat) (reference : Option Expr)
    (l : LevelSelection) (own : Expr) : Expr :=
  if h.consistent && k.pivot ≠ some i && !l.level.isAll then existing own reference else own

/-- The reference that holds behind a level whose set is declared. -/
def Linkage.next (k : Linkage) (parameters : Parameters) (h : Hierarchy) (i : Nat)
    (reference : Option Expr) (l : LevelSelection) : Option Expr :=
  let behind := match k.pivot with
    | some p => decide (p < i)
    | none => false
  if !l.isSimple parameters || behind then some (.identifier (levelSetName h l.level))
  else reference

/-- The sets of the levels from a position on, each restricted by the reference that holds
there.
mirrors compiler/hierarchy:77-100 -/
def levelSetsFrom (c : Compiler) (parameters : Parameters) (h : HierarchySelection)
    (k : Linkage) : Nat → Option Expr → List LevelSelection →
    Except Failure (Declared (List Expr))
  | _, _, [] => return ⟨[], []⟩
  | i, reference, l :: rest => do
    let own ← c.levelSet parameters h.hierarchy l
    let set := restricted h k i reference l own
    if k.declares then
      let name := levelSetName h.hierarchy l.level
      let next := k.next parameters h.hierarchy i reference l
      let others ← c.levelSetsFrom parameters h k (i + 1) next rest
      return ⟨.identifier name :: others.value, .set name set :: others.declarations⟩
    else
      let others ← c.levelSetsFrom parameters h k (i + 1) reference rest
      return ⟨set :: others.value, others.declarations⟩

/-- The sets of the levels in use, one for each. -/
def levelSets (c : Compiler) (parameters : Parameters) (h : HierarchySelection) :
    Except Failure (Declared (List Expr)) :=
  let levels := h.activeLevels
  let k := Linkage.of parameters levels
  let reference := (k.pivot.bind (levels[·]?)).map
    fun l => .identifier (levelSetName h.hierarchy l.level)
  c.levelSetsFrom parameters h k 0 reference levels

/-- Several sets as one. -/
def unionSet : List Expr → Option Expr
  | [] => none
  | [e] => some e
  | es => some (.set es)

/-- The levels of a hierarchy as one set.
mirrors compiler/hierarchy:59-118 -/
def joinedLevels (c : Compiler) (q : Query) (h : HierarchySelection) (location : Location) :
    Except Failure (Declared (Option Expr)) := do
  let sets ← c.levelSets q.parameters h
  if q.onlyLowestLevels location then return ⟨sets.value.getLast?, sets.declarations⟩
  let joined := unionSet sets.value
  if h.needsHierarchize then
    return ⟨joined.map fun set => .function "Hierarchize" [set], sets.declarations⟩
  return ⟨joined, sets.declarations⟩

/-- The calculated members in front of the levels.
mirrors compiler/hierarchy:31-40 -/
def withCalculated (h : HierarchySelection) (levels : Option Expr) : Option Expr :=
  match h.activeCalculatedMembers, levels with
  | [], levels => levels
  | ms, none => some (.set (ms.map fun m => .member m.uniqueName))
  | ms, some levels => some (.set [.set (ms.map fun m => .member m.uniqueName), levels])

/-- Visual totals around a set, if the hierarchy has them.
mirrors compiler/hierarchy:47-54 -/
def totalled (q : Query) (h : HierarchySelection) (set : Expr) : Expr :=
  if q.hasVisualTotals h then
    .function "VisualTotals" (set :: ((q.visualPatternOf h).map Expr.text).toList)
  else set

/-- The set of a hierarchy. Without an override, a level or a calculated member in use it is
empty.
mirrors compiler/hierarchy:12-55 -/
def hierarchySet (c : Compiler) (q : Query) (h : HierarchySelection) (location : Location) :
    Except Failure (Declared Expr) := do
  match h.shape.base.override with
  | some _ =>
    let set ← c.shapedAndOrdered h.shape none
    return ⟨totalled q h (set.getD .emptySet), []⟩
  | none =>
    if h.activeLevels.isEmpty && h.activeCalculatedMembers.isEmpty then return ⟨.emptySet, []⟩
    let levels ← c.joinedLevels q h location
    let set ← c.shapedAndOrdered h.shape (withCalculated h levels.value)
    return ⟨totalled q h (set.getD .emptySet), levels.declarations⟩

end CubeQuery.Compiler
