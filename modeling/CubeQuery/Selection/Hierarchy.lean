import CubeQuery.Axis
import CubeQuery.Calculated
import CubeQuery.Selection.Level

/-!
# What a query picks of a hierarchy

The levels in use, in the order of their depth, with what is picked on each; the calculated members
of the hierarchy and those in use; and the shape of the hierarchy's set. Every change checks all it
needs before it changes anything.
-/

namespace CubeQuery

/-- Changes the element at a position, unless the change is rejected. -/
def changeAt {α : Type} (f : α → Except Rejection α) : List α → Nat → Except Rejection (List α)
  | [], _ => return []
  | x :: xs, 0 => return (← f x) :: xs
  | x :: xs, i + 1 => return x :: (← changeAt f xs i)

theorem changeAt_eq {α : Type} (f : α → Except Rejection α) (xs : List α) (i : Nat) :
    changeAt f xs i =
      match xs[i]? with
      | some x => (f x).map (xs.set i)
      | none => .ok xs := by
  induction xs generalizing i with
  | nil => rfl
  | cons x xs ih =>
    cases i with
    | zero => simp only [changeAt, List.getElem?_cons_zero]; cases f x <;> rfl
    | succ i =>
      simp only [changeAt, ih, List.getElem?_cons_succ]
      cases xs[i]? with
      | none => rfl
      | some y => simp only []; cases f y <;> rfl

/-- What is picked of one hierarchy.
mirrors query/hierarchy:24-39 -/
structure HierarchySelection where
  hierarchy : Hierarchy
  /-- Where the hierarchy lies. -/
  location : Location := .unused
  /-- One selection for each level of the hierarchy. -/
  levels : List LevelSelection
  /-- Positions of the levels in use, in the order of their depth. -/
  active : List Nat := []
  calculated : List CalculatedMember := []
  /-- Positions of the calculated members that stand ahead of the levels, in the order in which
  they came into use. -/
  activeCalculated : List Nat := []
  /-- Lower levels are limited to what is picked above them. -/
  consistent : Bool := true
  visualTotals : Bool := false
  visualPattern : Option String := none
  shape : OrderedShape := {}

namespace HierarchySelection

/-- Nothing is picked of the hierarchy yet.
mirrors query/hierarchy:42-71 -/
def new (h : Hierarchy) : HierarchySelection where
  hierarchy := h
  levels := h.levels.map fun l => { level := l }

def uniqueName (s : HierarchySelection) : String := s.hierarchy.uniqueName

/-! ## Levels -/

/-- The first level of the given name, in use or not. -/
def level? (s : HierarchySelection) (name : String) : Option LevelSelection :=
  s.levels.find? (·.level.name = name)

/-- The levels in use. -/
def activeLevels (s : HierarchySelection) : List LevelSelection :=
  s.active.filterMap (s.levels[·]?)

/-- A level of the given name is in use. -/
def isActive (s : HierarchySelection) (name : String) : Bool :=
  s.activeLevels.any (·.level.name = name)

/-- The position of the first level of the given name.
mirrors query/hierarchy:349-356 -/
def levelIndex (s : HierarchySelection) (name : String) : Except Rejection Nat :=
  match s.levels.findIdx? (·.level.name = name) with
  | some i => .ok i
  | none => .error (.unknown .level (s.uniqueName ++ ".[" ++ name ++ "]"))

/-- The position of the first level of the given unique name.
mirrors query/hierarchy:358-363 -/
def levelIndexOf (s : HierarchySelection) (uniqueName : String) : Except Rejection Nat :=
  match s.levels.findIdx? (·.level.uniqueName = uniqueName) with
  | some i => .ok i
  | none => .error (.unknown .level uniqueName)

def modifyLevel (s : HierarchySelection) (i : Nat) (f : LevelSelection → LevelSelection) :
    HierarchySelection :=
  { s with levels := s.levels.modify i f }

/-- The depth of the level at a position. -/
def depthAt (s : HierarchySelection) (i : Nat) : Nat :=
  ((s.levels[i]?).map (·.level.depth)).getD 0

/-- Puts a position ahead of the first one that is as deep. -/
def insertByDepth (depth : Nat → Nat) (i : Nat) : List Nat → List Nat
  | [] => [i]
  | j :: js => if depth i ≤ depth j then i :: j :: js else j :: insertByDepth depth i js

/-- The positions in the order of their depth. Equally deep ones keep their order. -/
def sortByDepth (depth : Nat → Nat) : List Nat → List Nat
  | [] => []
  | i :: is => insertByDepth depth i (sortByDepth depth is)

/-- Puts a level into use.
mirrors query/hierarchy:377-383 -/
def activate (s : HierarchySelection) (i : Nat) : HierarchySelection :=
  if i ∈ s.active then s
  else { s with active := sortByDepth s.depthAt (s.active ++ [i]) }

/-- Puts the level of the given name into use.
mirrors query/hierarchy:144-148 -/
def includeLevel (s : HierarchySelection) (name : String) : Except Rejection HierarchySelection :=
  return s.activate (← s.levelIndex name)

/-- Takes the level of the given name out of use. What is picked on it stays.
mirrors query/hierarchy:151-155 -/
def excludeLevel (s : HierarchySelection) (name : String) :
    Except Rejection HierarchySelection := do
  let i ← s.levelIndex name
  return { s with active := s.active.filter (· ≠ i) }

/-- Changes what is picked on the level of the given name. -/
def updateLevel (s : HierarchySelection) (name : String)
    (f : LevelSelection → Except Rejection LevelSelection) :
    Except Rejection HierarchySelection := do
  let i ← s.levelIndex name
  return { s with levels := ← changeAt f s.levels i }

/-- Takes all levels out of use and drops what was picked on them.
mirrors query/hierarchy:158-163 -/
def clear (s : HierarchySelection) : HierarchySelection :=
  { s.active.foldl (fun s i => s.modifyLevel i (·.clear)) s with active := [] }

/-! ## Members -/

/-- The position of a member's level, if the member belongs to the hierarchy.
mirrors query/hierarchy:365-375 -/
def levelOfMember (s : HierarchySelection) (pick : Pick) (m : Member) : Except Rejection Nat :=
  if m.hierarchy ≠ s.uniqueName then .error (.memberElsewhere pick m.uniqueName s.uniqueName)
  else s.levelIndexOf m.level

/-- Picks a member and puts its level into use.
mirrors query/hierarchy:168-173,186-191 -/
def pickMember (s : HierarchySelection) (pick : Pick) (m : Member) :
    Except Rejection HierarchySelection := do
  let i ← s.levelOfMember pick m
  return (s.activate i).modifyLevel i (·.pick pick m)

/-- Picks several members, or none if one of them cannot be picked.
mirrors query/hierarchy:175-183,193-201 -/
def pickMembers (s : HierarchySelection) (pick : Pick) (ms : List Member) :
    Except Rejection HierarchySelection :=
  ms.foldlM (fun s m => s.pickMember pick m) s

/-- Picks the range between two members of a level.
mirrors query/hierarchy:204-223 -/
def includeRange (s : HierarchySelection) (start stop : Member) :
    Except Rejection HierarchySelection := do
  if start.level ≠ stop.level then throw (.rangeAcrossLevels start.level stop.level)
  if start.hierarchy ≠ s.uniqueName then
    throw (.rangeElsewhere start.uniqueName stop.uniqueName s.uniqueName)
  let i ← s.levelIndexOf start.level
  return (s.activate i).modifyLevel i ({ · with range := some (.members start stop) })

/-! ## Calculated members -/

/-- The calculated members that stand ahead of the levels. -/
def activeCalculatedMembers (s : HierarchySelection) : List CalculatedMember :=
  s.activeCalculated.filterMap (s.calculated[·]?)

/-- The position of the calculated member of the given unique name. -/
def calculatedIndex? (s : HierarchySelection) (uniqueName : String) : Option Nat :=
  s.calculated.findIdx? (·.uniqueName = uniqueName)

/-- Registers a calculated member, in the place of one with the same unique name, and gives its
position.
mirrors query/hierarchy:237-259 -/
def register (s : HierarchySelection) (m : CalculatedMember) :
    Except Rejection (HierarchySelection × Nat) :=
  if m.hierarchy ≠ s.uniqueName then .error (.calculatedElsewhere m.uniqueName s.uniqueName)
  else match s.calculatedIndex? m.uniqueName with
    | some i => .ok ({ s with calculated := s.calculated.set i m }, i)
    | none => .ok ({ s with calculated := s.calculated ++ [m] }, s.calculated.length)

/-- Puts a calculated member into use, ahead of the levels or as a member picked on its level.
mirrors query/hierarchy:265-288 -/
def includeCalculated (s : HierarchySelection) (m : CalculatedMember) (onLevel : Bool) :
    Except Rejection HierarchySelection := do
  if onLevel then
    let level ← s.levelIndexOf m.level
    let (s, _) ← s.register m
    return (s.activate level).modifyLevel level (·.add m.asMember)
  else
    let (s, i) ← s.register m
    if i ∈ s.activeCalculated then return s
    return { s with activeCalculated := s.activeCalculated ++ [i] }

/-- Takes a calculated member that stands ahead of the levels out of use.
mirrors query/hierarchy:290-298 -/
def excludeCalculated (s : HierarchySelection) (uniqueName : String) : HierarchySelection :=
  match s.calculatedIndex? uniqueName with
  | some i => { s with activeCalculated := s.activeCalculated.filter (· ≠ i) }
  | none => s

/-! ## Totals and order -/

/-- Switches visual totals. Off, they have no pattern.
mirrors query/hierarchy:317-322 -/
def setVisualTotals (s : HierarchySelection) (on : Bool) : HierarchySelection :=
  { s with visualTotals := on, visualPattern := if on then s.visualPattern else none }

/-- Sets the pattern of visual totals and switches them on. -/
def setVisualPattern (s : HierarchySelection) (pattern : String) : HierarchySelection :=
  { s with visualTotals := true, visualPattern := some pattern }

/-- The set has to be brought into the order of the hierarchy: for visual totals, or because it
joins several levels and nothing else says how to order it.
mirrors query/hierarchy:335-337 -/
def needsHierarchize (s : HierarchySelection) : Bool :=
  s.visualTotals || (s.active.length > 1 && s.shape.hierarchize.isNone)

end HierarchySelection
end CubeQuery
