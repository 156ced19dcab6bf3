import CubeQuery.Compile
import CubeQuery.Outcome
import Mathlib.Data.List.Forall2

/-!
# Queries that compile alike

What the compilation of a query depends on. The statement is made of the sets of the hierarchies
that it shows (`statement_congr`), and the set of a hierarchy of the sets of its levels in use, of
their linkage and of what the hierarchy asks of the whole (`hierarchySet_congr`). So a hierarchy
with an override counts by its shape and its totals only, any other one also by its levels in use;
of the values of parameters, what they pick and which level is the pivot. Where two queries agree on
that, they have the same sets (`hierarchySet_alike`), for whichever server, and the same statement
(`statement_alike`).
-/

namespace CubeQuery

/-- The statement shows the hierarchies of a location: they do not lie aside, and no override stands
in their place. -/
def Query.Shows (q : Query) (l : Location) : Prop :=
  l ≠ .unused ∧ (q.axes.get l).shape.base.override = none

namespace Compiler

/-- The compiler for another server. -/
def writingFor (c : Compiler) (flavor : Option Flavor) : Compiler :=
  { c with options := { c.options with flavor } }

variable {c : Compiler} {f : Option Flavor} {q q' : Query}

/-! ## Levels -/

theorem levelSet_alike {p p' : Parameters} {h : Hierarchy} {l : LevelSelection}
    (hp : c.picked p' l = c.picked p l) :
    (c.writingFor f).levelSet p' h l = c.levelSet p h l := by
  have hpicked : (c.writingFor f).picked p' l = c.picked p l := hp
  rw [levelSet, levelSet, hpicked]
  rfl

/-- The level at the pivot and every level behind it pass on their own name. So the reference that
holds behind a level is known from the pivot alone. -/
theorem next_of_pivot {p : Parameters} {levels : List LevelSelection} {i : Nat}
    {l : LevelSelection} (hl : levels[i]? = some l) (h : Hierarchy) (reference : Option Expr) :
    (Linkage.of p levels).next p h i reference l =
      if (Linkage.of p levels).pivot.any (· ≤ i) then some (.identifier (levelSetName h l.level))
      else reference := by
  obtain ⟨hi, rfl⟩ := List.getElem?_eq_some_iff.1 hl
  unfold Linkage.next
  cases hpivot : (Linkage.of p levels).pivot with
  | none =>
    have hsimple := List.findIdx?_eq_none_iff.1 hpivot levels[i] (List.getElem_mem hi)
    simpa using fun hnot => absurd hsimple (by simp [hnot])
  | some j =>
    obtain ⟨hj, hnot, habove⟩ := List.findIdx?_eq_some_iff_getElem.1 hpivot
    rcases Nat.lt_trichotomy i j with hlt | rfl | hlt
    · have hsimple : levels[i].isSimple p = true := by
        simpa using habove i hlt
      simp [hsimple, Nat.not_le.2 hlt, Nat.not_lt.2 (Nat.le_of_lt hlt)]
    · simp [Bool.eq_false_iff.2 (by simpa using hnot)]
    · simp [hlt, Nat.le_of_lt hlt]

/-- Two selections of one level have the same set. -/
structure SameLevel (c : Compiler) (f : Option Flavor) (p p' : Parameters) (h : Hierarchy)
    (l l' : LevelSelection) : Prop where
  level : l'.level = l.level
  set : (c.writingFor f).levelSet p' h l' = c.levelSet p h l

theorem levelSetsFrom_congr {p p' : Parameters} {h h' : HierarchySelection} {k : Linkage}
    (hh : h'.hierarchy = h.hierarchy) (hc : h'.consistent = h.consistent)
    {ls ls' : List LevelSelection}
    (hls : List.Forall₂ (c.SameLevel f p p' h.hierarchy) ls ls') :
    ∀ {i : Nat} {reference : Option Expr},
      (∀ j l l' r, ls[j]? = some l → ls'[j]? = some l' →
        k.next p' h.hierarchy (i + j) r l' = k.next p h.hierarchy (i + j) r l) →
      (c.writingFor f).levelSetsFrom p' h' k i reference ls' =
        c.levelSetsFrom p h k i reference ls := by
  induction hls with
  | nil => exact fun _ => rfl
  | @cons l l' ls ls' hl _ ih =>
    intro i reference hn
    have hnext : ∀ r, k.next p' h.hierarchy i r l' = k.next p h.hierarchy i r l :=
      fun r => hn 0 l l' r rfl rfl
    have hrest : ∀ r, (c.writingFor f).levelSetsFrom p' h' k (i + 1) r ls' =
        c.levelSetsFrom p h k (i + 1) r ls := by
      intro r
      refine ih fun j m m' r hm hm' => ?_
      rw [Nat.add_right_comm]
      exact hn (j + 1) m m' r hm hm'
    simp only [levelSetsFrom, restricted, hh, hc, hl.level, hl.set, hnext, hrest]

/-- A single level stands for itself, whether it is simple or not. -/
theorem levelSets_single {p : Parameters} {h : HierarchySelection} {l : LevelSelection}
    (hl : h.activeLevels = [l]) :
    c.levelSets p h = (do
      let own ← c.levelSet p h.hierarchy l
      return ⟨[own], []⟩) := by
  have hk : (Linkage.of p [l]).declares = false := by simp [Linkage.of]
  simp only [levelSets, hl, levelSetsFrom, hk, Bool.false_eq_true, if_false, pure_eq_ok, ok_bind]
  refine bind_congr fun own => ?_
  cases hs : l.isSimple p <;> simp [restricted, existing, Linkage.of, hs]

/-- What is in use of two hierarchies has the same sets. -/
structure SameUse (c : Compiler) (f : Option Flavor) (q q' : Query) (h h' : HierarchySelection) :
    Prop where
  active : List.Forall₂ (c.SameLevel f q.parameters q'.parameters h.hierarchy) h.activeLevels
    h'.activeLevels
  calculated : h'.activeCalculatedMembers = h.activeCalculatedMembers
  consistent : h'.consistent = h.consistent
  hierarchize : h'.needsHierarchize = h.needsHierarchize
  /-- A pivot counts among several levels only. -/
  linkage : h.activeLevels.length ≤ 1 ∨
    Linkage.of q'.parameters h'.activeLevels = Linkage.of q.parameters h.activeLevels

/-- The levels in use of two hierarchies count alike. -/
structure SameLevels (c : Compiler) (q q' : Query) (h h' : HierarchySelection) : Prop where
  active : h'.activeLevels = h.activeLevels
  calculated : h'.activeCalculatedMembers = h.activeCalculatedMembers
  consistent : h'.consistent = h.consistent
  hierarchize : h'.needsHierarchize = h.needsHierarchize
  picked : ∀ l ∈ h.activeLevels, c.picked q'.parameters l = c.picked q.parameters l
  /-- A pivot counts among several levels only. -/
  linkage : h.activeLevels.length ≤ 1 ∨
    Linkage.of q'.parameters h.activeLevels = Linkage.of q.parameters h.activeLevels

/-- Two hierarchies count alike: by their own shape and totals, and by their levels if no override
replaces these. -/
structure SameSet (c : Compiler) (q q' : Query) (h h' : HierarchySelection) : Prop where
  hierarchy : h'.hierarchy = h.hierarchy
  shape : h'.shape = h.shape
  totals : ∀ set, totalled q' h' set = totalled q h set
  levels : h.shape.base.override = none → c.SameLevels q q' h h'

variable {h h' : HierarchySelection} {location : Location}

theorem SameLevels.sameUse (hs : c.SameLevels q q' h h') : c.SameUse f q q' h h' where
  active := by
    rw [hs.active, List.forall₂_same]
    exact fun l hl => ⟨rfl, levelSet_alike (hs.picked l hl)⟩
  calculated := hs.calculated
  consistent := hs.consistent
  hierarchize := hs.hierarchize
  linkage := hs.active.symm ▸ hs.linkage

theorem SameUse.levelAt (hs : c.SameUse f q q' h h') (i : Nat) :
    (h'.activeLevels[i]?).map (·.level) = (h.activeLevels[i]?).map (·.level) := by
  have hlevels : List.Forall₂ (fun l l' : LevelSelection => l'.level = l.level) h.activeLevels
      h'.activeLevels := hs.active.imp fun _ _ hl => hl.level
  generalize h.activeLevels = ls at hlevels ⊢
  generalize h'.activeLevels = ls' at hlevels ⊢
  induction hlevels generalizing i with
  | nil => rfl
  | cons hl _ ih =>
    cases i with
    | zero => exact congrArg some hl
    | succ i => exact ih i

theorem levelSets_congr (hh : h'.hierarchy = h.hierarchy) (hs : c.SameUse f q q' h h') :
    (c.writingFor f).levelSets q'.parameters h' = c.levelSets q.parameters h := by
  rcases hs.linkage with hfew | hlinkage
  · have hactive := hs.active
    generalize hlevels' : h'.activeLevels = ls' at hactive
    match hlevels : h.activeLevels with
    | [] =>
      rw [hlevels] at hactive
      cases hactive
      simp only [levelSets, hlevels, hlevels']
      rfl
    | [l] =>
      rw [hlevels] at hactive
      obtain ⟨l', _, hl, hnil, rfl⟩ := List.forall₂_cons_left_iff.1 hactive
      cases hnil
      rw [levelSets_single hlevels', levelSets_single hlevels, hh, hl.set]
    | _ :: _ :: _ =>
      rw [hlevels] at hfew
      simp at hfew
  · have hreference : ∀ {p : Option Nat},
        ((p.bind (h'.activeLevels[·]?)).map fun l =>
            Expr.identifier (levelSetName h.hierarchy l.level)) =
          (p.bind (h.activeLevels[·]?)).map fun l =>
            .identifier (levelSetName h.hierarchy l.level) := by
      intro p
      cases p with
      | none => rfl
      | some i =>
        have hat := congrArg (Option.map fun l => Expr.identifier (levelSetName h.hierarchy l))
          (hs.levelAt i)
        rwa [Option.map_map, Option.map_map] at hat
    simp only [levelSets, hlinkage, hh, hreference]
    refine levelSetsFrom_congr hh hs.consistent hs.active fun j l l' r hl hl' => ?_
    have hlevel : l'.level = l.level := by
      have hat := hs.levelAt j
      rw [hl, hl'] at hat
      exact Option.some.inj hat
    rw [Nat.zero_add, ← hlinkage, next_of_pivot hl', hlinkage, next_of_pivot hl, hlevel]

theorem joinedLevels_congr (hh : h'.hierarchy = h.hierarchy) (hs : c.SameUse f q q' h h')
    (hq : q'.lowestLevelsOnly = q.lowestLevelsOnly) :
    (c.writingFor f).joinedLevels q' h' location = c.joinedLevels q h location := by
  rw [joinedLevels, joinedLevels, levelSets_congr hh hs, hs.hierarchize, Query.onlyLowestLevels,
    Query.onlyLowestLevels, hq]

/-! ## Hierarchies -/

theorem hierarchySet_congr (hh : h'.hierarchy = h.hierarchy) (hshape : h'.shape = h.shape)
    (htotals : ∀ set, totalled q' h' set = totalled q h set)
    (hs : h.shape.base.override = none → c.SameUse f q q' h h')
    (hq : q'.lowestLevelsOnly = q.lowestLevelsOnly) :
    (c.writingFor f).hierarchySet q' h' location = c.hierarchySet q h location := by
  have hordered : (c.writingFor f).shapedAndOrdered = c.shapedAndOrdered := rfl
  unfold hierarchySet
  rw [hshape, hordered]
  cases ho : h.shape.base.override with
  | some text => simp only [htotals]
  | none =>
    have hl := hs ho
    have hnone : h'.activeLevels.isEmpty = h.activeLevels.isEmpty := by
      rw [Bool.eq_iff_iff, List.isEmpty_iff_length_eq_zero, List.isEmpty_iff_length_eq_zero,
        hl.active.length_eq]
    simp only [withCalculated, hnone, hl.calculated, joinedLevels_congr hh hl hq, htotals]

theorem hierarchySet_alike (hs : c.SameSet q q' h h')
    (hq : q'.lowestLevelsOnly = q.lowestLevelsOnly) :
    (c.writingFor f).hierarchySet q' h' location = c.hierarchySet q h location :=
  hierarchySet_congr hs.hierarchy hs.shape hs.totals (fun ho => (hs.levels ho).sameUse) hq

/-- Two hierarchies have the same set at a location. -/
structure SameResult (c : Compiler) (f : Option Flavor) (q q' : Query) (location : Location)
    (h h' : HierarchySelection) : Prop where
  hierarchy : h'.hierarchy = h.hierarchy
  set : (c.writingFor f).hierarchySet q' h' location = c.hierarchySet q h location

theorem operands_congr {axis : AxisName} {hs hs' : List HierarchySelection}
    (hsame : List.Forall₂ (c.SameResult f q q' location) hs hs') :
    (c.writingFor f).operands q' location axis hs' = c.operands q location axis hs := by
  induction hsame with
  | nil => rfl
  | cons h _ ih => rw [operands, operands, h.set, ih, h.hierarchy]

/-! ## Axes -/

theorem joinedHierarchies_congr {axis : AxisName}
    (haxis : q'.axes.get location = q.axes.get location)
    (hsame : (q.axes.get location).shape.base.override = none →
      List.Forall₂ (c.SameResult f q q' location) (q.hierarchiesOn location)
        (q'.hierarchiesOn location)) :
    (c.writingFor f).joinedHierarchies q' location axis =
      c.joinedHierarchies q location axis := by
  unfold joinedHierarchies
  rw [haxis]
  cases ho : (q.axes.get location).shape.base.override with
  | some text => rfl
  | none =>
    have hsame := hsame ho
    generalize q.hierarchiesOn location = hs at hsame ⊢
    generalize q'.hierarchiesOn location = hs' at hsame ⊢
    cases hsame with
    | nil => rfl
    | @cons h h' hs hs' hset hrest =>
      have hmany : (c.writingFor f).operands q' location axis (h' :: hs') =
          c.operands q location axis (h :: hs) := operands_congr (.cons hset hrest)
      cases hrest with
      | nil =>
        cases axis with
        | columns | rows => simp only [hset.set]
        | slicer =>
          simp only [hmany]
          rfl
      | cons =>
        simp only [hmany]
        rfl

/-! ## Other servers -/

theorem SameSet.refl (c : Compiler) (q : Query) (h : HierarchySelection) : c.SameSet q q h h where
  hierarchy := rfl
  shape := rfl
  totals _ := rfl
  levels _ := ⟨rfl, rfl, rfl, rfl, fun _ _ => rfl, .inr rfl⟩

theorem joinedHierarchies_writingFor (f : Option Flavor) (axis : AxisName) :
    (c.writingFor f).joinedHierarchies q location axis = c.joinedHierarchies q location axis :=
  joinedHierarchies_congr rfl fun _ =>
    List.forall₂_same.2 fun h _ => ⟨rfl, hierarchySet_alike (.refl c q h) rfl⟩

theorem measureDeclarations_writingFor (ms : List Measure) :
    (c.writingFor f).measureDeclarations ms = c.measureDeclarations ms := by
  induction ms with
  | nil => rfl
  | cons m ms ih =>
    cases m with
    | stored => exact ih
    | calculated =>
      rw [measureDeclarations, measureDeclarations, ih]
      rfl

theorem withMeasures_writingFor (b : MeasureBlock) (set : Option Expr) :
    (c.writingFor f).withMeasures b location set = c.withMeasures b location set := by
  rw [withMeasures, withMeasures, measureDeclarations_writingFor]

/-! ## Queries -/

/-- Two queries have the same parts: by their result and filter axes, and by the sets of the
hierarchies that these show. -/
structure SameParts (c : Compiler) (q q' : Query) : Prop where
  cube : q'.cube = q.cube
  block : q'.block = q.block
  calculated : q'.calculatedMembers = q.calculatedMembers
  axes : ∀ l, l ≠ .unused → q'.axes.get l = q.axes.get l
  shown : ∀ l, q.Shows l →
    List.Forall₂ (c.SameResult c.options.flavor q q' l) (q.hierarchiesOn l) (q'.hierarchiesOn l)

theorem axisNode_congr (hs : c.SameParts q q') (hl : location ≠ .unused) (axis : AxisName) :
    c.axisNode q' location axis = c.axisNode q location axis := by
  have haxis := hs.axes location hl
  have hjoined : c.joinedHierarchies q' location axis = c.joinedHierarchies q location axis :=
    joinedHierarchies_congr (f := c.options.flavor) haxis fun ho => hs.shown location ⟨hl, ho⟩
  rw [axisNode, axisNode, haxis, hs.block, hjoined]

/-- Queries of the same parts have the same statement, or none for the same reason. -/
theorem statement_congr (hs : c.SameParts q q') : c.statement q' = c.statement q := by
  rw [statement, statement, slicer, slicer, hs.axes .filter (by decide), hs.calculated, hs.cube,
    axisNode_congr hs (by decide), axisNode_congr hs (by decide), axisNode_congr hs (by decide)]

/-- Two queries count alike: by their result and filter axes, and by the hierarchies these show. -/
structure SameQuery (c : Compiler) (q q' : Query) : Prop where
  cube : q'.cube = q.cube
  block : q'.block = q.block
  lowestLevelsOnly : q'.lowestLevelsOnly = q.lowestLevelsOnly
  calculated : q'.calculatedMembers = q.calculatedMembers
  axes : ∀ l, l ≠ .unused → q'.axes.get l = q.axes.get l
  shown : ∀ l, q.Shows l →
    List.Forall₂ (c.SameSet q q') (q.hierarchiesOn l) (q'.hierarchiesOn l)

/-- Queries that count alike have the same statement, or none for the same reason. -/
theorem statement_alike (hs : c.SameQuery q q') : c.statement q' = c.statement q :=
  statement_congr {
    cube := hs.cube
    block := hs.block
    calculated := hs.calculated
    axes := hs.axes
    shown := fun l hl => (hs.shown l hl).imp fun _ _ h =>
      ⟨h.hierarchy, hierarchySet_alike h hs.lowestLevelsOnly⟩ }

end Compiler
end CubeQuery
