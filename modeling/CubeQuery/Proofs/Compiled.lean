import CubeQuery.Compile
import CubeQuery.Outcome
import Mathlib.Data.List.Forall2

/-!
# What a successful compilation consists of

For each part of the compilation: it succeeds exactly when its own parts do, and its result is then
put together from theirs as stated here. What holds of compiled sets and statements goes back to
these lemmas.
-/

namespace CubeQuery

/-- The results of a successful list of steps are those of its steps, in order. -/
theorem forall₂_of_mapM {ε α β : Type} {f : α → Except ε β} {xs : List α} {ys : List β}
    (h : xs.mapM f = .ok ys) : List.Forall₂ (fun x y => f x = .ok y) xs ys := by
  induction xs generalizing ys with
  | nil =>
    cases h
    exact .nil
  | cons x xs ih =>
    rw [List.mapM_cons] at h
    obtain ⟨y, hy, h⟩ := bind_eq_ok.1 h
    obtain ⟨others, hothers, h⟩ := bind_eq_ok.1 h
    cases h
    exact .cons hy (ih hothers)

theorem Measure.mem_calculated {ms : List Measure} {m : CalculatedMeasure} :
    m ∈ ms.filterMap Measure.calculated? ↔ .calculated m ∈ ms := by
  rw [List.mem_filterMap]
  constructor
  · rintro ⟨m' | m', hm', h⟩
    · cases h
    · cases h
      exact hm'
  · exact fun hm => ⟨_, hm, rfl⟩

namespace Compiler

variable {c : Compiler} {q : Query} {location : Location} {axis : AxisName}

/-! ## Shapes and levels -/

/-- With an override the set does not matter; with neither there is nothing to shape. -/
theorem shapedAndOrdered_eq_ok {s : OrderedShape} {set shaped : Option Expr} :
    c.shapedAndOrdered s set = .ok shaped ↔
      (s.base.override = none ∧ set = none ∧ none = shaped) ∨
      ∃ start, ((s.base.override = none ∧ set = some start) ∨
          ∃ text, s.base.override = some text ∧ c.setExpr text = .ok start) ∧
        ∃ filtered, c.filtered s.base start = .ok filtered ∧
          ∃ e, c.ordered s filtered = .ok e ∧ some e = shaped := by
  unfold shapedAndOrdered
  cases s.base.override with
  | some text => simp [bind_eq_ok]
  | none => cases set <;> simp [bind_eq_ok]

theorem shapedAndOrdered_isSome {s : OrderedShape} {set shaped : Option Expr}
    (h : c.shapedAndOrdered s set = .ok shaped) :
    shaped.isSome ↔ s.base.override ≠ none ∨ set.isSome := by
  rcases shapedAndOrdered_eq_ok.1 h with
    ⟨ho, rfl, rfl⟩ | ⟨start, ⟨ho, rfl⟩ | ⟨text, ho, -⟩, -, -, e, -, rfl⟩ <;> simp [ho]

theorem levelSetsFrom_cons_eq_ok {parameters : Parameters} {h : HierarchySelection} {k : Linkage}
    {i : Nat} {reference : Option Expr} {l : LevelSelection} {ls : List LevelSelection}
    {r : Declared (List Expr)} :
    c.levelSetsFrom parameters h k i reference (l :: ls) = .ok r ↔
      ∃ own, c.levelSet parameters h.hierarchy l = .ok own ∧ ∃ others,
        (k.declares = true ∧
          c.levelSetsFrom parameters h k (i + 1) (k.next parameters h.hierarchy i reference l) ls =
            .ok others ∧
          ⟨.identifier (levelSetName h.hierarchy l.level) :: others.value,
            .set (levelSetName h.hierarchy l.level) (restricted h k i reference l own) ::
              others.declarations⟩ = r) ∨
        (k.declares = false ∧
          c.levelSetsFrom parameters h k (i + 1) reference ls = .ok others ∧
          ⟨restricted h k i reference l own :: others.value, others.declarations⟩ = r) := by
  rw [levelSetsFrom, bind_eq_ok]
  cases k.declares <;> simp [bind_eq_ok]

/-! ## Hierarchies -/

theorem joinedLevels_eq_ok {h : HierarchySelection} {r : Declared (Option Expr)} :
    c.joinedLevels q h location = .ok r ↔
      ∃ sets, c.levelSets q.parameters h = .ok sets ∧
        ⟨if q.onlyLowestLevels location then sets.value.getLast?
          else if h.needsHierarchize then
            (unionSet sets.value).map fun set => .function "Hierarchize" [set]
          else unionSet sets.value, sets.declarations⟩ = r := by
  rw [joinedLevels, bind_eq_ok]
  refine exists_congr fun sets => and_congr_right fun _ => ?_
  split
  · simp
  · split <;> simp

theorem hierarchySet_eq_ok {h : HierarchySelection} {r : Declared Expr} :
    c.hierarchySet q h location = .ok r ↔
      (h.shape.base.override ≠ none ∧ ∃ set, c.shapedAndOrdered h.shape none = .ok set ∧
        ⟨totalled q h (set.getD .emptySet), []⟩ = r) ∨
      (h.shape.base.override = none ∧ (h.activeLevels = [] ∧ h.activeCalculatedMembers = []) ∧
        ⟨.emptySet, []⟩ = r) ∨
      (h.shape.base.override = none ∧ ¬(h.activeLevels = [] ∧ h.activeCalculatedMembers = []) ∧
        ∃ levels, c.joinedLevels q h location = .ok levels ∧
          ∃ set, c.shapedAndOrdered h.shape (withCalculated h levels.value) = .ok set ∧
            ⟨totalled q h (set.getD .emptySet), levels.declarations⟩ = r) := by
  unfold hierarchySet
  cases h.shape.base.override with
  | some text => simp [bind_eq_ok]
  | none =>
    by_cases hunused : h.activeLevels = [] ∧ h.activeCalculatedMembers = []
    · simp [hunused]
    · have hused : ¬(h.activeLevels.isEmpty && h.activeCalculatedMembers.isEmpty) := by
        simpa using hunused
      simp only [hused, hunused, ne_eq, not_true_eq_false, not_false_eq_true, false_and, true_and,
        false_or, bind_eq_ok, pure_eq_ok, Except.ok.injEq, Bool.false_eq_true, if_false]

/-! ## Axes -/

theorem operands_cons_eq_ok {h : HierarchySelection} {hs : List HierarchySelection}
    {r : Declared (List Expr)} :
    c.operands q location axis (h :: hs) = .ok r ↔
      ∃ set, c.hierarchySet q h location = .ok set ∧
        ∃ others, c.operands q location axis hs = .ok others ∧
          ((axis = .slicer ∧
              ⟨set.value :: others.value, set.declarations ++ others.declarations⟩ = r) ∨
            (axis ≠ .slicer ∧
              ⟨.identifier (operandName axis h.hierarchy) :: others.value,
                set.declarations ++
                  .set (operandName axis h.hierarchy) set.value :: others.declarations⟩ = r)) := by
  rw [operands]
  cases axis <;> simp [bind_eq_ok]

theorem joinedHierarchies_eq_ok {r : Declared Joined} :
    c.joinedHierarchies q location axis = .ok r ↔
      ((q.axes.get location).shape.base.override ≠ none ∧ ⟨⟨none, false⟩, []⟩ = r) ∨
      (q.axes.get location).shape.base.override = none ∧
        ((axis ≠ .slicer ∧ ∃ h, q.hierarchiesOn location = [h] ∧
            ∃ set, c.hierarchySet q h location = .ok set ∧
              ⟨⟨some set.value, true⟩, set.declarations⟩ = r) ∨
          ((∀ h, q.hierarchiesOn location = [h] → axis = .slicer) ∧
            ∃ sets, c.operands q location axis (q.hierarchiesOn location) = .ok sets ∧
              ⟨⟨Expr.crossJoin sets.value (q.axes.get location).nonEmpty
                  (c.options.crossJoin.flattens (axis = .slicer)), false⟩,
                sets.declarations⟩ = r)) := by
  unfold joinedHierarchies
  cases (q.axes.get location).shape.base.override with
  | some text => simp
  | none =>
    simp only [Option.isSome_none, Bool.false_eq_true, if_false, ne_eq, not_true_eq_false,
      false_and, false_or, true_and]
    split
    · next h hs => simp [hs, bind_eq_ok]
    · next h hs => simp [hs, bind_eq_ok]
    · next axis _ _ hcolumns hrows =>
      have hmany : ∀ h, q.hierarchiesOn location = [h] → axis = .slicer := by
        intro h hs
        cases axis with
        | columns => exact absurd rfl (hcolumns h hs)
        | rows => exact absurd rfl (hrows h hs)
        | slicer => rfl
      rw [or_iff_right fun ⟨haxis, h, hs, _⟩ => haxis (hmany h hs), and_iff_right hmany]
      simp [bind_eq_ok]

/-! ## Members and measures -/

theorem declareMember_eq_ok {uniqueName formula : String} {properties : Bindings String}
    {d : Declaration} :
    c.declareMember uniqueName formula properties = .ok d ↔
      ∃ id, Identifier.parse? uniqueName = some id ∧ ∃ body, c.expr formula = .ok body ∧
        .member id body (properties.entries.map fun (n, v) => (n, .text v)) = d := by
  unfold declareMember
  cases Identifier.parse? uniqueName <;> simp [bind_eq_ok]

/-- The declaration is that of a calculated member or measure. -/
def DeclaresMember (c : Compiler) (d : Declaration) : Prop :=
  ∃ uniqueName formula properties, c.declareMember uniqueName formula properties = .ok d

theorem mem_memberDeclarations {ms : List CalculatedMember} {ds : List Declaration}
    (h : ms.mapM (fun m => c.declareMember m.uniqueName m.formula m.properties) = .ok ds) :
    ∀ d ∈ ds, c.DeclaresMember d := by
  intro d hd
  obtain ⟨m, -, hdeclared⟩ := mem_of_mapM h d hd
  exact ⟨_, _, _, hdeclared⟩

/-- The measures of a list are declared one by one, the stored ones left out. -/
theorem measureDeclarations_eq_mapM (c : Compiler) (ms : List Measure) :
    c.measureDeclarations ms = (ms.filterMap Measure.calculated?).mapM fun m =>
      c.declareMember m.uniqueName m.formula m.properties := by
  induction ms with
  | nil => rfl
  | cons m ms ih =>
    cases m with
    | stored m => exact ih
    | calculated m =>
      have hcons : (Measure.calculated m :: ms).filterMap Measure.calculated? =
          m :: ms.filterMap Measure.calculated? := rfl
      rw [measureDeclarations, ih, hcons, List.mapM_cons]

/-- What is declared for the measures of a list is declared for a calculated one among them. -/
theorem exists_of_measureDeclarations {ms : List Measure} {ds : List Declaration}
    (h : c.measureDeclarations ms = .ok ds) : ∀ d ∈ ds, ∃ m, .calculated m ∈ ms ∧
      c.declareMember m.uniqueName m.formula m.properties = .ok d := by
  intro d hd
  rw [measureDeclarations_eq_mapM] at h
  obtain ⟨m, hm, hdeclared⟩ := mem_of_mapM h d hd
  exact ⟨m, Measure.mem_calculated.1 hm, hdeclared⟩

theorem mem_measureDeclarations {ms : List Measure} {ds : List Declaration}
    (h : c.measureDeclarations ms = .ok ds) : ∀ d ∈ ds, c.DeclaresMember d := by
  intro d hd
  obtain ⟨m, -, hdeclared⟩ := exists_of_measureDeclarations h d hd
  exact ⟨_, _, _, hdeclared⟩

theorem withMeasures_eq_ok {b : MeasureBlock} {set : Option Expr} {r : Declared (Option Expr)} :
    c.withMeasures b location set = .ok r ↔
      ((b.axis = location ∧ b.measures ≠ []) ∧ ∃ ds, c.measureDeclarations b.measures = .ok ds ∧
        ⟨some (besideMeasures b set), ds⟩ = r) ∨
      (¬(b.axis = location ∧ b.measures ≠ []) ∧ ⟨set, []⟩ = r) := by
  unfold withMeasures
  by_cases h : b.axis = location ∧ b.measures ≠ []
  · simp [h, bind_eq_ok]
  · have h' : ¬(decide (b.axis = location) && !b.measures.isEmpty) := by simpa using h
    simp only [h, h', Bool.false_eq_true, if_false, false_and, false_or, not_false_eq_true,
      true_and, pure_eq_ok, Except.ok.injEq]

/-! ## Statements -/

theorem axisNode_eq_ok {r : Declared (Option AxisNode)} :
    c.axisNode q location axis = .ok r ↔
      ∃ joined, c.joinedHierarchies q location axis = .ok joined ∧
        ∃ shaped, c.shapedAndOrdered (q.axes.get location).shape joined.value.set = .ok shaped ∧
          ∃ complete, c.withMeasures q.block location
              (c.declaredAxis axis joined.value.single shaped).value = .ok complete ∧
            ⟨complete.value.map fun body =>
                { nonEmpty := (q.axes.get location).nonEmpty, axis, body },
              joined.declarations ++
                (c.declaredAxis axis joined.value.single shaped).declarations ++
                  complete.declarations⟩ = r := by
  simp [axisNode, bind_eq_ok]

theorem slicer_eq_ok {r : Declared (Option AxisNode)} :
    c.slicer q = .ok r ↔
      ((q.axes.get .filter).hierarchies = [] ∧ ⟨none, []⟩ = r) ∨
      ((q.axes.get .filter).hierarchies ≠ [] ∧ c.axisNode q .filter .slicer = .ok r) := by
  unfold slicer
  by_cases h : (q.axes.get .filter).hierarchies = [] <;> simp [h]

theorem statement_eq_ok {s : Statement} :
    c.statement q = .ok s ↔
      ∃ members,
        (q.calculatedMembers.mapM fun m =>
          c.declareMember m.uniqueName m.formula m.properties) = .ok members ∧
        ∃ columns, c.axisNode q .columns .columns = .ok columns ∧
          ∃ rows, c.axisNode q .rows .rows = .ok rows ∧
            ∃ slicer, c.slicer q = .ok slicer ∧
              { declarations :=
                  members ++ columns.declarations ++ rows.declarations ++ slicer.declarations
                axes := columns.value.toList ++ rows.value.toList
                cube := q.cube.uniqueName
                slicer := slicer.value } = s := by
  simp [statement, bind_eq_ok]

end Compiler
end CubeQuery
