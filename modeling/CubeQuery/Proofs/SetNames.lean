import CubeQuery.Compile
import CubeQuery.Compile.Origin
import CubeQuery.Proofs.Closure

/-!
# The names of declared sets

Whatever else a query asks for, the names of the sets that its statement declares are those of its
`setOrigins`, in order (`statement_names`).
-/

namespace CubeQuery

/-- The names of the sets among some declarations. -/
def declaredNames (ds : List Declaration) : List Identifier := setNames (declaredSets ds)

theorem declaredNames_append (ds es : List Declaration) :
    declaredNames (ds ++ es) = declaredNames ds ++ declaredNames es := by
  rw [declaredNames, declaredSets_append, setNames, List.map_append]
  rfl

theorem declaredNames_set (name : Identifier) (body : Expr) (ds : List Declaration) :
    declaredNames (.set name body :: ds) = name :: declaredNames ds := rfl

namespace Compiler

variable {c : Compiler}

/-! ## Hierarchies -/

theorem levelSetsFrom_names {parameters : Parameters} {h : HierarchySelection} {k : Linkage}
    {ls : List LevelSelection} :
    ∀ {i : Nat} {reference : Option Expr} {r : Declared (List Expr)},
      c.levelSetsFrom parameters h k i reference ls = .ok r →
        declaredNames r.declarations =
          if k.declares then ls.map fun l => levelSetName h.hierarchy l.level else [] := by
  induction ls with
  | nil =>
    intro i reference r hr
    cases hr
    split <;> rfl
  | cons l ls ih =>
    intro i reference r hr
    obtain ⟨own, -, others, ⟨hd, hothers, rfl⟩ | ⟨hd, hothers, rfl⟩⟩ :=
      levelSetsFrom_cons_eq_ok.1 hr
    · have hnames := ih hothers
      rw [if_pos hd] at hnames
      rw [if_pos hd, declaredNames_set, hnames, List.map_cons]
    · have hnames := ih hothers
      rw [hd, if_neg Bool.false_ne_true] at hnames ⊢
      exact hnames

theorem levelSets_names {parameters : Parameters} {h : HierarchySelection}
    {r : Declared (List Expr)} (hr : c.levelSets parameters h = .ok r)
    (ho : h.shape.base.override = none) :
    declaredNames r.declarations = (h.setOrigins parameters).map SetOrigin.name := by
  rw [levelSetsFrom_names hr, HierarchySelection.setOrigins, ho]
  simp only [Option.isNone_none, Bool.true_and]
  split
  · rw [List.map_map]
    rfl
  · rfl

theorem hierarchySet_names {q : Query} {h : HierarchySelection} {location : Location}
    {r : Declared Expr} (hr : c.hierarchySet q h location = .ok r) :
    declaredNames r.declarations = (h.setOrigins q.parameters).map SetOrigin.name := by
  rcases hierarchySet_eq_ok.1 hr with
    ⟨ho, set, -, rfl⟩ | ⟨-, ⟨hactive, -⟩, rfl⟩ | ⟨ho, -, levels, hl, set, -, rfl⟩
  · obtain ⟨text, ho⟩ := Option.ne_none_iff_exists'.1 ho
    simp [HierarchySelection.setOrigins, ho, declaredNames, declaredSets]
  · simp [HierarchySelection.setOrigins, hactive, Linkage.of, declaredNames, declaredSets]
  · obtain ⟨sets, hs, rfl⟩ := joinedLevels_eq_ok.1 hl
    exact levelSets_names hs ho

/-! ## Axes -/

theorem operands_names {q : Query} {location : Location} {axis : AxisName}
    {hs : List HierarchySelection} :
    ∀ {r : Declared (List Expr)}, c.operands q location axis hs = .ok r →
      declaredNames r.declarations =
        (hs.flatMap (·.operandOrigins q.parameters axis)).map SetOrigin.name := by
  induction hs with
  | nil =>
    intro r hr
    cases hr
    rfl
  | cons h hs ih =>
    intro r hr
    obtain ⟨set, hset, others, hothers, ⟨haxis, rfl⟩ | ⟨haxis, rfl⟩⟩ := operands_cons_eq_ok.1 hr
    · rw [List.flatMap_cons, List.map_append, HierarchySelection.operandOrigins,
        declaredNames_append, hierarchySet_names hset, ih hothers]
      simp [haxis]
    · rw [List.flatMap_cons, List.map_append, HierarchySelection.operandOrigins,
        declaredNames_append, declaredNames_set, hierarchySet_names hset, ih hothers]
      simp [haxis]
      rfl

/-- The set of a single hierarchy is there, and only then can its axis be declared. -/
theorem joinedHierarchies_names {q : Query} {location : Location} {axis : AxisName}
    {r : Declared Joined} (hr : c.joinedHierarchies q location axis = .ok r) :
    (r.value.single = true → r.value.set.isSome) ∧
      declaredNames r.declarations ++
          (if r.value.single && c.options.declaresAxes then [axisSetName axis] else []) =
        (q.axisOrigins c.options location axis).map SetOrigin.name := by
  unfold joinedHierarchies at hr
  unfold Query.axisOrigins
  split at hr
  · next ho =>
    cases hr
    rw [if_pos ho]
    exact ⟨fun _ => by contradiction, rfl⟩
  · next ho =>
    rw [if_neg ho]
    have single : ∀ {h : HierarchySelection} {set : Declared Expr},
        c.hierarchySet q h location = .ok set →
          declaredNames set.declarations ++
              (if true && c.options.declaresAxes then [axisSetName axis] else []) =
            (h.setOrigins q.parameters ++
              if c.options.declaresAxes then [SetOrigin.axis axis] else []).map SetOrigin.name := by
      intro h set hset
      rw [hierarchySet_names hset, List.map_append, Bool.true_and]
      split <;> rfl
    -- The two matches look at the same list, so it is named before either is taken apart.
    generalize q.hierarchiesOn location = hs at hr ⊢
    split at hr
    · obtain ⟨set, hset, hr⟩ := bind_eq_ok.1 hr
      cases hr
      exact ⟨fun _ => rfl, single hset⟩
    · obtain ⟨set, hset, hr⟩ := bind_eq_ok.1 hr
      cases hr
      exact ⟨fun _ => rfl, single hset⟩
    · obtain ⟨sets, hsets, hr⟩ := bind_eq_ok.1 hr
      cases hr
      refine ⟨fun h => by contradiction, ?_⟩
      rw [operands_names hsets]
      simp only [Bool.false_and, Bool.false_eq_true, if_false, List.append_nil]

theorem declaredAxis_names {axis : AxisName} {single : Bool} {set : Option Expr}
    (h : single = true → set.isSome) :
    declaredNames (c.declaredAxis axis single set).declarations =
      if single && c.options.declaresAxes then [axisSetName axis] else [] := by
  cases set with
  | some set =>
    simp only [declaredAxis]
    split <;> rfl
  | none =>
    cases single with
    | false => rfl
    | true => exact absurd (h rfl) (by simp)

theorem declaredNames_members {ds : List Declaration} (h : ∀ d ∈ ds, c.DeclaresMember d) :
    declaredNames ds = [] := by
  rw [declaredNames, declaredSets, List.filterMap_eq_nil_iff.2 fun d hd => (h d hd).set?]
  rfl

theorem withMeasures_names {b : MeasureBlock} {location : Location} {set : Option Expr}
    {r : Declared (Option Expr)} (hr : c.withMeasures b location set = .ok r) :
    declaredNames r.declarations = [] := by
  rcases withMeasures_eq_ok.1 hr with ⟨-, ms, hms, rfl⟩ | ⟨-, rfl⟩
  · exact declaredNames_members (mem_measureDeclarations hms)
  · rfl

theorem axisNode_names {q : Query} {location : Location} {axis : AxisName}
    {r : Declared (Option AxisNode)} (hr : c.axisNode q location axis = .ok r) :
    declaredNames r.declarations =
      (q.axisOrigins c.options location axis).map SetOrigin.name := by
  obtain ⟨joined, hj, shaped, hs, complete, hm, rfl⟩ := axisNode_eq_ok.1 hr
  obtain ⟨hsome, hnames⟩ := joinedHierarchies_names hj
  rw [declaredNames_append, declaredNames_append,
    withMeasures_names hm, List.append_nil,
    declaredAxis_names fun h => (shapedAndOrdered_isSome hs).2 (.inr (hsome h))]
  exact hnames

/-! ## Statements -/

theorem slicer_names {q : Query} {r : Declared (Option AxisNode)} (hr : c.slicer q = .ok r) :
    declaredNames r.declarations =
      (q.axisOrigins c.options .filter .slicer).map SetOrigin.name := by
  rcases slicer_eq_ok.1 hr with ⟨hempty, rfl⟩ | ⟨-, hr⟩
  · have hon : q.hierarchiesOn .filter = [] := by
      rw [Query.hierarchiesOn, hempty]
      rfl
    unfold Query.axisOrigins
    rw [hon]
    split <;> rfl
  · exact axisNode_names hr

/-- The sets that a statement declares are those that the query tells ahead. -/
theorem statement_names {q : Query} {s : Statement} (hs : c.statement q = .ok s) :
    setNames s.sets = (q.setOrigins c.options).map SetOrigin.name := by
  obtain ⟨members, hm, columns, hcolumns, rows, hrows, slicer, hslicer, rfl⟩ :=
    statement_eq_ok.1 hs
  show declaredNames (members ++ columns.declarations ++ rows.declarations ++
    slicer.declarations) = _
  rw [declaredNames_append, declaredNames_append, declaredNames_append,
    declaredNames_members (mem_memberDeclarations hm), List.nil_append,
    axisNode_names hcolumns, axisNode_names hrows, slicer_names hslicer, Query.setOrigins,
    List.map_append, List.map_append]

end Compiler
end CubeQuery
