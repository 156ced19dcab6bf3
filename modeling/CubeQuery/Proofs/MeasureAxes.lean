import CubeQuery.Proofs.Alike
import CubeQuery.Proofs.Definitions
import CubeQuery.Proofs.Failures
import CubeQuery.Proofs.Placed

/-!
# Axes and the measures on them

The statement of a query is laid out in parts, one for each axis (`LaidOut`). Columns and rows have
a node if something is asked of them: an override, a hierarchy, or a measure that is joined to them
(`axisNode_isSome`). The slicer has one if hierarchies lie on the filter axis.

No part but that of their own axis depends on the measures of the query
(`axisNode_withoutMeasures`). There they are joined to the set that the axis has without them, or
are its whole set, and the calculated ones among them are declared behind all else that the axis
needs. So a measure can neither get lost nor take a hierarchy with it (`axes_laidOut`).
-/

namespace CubeQuery

/-- The location whose set an axis of the statement shows. -/
def AxisName.location : AxisName → Location
  | .columns => .columns
  | .rows => .rows
  | .slicer => .filter

namespace Query

/-- The query without measures. -/
def withoutMeasures (q : Query) : Query := { q with block := q.block.clear }

/-- The measures of the query are joined to the axis. -/
def MeasuresOn (q : Query) (l : Location) : Prop := q.block.axis = l ∧ q.block.measures ≠ []

/-- The axis has a node in the statement. The slicer has none for measures alone, nor for an
override. -/
def Fills (q : Query) : AxisName → Prop
  | .slicer => (q.axes.get .filter).hierarchies ≠ []
  | axis => (q.axes.get axis.location).shape.base.override ≠ none ∨
      (q.axes.get axis.location).hierarchies ≠ [] ∨ q.MeasuresOn axis.location

/-- It is what clearing the measure block leads to. -/
theorem change_withoutMeasures (q : Query) :
    q.change (.block .clear) = .ok q.withoutMeasures := rfl

theorem not_measuresOn_withoutMeasures (q : Query) (l : Location) :
    ¬q.withoutMeasures.MeasuresOn l := fun h => h.2 rfl

/-- An axis lists positions of hierarchies only. -/
theorem Placed.hierarchiesOn_eq_nil {q : Query} (hq : q.Placed) (l : Location) :
    q.hierarchiesOn l = [] ↔ (q.axes.get l).hierarchies = [] := by
  rw [hierarchiesOn, List.filterMap_eq_nil_iff, List.eq_nil_iff_forall_not_mem]
  refine forall_congr' fun i => ⟨fun h hi => ?_, fun h hi => absurd hi h⟩
  have hlt := lt_of_location? ((hq.listed l i).1 hi)
  rw [List.getElem?_eq_getElem hlt] at h
  cases h hi

end Query

namespace Compiler

variable {c : Compiler} {q : Query} {location : Location} {axis : AxisName}

/-! ## Nodes -/

theorem declaredAxis_isSome (c : Compiler) (axis : AxisName) (single : Bool) (set : Option Expr) :
    (c.declaredAxis axis single set).value.isSome = set.isSome := by
  unfold declaredAxis
  cases set with
  | none => rfl
  | some set => dsimp only; split <;> rfl

theorem joinedHierarchies_withoutMeasures (c : Compiler) (q : Query) (location : Location)
    (axis : AxisName) :
    c.joinedHierarchies q.withoutMeasures location axis = c.joinedHierarchies q location axis :=
  joinedHierarchies_congr (f := c.options.flavor) rfl fun _ =>
    List.forall₂_same.2 fun _ _ => ⟨rfl, hierarchySet_alike
      { hierarchy := rfl, shape := rfl, totals := fun _ => rfl,
        levels := fun _ => ⟨rfl, rfl, rfl, rfl, fun _ _ => rfl, .inr rfl⟩ } rfl⟩

/-- A node stands for what is asked of its axis. -/
theorem axisNode_isSome {r : Declared (Option AxisNode)}
    (h : c.axisNode q location axis = .ok r) :
    r.value.isSome ↔ (q.axes.get location).shape.base.override ≠ none ∨
      q.hierarchiesOn location ≠ [] ∨ q.MeasuresOn location := by
  obtain ⟨joined, hjoined, shaped, hshaped, complete, hcomplete, rfl⟩ := axisNode_eq_ok.1 h
  have hset : shaped.isSome ↔ (q.axes.get location).shape.base.override ≠ none ∨
      q.hierarchiesOn location ≠ [] := by
    rw [shapedAndOrdered_isSome hshaped, joinedHierarchies_isSome hjoined, Query.joinedOn]
    cases (q.axes.get location).shape.base.override <;> simp
  rw [Option.isSome_map, ← or_assoc, ← hset]
  rcases withMeasures_eq_ok.1 hcomplete with ⟨hon, ds, -, rfl⟩ | ⟨hoff, rfl⟩
  · simp [Query.MeasuresOn, hon]
  · have hoff' : ¬q.MeasuresOn location := hoff
    rw [declaredAxis_isSome, or_iff_left hoff']

theorem axisNode_named {r : Declared (Option AxisNode)} {n : AxisNode}
    (h : c.axisNode q location axis = .ok r) (hn : r.value = some n) :
    n.axis = axis ∧ n.nonEmpty = (q.axes.get location).nonEmpty := by
  obtain ⟨joined, -, shaped, -, complete, -, rfl⟩ := axisNode_eq_ok.1 h
  obtain ⟨body, -, rfl⟩ := Option.map_eq_some_iff.1 hn
  exact ⟨rfl, rfl⟩

/-! ## Measures -/

/-- The part of an axis with the measures of a block joined to it, given the part without them. The
measures stand in braces, all of them in their order. They are the whole set of an axis that is
empty without them. -/
structure Beside (c : Compiler) (b : MeasureBlock) (bare full : Declared (Option AxisNode)) :
    Prop where
  declarations : ∃ ds, full.declarations = bare.declarations ++ ds ∧
    List.Forall₂ (fun m d => c.declareMember m.uniqueName m.formula m.properties = .ok d)
      (b.measures.filterMap Measure.calculated?) ds
  alone : bare.value = none → ∃ n, full.value = some n ∧
    n.body = .set (b.measures.map fun m => .member m.uniqueName)
  joined : ∀ n₀, bare.value = some n₀ → ∃ n, full.value = some n ∧
    n.body = .function "CrossJoin"
      (match b.side with
        | .top => [.set (b.measures.map fun m => .member m.uniqueName), n₀.body]
        | .bottom => [n₀.body, .set (b.measures.map fun m => .member m.uniqueName)])

theorem axisNode_withoutMeasures {r : Declared (Option AxisNode)}
    (h : c.axisNode q location axis = .ok r) :
    ∃ r₀, c.axisNode q.withoutMeasures location axis = .ok r₀ ∧
      (q.MeasuresOn location → c.Beside q.block r₀ r) ∧ (¬q.MeasuresOn location → r = r₀) := by
  obtain ⟨joined, hjoined, shaped, hshaped, complete, hcomplete, rfl⟩ := axisNode_eq_ok.1 h
  have hbare : ∀ set, c.withMeasures q.withoutMeasures.block location set = .ok ⟨set, []⟩ :=
    fun set => withMeasures_eq_ok.2 (.inr ⟨q.not_measuresOn_withoutMeasures location, rfl⟩)
  refine ⟨_, axisNode_eq_ok.2 ⟨joined, ?_, shaped, hshaped, _, hbare _, rfl⟩, fun hon => ?_,
    fun hoff => ?_⟩
  · rw [joinedHierarchies_withoutMeasures, hjoined]
  · rcases withMeasures_eq_ok.1 hcomplete with ⟨-, ds, hds, rfl⟩ | ⟨hoff, -⟩
    · rw [measureDeclarations_eq_mapM] at hds
      refine ⟨⟨ds, by simp, forall₂_of_mapM hds⟩, fun hnone => ?_, fun n₀ hn₀ => ?_⟩
      · rw [Option.map_eq_none_iff.1 hnone]
        exact ⟨_, rfl, rfl⟩
      · obtain ⟨body, hbody, rfl⟩ := Option.map_eq_some_iff.1 hn₀
        rw [hbody]
        refine ⟨_, rfl, ?_⟩
        rw [besideMeasures]
        cases q.block.side <;> rfl
    · exact absurd hon hoff
  · rcases withMeasures_eq_ok.1 hcomplete with ⟨hon, -⟩ | ⟨-, rfl⟩
    · exact absurd hon hoff
    · rfl

/-! ## Parts of a statement -/

/-- What the statement shows on an axis. -/
def part (c : Compiler) (q : Query) : AxisName → Except Failure (Declared (Option AxisNode))
  | .columns => c.axisNode q .columns .columns
  | .rows => c.axisNode q .rows .rows
  | .slicer => c.slicer q

/-- The statement is put together of the declarations of calculated members and of the parts of its
axes: the declarations of all parts one behind the other, then the columns, if there are any, the
rows, if there are any, and the slicer. -/
structure LaidOut (c : Compiler) (q : Query) (members : List Declaration)
    (parts : AxisName → Declared (Option AxisNode)) (s : Statement) : Prop where
  members_ok : (q.calculatedMembers.mapM fun m =>
    c.declareMember m.uniqueName m.formula m.properties) = .ok members
  parts_ok : ∀ axis, c.part q axis = .ok (parts axis)
  declarations : s.declarations = members ++ (parts .columns).declarations ++
    (parts .rows).declarations ++ (parts .slicer).declarations
  axes : s.axes = (parts .columns).value.toList ++ (parts .rows).value.toList
  slicer : s.slicer = (parts .slicer).value

theorem exists_laidOut {s : Statement} (h : c.statement q = .ok s) :
    ∃ members parts, c.LaidOut q members parts s := by
  obtain ⟨members, hmembers, columns, hcolumns, rows, hrows, slicer, hslicer, rfl⟩ :=
    statement_eq_ok.1 h
  let parts : AxisName → Declared (Option AxisNode)
    | .columns => columns
    | .rows => rows
    | .slicer => slicer
  refine ⟨members, parts, hmembers, fun axis => ?_, rfl, rfl, rfl⟩
  cases axis with
  | columns => exact hcolumns
  | rows => exact hrows
  | slicer => exact hslicer

theorem statement_of_parts {members : List Declaration}
    {parts : AxisName → Declared (Option AxisNode)}
    (hmembers : (q.calculatedMembers.mapM fun m =>
      c.declareMember m.uniqueName m.formula m.properties) = .ok members)
    (hparts : ∀ axis, c.part q axis = .ok (parts axis)) :
    ∃ s, c.statement q = .ok s ∧ c.LaidOut q members parts s :=
  ⟨_, statement_eq_ok.2 ⟨members, hmembers, _, hparts .columns, _, hparts .rows, _,
    hparts .slicer, rfl⟩, hmembers, hparts, rfl, rfl, rfl⟩

theorem part_named {r : Declared (Option AxisNode)} {n : AxisNode} (h : c.part q axis = .ok r)
    (hn : r.value = some n) :
    n.axis = axis ∧ n.nonEmpty = (q.axes.get axis.location).nonEmpty := by
  cases axis with
  | columns | rows => exact axisNode_named h hn
  | slicer =>
    rcases slicer_eq_ok.1 h with ⟨-, rfl⟩ | ⟨-, h⟩
    · cases hn
    · exact axisNode_named h hn

theorem part_isSome (hq : q.Placed) {r : Declared (Option AxisNode)} (h : c.part q axis = .ok r) :
    r.value.isSome ↔ q.Fills axis := by
  cases axis with
  | columns | rows =>
    rw [axisNode_isSome h, Ne, Ne, hq.hierarchiesOn_eq_nil]
    rfl
  | slicer =>
    rcases slicer_eq_ok.1 h with ⟨hnil, rfl⟩ | ⟨hne, h⟩
    · simp [Query.Fills, hnil]
    · have hon : q.hierarchiesOn .filter ≠ [] :=
        fun hnil => hne ((hq.hierarchiesOn_eq_nil _).1 hnil)
      simp [axisNode_isSome h, Query.Fills, hne, hon]

theorem part_withoutMeasures {r : Declared (Option AxisNode)} (h : c.part q axis = .ok r) :
    ∃ r₀, c.part q.withoutMeasures axis = .ok r₀ ∧
      (q.MeasuresOn axis.location → q.Fills axis → c.Beside q.block r₀ r) ∧
      (¬(q.MeasuresOn axis.location ∧ q.Fills axis) → r = r₀) := by
  cases axis with
  | columns | rows =>
    obtain ⟨r₀, hr₀, hon, hoff⟩ := axisNode_withoutMeasures h
    refine ⟨r₀, hr₀, fun h _ => hon h, fun hnot => hoff fun h => hnot ⟨h, .inr (.inr h)⟩⟩
  | slicer =>
    rcases slicer_eq_ok.1 h with ⟨hnil, rfl⟩ | ⟨hne, h⟩
    · exact ⟨_, slicer_eq_ok.2 (.inl ⟨hnil, rfl⟩), fun _ hne => absurd hnil hne, fun _ => rfl⟩
    · obtain ⟨r₀, hr₀, hon, hoff⟩ := axisNode_withoutMeasures h
      exact ⟨r₀, slicer_eq_ok.2 (.inr ⟨hne, hr₀⟩), fun h _ => hon h,
        fun hnot => hoff fun h => hnot ⟨h, hne⟩⟩

/-- The part of an axis, given the part that the same axis has without the measures: when there is a
node, what it says of its axis, and what the measures add. -/
structure Shown (c : Compiler) (q : Query) (axis : AxisName)
    (bare full : Declared (Option AxisNode)) : Prop where
  filled : full.value.isSome ↔ q.Fills axis
  filled_bare : bare.value.isSome ↔ q.withoutMeasures.Fills axis
  named : ∀ n, full.value = some n →
    n.axis = axis ∧ n.nonEmpty = (q.axes.get axis.location).nonEmpty
  beside : q.MeasuresOn axis.location → q.Fills axis → c.Beside q.block bare full
  same : ¬(q.MeasuresOn axis.location ∧ q.Fills axis) → full = bare

/-- **Axes and their measures.** The statement of a query has columns, rows and a slicer exactly
where something is asked for, each at most once and in this order. Without its measures the query
has a statement too, and the two differ on the axis of the measures only: there these stand alone or
on their side of the set of the axis, and their declarations come behind those of the axis. -/
theorem axes_laidOut {cube : Cube} (hq : Query.Reachable cube q) {s : Statement}
    (hs : c.statement q = .ok s) :
    ∃ members parts parts₀ t, c.statement q.withoutMeasures = .ok t ∧
      c.LaidOut q members parts s ∧ c.LaidOut q.withoutMeasures members parts₀ t ∧
      ∀ axis, c.Shown q axis (parts₀ axis) (parts axis) := by
  have hplaced : q.Placed := by
    obtain ⟨name, cs, rfl⟩ := hq
    exact (Query.sound_afterAll name cube cs).toPlaced
  have hplaced₀ : q.withoutMeasures.Placed := ⟨hplaced.nodup, hplaced.listed⟩
  obtain ⟨members, parts, hlaid⟩ := exists_laidOut hs
  choose parts₀ hparts₀ hon hoff using fun axis => part_withoutMeasures (hlaid.parts_ok axis)
  obtain ⟨t, ht, hlaid₀⟩ := statement_of_parts (q := q.withoutMeasures) hlaid.members_ok hparts₀
  refine ⟨members, parts, parts₀, t, ht, hlaid, hlaid₀, fun axis => ?_⟩
  exact {
    filled := part_isSome hplaced (hlaid.parts_ok axis)
    filled_bare := part_isSome hplaced₀ (hparts₀ axis)
    named := fun _ hn => part_named (hlaid.parts_ok axis) hn
    beside := hon axis
    same := hoff axis }

/-- A stored and a calculated measure in front of the years on the rows. -/
def marginByYear : Query :=
  (Query.new "q" Query.unitsEntry.link).afterAll [.move "Time" .rows none,
    .hierarchy "Time" (.includeLevel "Year"), .createCalculatedMeasure "Margin" "1" .empty,
    .addMeasure "Units", .addMeasure "Margin", .block (.axis .rows), .block (.side .top)]

theorem axes_laidOut_marginByYear :
    ∃ s t n n₀, statement { source := Query.unitsEntry.link.source } marginByYear = .ok s ∧
      statement { source := Query.unitsEntry.link.source } marginByYear.withoutMeasures = .ok t ∧
      s.axes = [n] ∧ t.axes = [n₀] ∧
      n.body = .function "CrossJoin"
        [.set [.member "[Measures].[Units]", .member "[Measures].[Margin]"], n₀.body] := by
  obtain ⟨s, hs⟩ : ∃ s,
      statement { source := Query.unitsEntry.link.source } marginByYear = .ok s :=
    isOk_eq_true.1 (by decide +kernel)
  have hreachable : Query.Reachable Query.unitsEntry.link marginByYear := ⟨"q", _, rfl⟩
  obtain ⟨members, parts, parts₀, t, ht, hlaid, hlaid₀, hparts⟩ := axes_laidOut hreachable hs
  have hcolumns : ¬marginByYear.Fills .columns := by
    rintro (ho | hh | hc)
    · exact ho (by decide +kernel)
    · exact hh (by decide +kernel)
    · exact absurd hc.1 (by decide +kernel)
  have hnone : (parts .columns).value = none :=
    Option.not_isSome_iff_eq_none.1 fun h => hcolumns ((hparts .columns).filled.1 h)
  have hnone₀ : (parts₀ .columns).value = none := by
    rw [← (hparts .columns).same fun h => hcolumns h.2, hnone]
  have hrows : (marginByYear.axes.get .rows).hierarchies ≠ [] := by decide +kernel
  have hmeasures : marginByYear.block.measures.map Measure.uniqueName =
      ["[Measures].[Units]", "[Measures].[Margin]"] := by decide +kernel
  have hon : marginByYear.MeasuresOn .rows := by
    refine ⟨by decide +kernel, fun hnil => ?_⟩
    rw [hnil] at hmeasures
    cases hmeasures
  have hfills : marginByYear.withoutMeasures.Fills .rows := .inr (.inl hrows)
  obtain ⟨n₀, hn₀⟩ := Option.isSome_iff_exists.1 ((hparts .rows).filled_bare.2 hfills)
  obtain ⟨n, hn, hbody⟩ := ((hparts .rows).beside hon (.inr (.inl hrows))).joined n₀ hn₀
  refine ⟨s, t, n, n₀, hs, ht, ?_, ?_, ?_⟩
  · rw [hlaid.axes, hnone, hn]
    rfl
  · rw [hlaid₀.axes, hnone₀, hn₀]
    rfl
  · have hside : marginByYear.block.side = .top := by decide +kernel
    have hset : marginByYear.block.measures.map (fun m => Expr.member m.uniqueName) =
        [.member "[Measures].[Units]", .member "[Measures].[Margin]"] := by
      have hnames := congrArg (List.map Expr.member) hmeasures
      rwa [List.map_map] at hnames
    rw [hbody, hside, hset]

end Compiler
end CubeQuery
