import CubeQuery.Proofs.MeasureAxes
import CubeQuery.Proofs.MemberNames

/-!
# Declared members

The bodies of a statement name members: those that the query calculates, and others that were
picked, bound a range, stand for an all level, or are stored measures. Compilation puts no other
name there (`memberNames_of_statement`), and it leaves out none of what is in use unless a text
takes the place of a set (`mem_memberNames_of_active`, `mem_memberNames_of_picked`). So every member
that a statement names and its query calculates is declared in it, under just that name
(`Statement.members_declared`).
-/

namespace CubeQuery

/-- The names of the members in the bodies of a statement. -/
def Statement.memberNames (s : Statement) : List String := Expr.memberNamesOf s.bodies

theorem mem_declaredSets {ds : List Declaration} {id : Identifier} {body : Expr} :
    (id, body) ∈ declaredSets ds ↔ .set id body ∈ ds := by
  rw [declaredSets, List.mem_filterMap]
  constructor
  · rintro ⟨_ | _, hd, ⟨⟩⟩
    exact hd
  · exact fun hd => ⟨_, hd, rfl⟩

theorem AxisName.exists_iff {p : AxisName → Prop} :
    (∃ axis, p axis) ↔ p .columns ∨ p .rows ∨ p .slicer := by
  constructor
  · rintro ⟨_ | _ | _, h⟩
    · exact .inl h
    · exact .inr (.inl h)
    · exact .inr (.inr h)
  · rintro (h | h | h) <;> exact ⟨_, h⟩

namespace Query

variable {q : Query} {h : HierarchySelection}

theorem mem_of_hierarchiesOn {location : Location} (hh : h ∈ q.hierarchiesOn location) :
    h ∈ q.hierarchies := by
  obtain ⟨i, -, hi⟩ := List.mem_filterMap.1 hh
  exact List.mem_of_getElem? hi

/-- An axis with a hierarchy on it has a node. -/
theorem fills_of_mem {axis : AxisName} (hh : h ∈ q.hierarchiesOn axis.location) :
    q.Fills axis := by
  obtain ⟨i, hi, -⟩ := List.mem_filterMap.1 hh
  have hne : (q.axes.get axis.location).hierarchies ≠ [] := List.ne_nil_of_mem hi
  cases axis with
  | columns | rows => exact .inr (.inl hne)
  | slicer => exact hne

theorem registered_of_active (hh : h ∈ q.hierarchies) {m : CalculatedMember}
    (hm : m ∈ h.activeCalculatedMembers) : q.Registered m.uniqueName := by
  obtain ⟨i, -, hi⟩ := List.mem_filterMap.1 hm
  exact ⟨m, List.mem_flatMap.2 ⟨h, hh, List.mem_of_getElem? hi⟩, rfl⟩

end Query

/-! ## What names there are -/

/-- The query calculates a member of the given name: it is registered with a hierarchy, or it is a
measure that is joined to an axis of the statement. -/
def Query.Calculates (q : Query) (name : String) : Prop :=
  q.Registered name ∨ ∃ axis : AxisName, q.block.axis = axis.location ∧ q.Fills axis ∧
    ∃ m, .calculated m ∈ q.block.measures ∧ (Measure.calculated m).uniqueName = name

/-- The query has a compiler name the member, other than by calculating it. -/
inductive Compiler.Foreign (c : Compiler) (q : Query) : String → Prop where
  /-- It is picked on a level in use, or named by the value of a parameter there. -/
  | picked {h : HierarchySelection} {l : LevelSelection} {included excluded : List Member}
    {m : Member} (hh : h ∈ q.hierarchies) (hl : l ∈ h.activeLevels)
    (hp : c.picked q.parameters l = .ok (included, excluded))
    (hm : m ∈ included ∨ m ∈ excluded) : Foreign c q m.uniqueName
  /-- It is an end of the range of a level in use. -/
  | bound {h : HierarchySelection} {l : LevelSelection} {start stop m : Member}
    (hh : h ∈ q.hierarchies) (hl : l ∈ h.activeLevels)
    (hr : l.range = some (.members start stop)) (hm : m = start ∨ m = stop) :
    Foreign c q m.uniqueName
  /-- It stands for an all level in use. -/
  | default {h : HierarchySelection} {l : LevelSelection} {m : Member} (hh : h ∈ q.hierarchies)
    (hl : l ∈ h.activeLevels) (hall : l.level.isAll = true)
    (hm : c.source.default? h.hierarchy = some m) : Foreign c q m.uniqueName
  | stored {m : Member} (hm : .stored m ∈ q.block.measures) :
    Foreign c q (Measure.stored m).uniqueName
  /-- It is named in a text. -/
  | read {text name : String} {e : Expr} (he : c.read text = .ok e) (hn : name ∈ e.memberNames) :
    Foreign c q name

/-- The compiler takes the name from the query: as one that the query calculates, or otherwise. -/
def Compiler.Sourced (c : Compiler) (q : Query) (name : String) : Prop :=
  q.Calculates name ∨ c.Foreign q name

namespace Compiler

variable {c : Compiler} {q : Query} {s : Statement} {axis : AxisName} {members : List Declaration}
  {parts : AxisName → Declared (Option AxisNode)}

/-- The bodies of a statement are those of the parts of its axes. The members that are declared in
front of these have none. -/
theorem LaidOut.mem_bodies (h : c.LaidOut q members parts s) {e : Expr} :
    e ∈ s.bodies ↔ ∃ axis, (∃ node ∈ (parts axis).value, node.body = e) ∨
      ∃ id, .set id e ∈ (parts axis).declarations := by
  have hmembers : ∀ id, .set id e ∉ members := by
    intro id hd
    obtain ⟨_, _, _, hd⟩ := mem_memberDeclarations h.members_ok _ hd
    obtain ⟨_, -, _, -, ⟨⟩⟩ := declareMember_eq_ok.1 hd
  simp only [Statement.bodies, Statement.sets, h.axes, h.slicer, h.declarations, List.mem_append,
    List.mem_map, Option.mem_toList, Option.map_eq_some_iff, Prod.exists, exists_eq_right,
    mem_declaredSets, AxisName.exists_iff, exists_or, hmembers, false_or, Option.mem_def,
    or_and_right, or_assoc]

/-- What the hierarchies and the measures of an axis have, its part has. -/
theorem part_carried {P : Expr → Prop} (hP : Expr.Carried P) (hid : ∀ id, P (.identifier id))
    (hc : c.Reads P)
    (hhs : ∀ h ∈ q.hierarchies, ∀ location r, c.hierarchySet q h location = .ok r →
      Bears P [r.value] r.declarations)
    (hms : q.block.axis = axis.location → q.Fills axis →
      ∀ m ∈ q.block.measures, P (.member m.uniqueName))
    {r : Declared (Option AxisNode)} (hr : c.part q axis = .ok r) :
    (∀ node ∈ r.value, P node.body) ∧ ∀ id body, .set id body ∈ r.declarations → P body := by
  have hon : ∀ location, ∀ h ∈ q.hierarchiesOn location, ∀ r,
      c.hierarchySet q h location = .ok r → Bears P [r.value] r.declarations :=
    fun location h hh => hhs h (Query.mem_of_hierarchiesOn hh) location
  cases axis with
  | columns | rows =>
    refine hP.axisNode hid hc (hon _) (fun hblock m hm => ?_) hr
    exact hms hblock (.inr (.inr ⟨hblock, List.ne_nil_of_mem hm⟩)) m hm
  | slicer =>
    rcases slicer_eq_ok.1 hr with ⟨-, rfl⟩ | ⟨hne, hr⟩
    · exact ⟨nofun, nofun⟩
    · exact hP.axisNode hid hc (hon _) (fun hblock => hms hblock hne) hr

theorem reads_sourced (c : Compiler) (q : Query) : c.Reads (Expr.NamesOnly (c.Sourced q)) :=
  fun _ _ he _ hn => .inr (.read he hn)

/-- The set of a level in use names what is picked there, the ends of the range and the default
member. -/
theorem namesOnly_levelSet {h : HierarchySelection} {l : LevelSelection} {e : Expr}
    (hh : h ∈ q.hierarchies) (hl : l ∈ h.activeLevels)
    (he : c.levelSet q.parameters h.hierarchy l = .ok e) : e.NamesOnly (c.Sourced q) := by
  refine (Expr.carried_namesOnly _).levelSet (reads_sourced c q) (fun included excluded hp => ?_)
    (fun start stop hrange => ?_) (fun hall m hm => ?_) he
  · exact ⟨fun m hm => Expr.namesOnly_member.2 (.inr (.picked hh hl hp (.inl hm))),
      fun m hm => Expr.namesOnly_member.2 (.inr (.picked hh hl hp (.inr hm)))⟩
  · exact ⟨Expr.namesOnly_member.2 (.inr (.bound hh hl hrange (.inl rfl))),
      Expr.namesOnly_member.2 (.inr (.bound hh hl hrange (.inr rfl)))⟩
  · exact Expr.namesOnly_member.2 (.inr (.default hh hl hall hm))

theorem bears_hierarchySet {h : HierarchySelection} {location : Location} {r : Declared Expr}
    (hh : h ∈ q.hierarchies) (hr : c.hierarchySet q h location = .ok r) :
    Bears (Expr.NamesOnly (c.Sourced q)) [r.value] r.declarations := by
  refine (Expr.carried_namesOnly _).hierarchySet (fun _ => List.forall_mem_nil _)
    (reads_sourced c q) (fun l hl e he => namesOnly_levelSet hh hl he) (fun m hm => ?_) hr
  exact Expr.namesOnly_member.2 (.inl (.inl (Query.registered_of_active hh hm)))

theorem namesOnly_measure (hb : q.block.axis = axis.location) (hfills : q.Fills axis) {m : Measure}
    (hm : m ∈ q.block.measures) : (Expr.member m.uniqueName).NamesOnly (c.Sourced q) := by
  cases m with
  | stored m => exact Expr.namesOnly_member.2 (.inr (.stored hm))
  | calculated m => exact Expr.namesOnly_member.2 (.inl (.inr ⟨axis, hb, hfills, m, hm, rfl⟩))

/-- A statement names no members but those that the query calculates or brings otherwise. -/
theorem memberNames_of_statement (hs : c.statement q = .ok s) {name : String}
    (hn : name ∈ s.memberNames) : c.Sourced q name := by
  obtain ⟨e, he, hn⟩ := Expr.mem_memberNamesOf.1 hn
  obtain ⟨members, parts, hlaid⟩ := exists_laidOut hs
  obtain ⟨axis, he⟩ := hlaid.mem_bodies.1 he
  obtain ⟨hnode, hsets⟩ := part_carried (Expr.carried_namesOnly (c.Sourced q))
    (fun _ => List.forall_mem_nil _) (reads_sourced c q)
    (fun h hh location r hr => bears_hierarchySet hh hr)
    (fun hb hfills m hm => namesOnly_measure hb hfills hm) (hlaid.parts_ok axis)
  rcases he with ⟨node, hvalue, rfl⟩ | ⟨id, hd⟩
  · exact hnode node hvalue name hn
  · exact hsets id e hd name hn

/-! ## Parts of a statement -/

theorem find?_toList {o : Option AxisNode} {a : AxisName}
    (h : ∀ node, o = some node → node.axis = a) (b : AxisName) :
    o.toList.find? (·.axis = b) = if a = b then o else none := by
  cases o with
  | none => simp
  | some node =>
    have hnode := h node rfl
    by_cases hab : a = b <;> simp [hnode, hab]

/-- The part of an axis that has a node is that node with its declarations. -/
theorem axisNode_of_part (hfills : q.Fills axis) {r : Declared (Option AxisNode)}
    (hr : c.part q axis = .ok r) : c.axisNode q axis.location axis = .ok r := by
  cases axis with
  | columns | rows => exact hr
  | slicer =>
    rcases slicer_eq_ok.1 hr with ⟨hnil, -⟩ | ⟨-, hr⟩
    · exact absurd hnil hfills
    · exact hr

namespace LaidOut

variable (hlaid : c.LaidOut q members parts s)

include hlaid

theorem axis?_eq (axis : AxisName) : s.axis? axis = (parts axis).value := by
  have hnamed : ∀ axis node, (parts axis).value = some node → node.axis = axis :=
    fun axis node hn => (part_named (hlaid.parts_ok axis) hn).1
  cases axis with
  | slicer => exact hlaid.slicer
  | columns | rows =>
    show s.axes.find? _ = _
    rw [hlaid.axes, List.find?_append, find?_toList (hnamed .columns), find?_toList (hnamed .rows)]
    simp

theorem mem_memberNames_of_occurs {name : String}
    (h : Occurs name ((parts axis).value.toList.map (·.body)) (parts axis).declarations) :
    name ∈ s.memberNames := by
  refine Expr.mem_memberNamesOf.2 ?_
  rcases h with ⟨e, he, hn⟩ | ⟨id, body, hd, hn⟩
  · obtain ⟨node, hnode, rfl⟩ := List.mem_map.1 he
    exact ⟨_, hlaid.mem_bodies.2 ⟨axis, .inl ⟨node, Option.mem_toList.1 hnode, rfl⟩⟩, hn⟩
  · exact ⟨body, hlaid.mem_bodies.2 ⟨axis, .inr ⟨id, hd⟩⟩, hn⟩

/-- A measure of the block stands on its axis. -/
theorem names_measure (hb : q.block.axis = axis.location) (hfills : q.Fills axis) {m : Measure}
    (hm : m ∈ q.block.measures) :
    ∃ node, s.axis? axis = some node ∧ m.uniqueName ∈ node.body.memberNames := by
  rw [hlaid.axis?_eq]
  exact axisNode_names_measure hb hm (axisNode_of_part hfills (hlaid.parts_ok axis))

/-- A calculated measure of the block is declared with its axis. -/
theorem declares_measure (hb : q.block.axis = axis.location) (hfills : q.Fills axis)
    {m : CalculatedMeasure} (hm : .calculated m ∈ q.block.measures) :
    s.Declares (.member (Measure.calculated m).uniqueName) := by
  obtain ⟨d, hd, hdeclared⟩ :=
    axisNode_measures (axisNode_of_part hfills (hlaid.parts_ok axis)) hb hm
  refine declares_of_declareMember (isPathText_measureUniqueName m.name) hdeclared ?_
  rw [hlaid.declarations]
  cases axis <;> simp [hd]

end LaidOut

end Compiler

/-! ## Declared members -/

/-- The set of the hierarchy is compiled for the axis, and no text takes its place there. -/
structure Query.Presents (q : Query) (h : HierarchySelection) (axis : AxisName) : Prop where
  listed : h ∈ q.hierarchiesOn axis.location
  axisSet : (q.axes.get axis.location).shape.base.override = none
  hierarchySet : h.shape.base.override = none

/-- So is the set of a level, as far as it counts. -/
structure Query.PresentsLevel (q : Query) (h : HierarchySelection) (l : LevelSelection)
    (axis : AxisName) : Prop extends q.Presents h axis where
  active : l ∈ h.activeLevels
  levelSet : l.shape.override = none
  lowest : q.onlyLowestLevels axis.location = true → h.activeLevels.getLast? = some l

/-- The members that the bodies of a statement name, and what is declared of them. -/
structure Compiler.DeclaresMembers (c : Compiler) (q : Query) (s : Statement) : Prop where
  /-- Each one is declared, unless it is not calculated at all. -/
  named : ∀ name ∈ s.memberNames, s.Declares (.member name) ∨
    c.Foreign q name ∧ ¬q.Calculates name
  /-- Calculated members in use are named in front of the levels. -/
  active : ∀ h ∈ q.hierarchies, ∀ m ∈ h.activeCalculatedMembers,
    s.Declares (.member m.uniqueName) ∧
      ∀ axis, q.Presents h axis → m.uniqueName ∈ s.memberNames
  /-- So are those that were included on a level, wherever the level holds them. -/
  included : ∀ (q₀ q₁ : Query) (hierarchy : String) (m : CalculatedMember),
    q₀.change (.hierarchy hierarchy (.includeCalculated m true)) = .ok q₁ →
      Reaches Query.change q₁ q → s.Declares (.member m.asMember.uniqueName) ∧
        ∀ h l axis included excluded, q.PresentsLevel h l axis →
          c.picked q.parameters l = .ok (included, excluded) →
            m.asMember ∈ included ∨ m.asMember ∈ excluded → m.asMember.uniqueName ∈ s.memberNames
  /-- So are calculated measures, on their axis. -/
  measures : ∀ axis : AxisName, q.block.axis = axis.location → q.Fills axis →
    ∀ m, .calculated m ∈ q.block.measures →
      s.Declares (.member (Measure.calculated m).uniqueName) ∧
        ∃ node, s.axis? axis = some node ∧
          (Measure.calculated m).uniqueName ∈ node.body.memberNames

namespace Compiler

variable {c : Compiler} {q : Query} {s : Statement}

/-- Whatever the query calculates is declared. -/
theorem declares_calculated (hq : ∀ m ∈ q.calculatedMembers, m.Constructed)
    (hs : c.statement q = .ok s) {name : String} (h : q.Calculates name) :
    s.Declares (.member name) := by
  obtain ⟨members, parts, hlaid⟩ := exists_laidOut hs
  rcases h with h | ⟨axis, hb, hfills, m, hm, rfl⟩
  · exact declares_registered hq hs h
  · exact hlaid.declares_measure hb hfills hm

/-- What is named in the set of a presented hierarchy, or in a set declared for it, is named in the
statement. -/
theorem mem_memberNames_of_presents (hs : c.statement q = .ok s) {h : HierarchySelection}
    {axis : AxisName} (hp : q.Presents h axis) :
    ∃ set, c.hierarchySet q h axis.location = .ok set ∧
      ∀ name, Occurs name [set.value] set.declarations → name ∈ s.memberNames := by
  obtain ⟨members, parts, hlaid⟩ := exists_laidOut hs
  have hnode := axisNode_of_part (Query.fills_of_mem hp.listed) (hlaid.parts_ok axis)
  obtain ⟨set, hset, hoccurs⟩ := occurs_axisNode hp.axisSet hp.listed hnode
  exact ⟨set, hset, fun name hn => hlaid.mem_memberNames_of_occurs (hoccurs name hn)⟩

theorem mem_memberNames_of_active (hs : c.statement q = .ok s) {h : HierarchySelection}
    {axis : AxisName} (hp : q.Presents h axis) {m : CalculatedMember}
    (hm : m ∈ h.activeCalculatedMembers) : m.uniqueName ∈ s.memberNames := by
  obtain ⟨set, hset, hoccurs⟩ := mem_memberNames_of_presents hs hp
  exact hoccurs _ ((occurs_hierarchySet hp.hierarchySet hset).1 m hm)

theorem mem_memberNames_of_picked (hs : c.statement q = .ok s) {h : HierarchySelection}
    {l : LevelSelection} {axis : AxisName} (hp : q.PresentsLevel h l axis)
    {included excluded : List Member} (hpicked : c.picked q.parameters l = .ok (included, excluded))
    {m : Member} (hm : m ∈ included ∨ m ∈ excluded) : m.uniqueName ∈ s.memberNames := by
  obtain ⟨set, hset, hoccurs⟩ := mem_memberNames_of_presents hs hp.toPresents
  obtain ⟨own, hown, hlevel⟩ :=
    (occurs_hierarchySet hp.hierarchySet hset).2 l hp.active hp.lowest
  exact hoccurs _ (hlevel _ (mem_memberNames_levelSet hp.levelSet hpicked hm hown))

end Compiler

namespace Statement

/-- **Members are declared.** Take the statement of a query whose calculated members were made by
the constructors, whatever the compiler. Every member that its bodies name is the name of a declared
member, character for character, unless the query does not calculate a member of that name. Named
and declared in particular are the calculated members in use, those that were included on a level
at any time, and the calculated measures on one of the axes. -/
theorem members_declared {c : Compiler} {q : Query} {s : Statement}
    (hq : ∀ m ∈ q.calculatedMembers, m.Constructed) (hs : c.statement q = .ok s) :
    c.DeclaresMembers q s where
  named name hn := by
    by_cases hcalculated : q.Calculates name
    · exact .inl (Compiler.declares_calculated hq hs hcalculated)
    · have hforeign := (Compiler.memberNames_of_statement hs hn).resolve_left hcalculated
      exact .inr ⟨hforeign, hcalculated⟩
  active h hh m hm :=
    ⟨Compiler.declares_registered hq hs (Query.registered_of_active hh hm),
      fun axis hp => Compiler.mem_memberNames_of_active hs hp hm⟩
  included q₀ q₁ hierarchy m hm hr := by
    have hregistered := Query.registered_of_reaches (Query.registered_of_include hm) hr
    exact ⟨Compiler.declares_registered hq hs hregistered,
      fun h l axis included excluded hp hpicked hm =>
        Compiler.mem_memberNames_of_picked hs hp hpicked hm⟩
  measures axis hb hfills m hm := by
    obtain ⟨members, parts, hlaid⟩ := Compiler.exists_laidOut hs
    exact ⟨hlaid.declares_measure hb hfills hm, hlaid.names_measure hb hfills hm⟩

/-- The hierarchy of the time dimension. -/
def time : Hierarchy := sales.hierarchies.headD default

/-- A member with a bracket in its name, picked on the years. -/
def firstHalf : CalculatedMember := .new time "H]1" "[Time].[2024] / 2"

/-- Another one, ahead of the levels. -/
def allYears : CalculatedMember := .new time "All.Years" "Sum([Time].[Year].Members)"

/-- Years on rows, where the first member has been picked. -/
def beforeHalf : Query := (Query.new "q" sales).afterAll [.move "Time" .rows none]

/-- The first member is defined anew, the other one stands ahead of the levels, and a measure on
columns. -/
def laterChanges : List Change := [
  .addCalculatedMember (firstHalf.withProperty formatProperty "0"),
  .hierarchy "Time" (.includeCalculated allYears false),
  .block (.add (.calculated (.new "Ra.tio" "1")))]

/-- The query after the first member was picked and all else was changed. -/
def salesByHalf : Query :=
  beforeHalf.afterAll (.hierarchy "Time" (.includeCalculated firstHalf true) :: laterChanges)

theorem members_declared_salesByHalf :
    ∃ s, salesByHalf.statement = .ok s ∧
      s.memberNames =
        ["[Measures].[Ra.tio]", "[Time].[Time].[All.Years]", "[Time].[Time].[H]]1]"] ∧
        ∀ name ∈ s.memberNames, s.Declares (.member name) := by
  have hmade : salesByHalf.FromCatalog := by
    have hnew : (Query.new "q" sales).FromCatalog := Query.fromCatalog_new "q" salesEntry
    have hbefore : beforeHalf.FromCatalog := hnew.afterAll (List.forall_mem_singleton.2 trivial)
    have hfirst : firstHalf.Constructed := .new time _ _
    refine hbefore.afterAll ?_
    simp only [laterChanges, List.forall_mem_cons, Change.FromCatalog, HierarchyChange.FromCatalog]
    exact ⟨hfirst, hfirst.withProperty _ _, .new time _ _, trivial, List.forall_mem_nil _⟩
  obtain ⟨s, hs, hnames⟩ : ∃ s, salesByHalf.statement = .ok s ∧
      decide (s.memberNames =
        ["[Measures].[Ra.tio]", "[Time].[Time].[All.Years]", "[Time].[Time].[H]]1]"]) = true :=
    any_toOption_eq_true.1 (by decide +kernel)
  have hnames := of_decide_eq_true hnames
  have hdeclared := members_declared hmade.members hs
  have hratio : s.Declares (.member "[Measures].[Ra.tio]") := by
    obtain ⟨m, hm, hcalculated, hname⟩ : ∃ m ∈ salesByHalf.block.measures,
        m.isCalculated = true ∧ m.uniqueName = "[Measures].[Ra.tio]" := by
      decide +kernel
    have hcolumns : salesByHalf.Fills .columns :=
      .inr (.inr ⟨by decide +kernel, List.ne_nil_of_mem hm⟩)
    cases m with
    | stored m => cases hcalculated
    | calculated m =>
      rw [← hname]
      exact (hdeclared.measures .columns (by decide +kernel) hcolumns m hm).1
  have hyears : s.Declares (.member "[Time].[Time].[All.Years]") := by
    obtain ⟨h, hh, m, hm, hname⟩ : ∃ h ∈ salesByHalf.hierarchies,
        ∃ m ∈ h.activeCalculatedMembers, m.uniqueName = "[Time].[Time].[All.Years]" := by
      decide +kernel
    rw [← hname]
    exact (hdeclared.active h hh m hm).1
  have hhalf : s.Declares (.member "[Time].[Time].[H]]1]") := by
    obtain ⟨q₁, hq₁⟩ :
        ∃ q₁, beforeHalf.change (.hierarchy "Time" (.includeCalculated firstHalf true)) = .ok q₁ :=
      isOk_eq_true.1 (by decide +kernel)
    have hrun : salesByHalf = q₁.afterAll laterChanges := by
      rw [salesByHalf, Query.afterAll_cons, Query.after_of_ok hq₁]
    have hname : firstHalf.asMember.uniqueName = "[Time].[Time].[H]]1]" := by decide +kernel
    rw [← hname]
    exact (hdeclared.included _ _ _ _ hq₁ (hrun ▸ Query.reaches_afterAll q₁ laterChanges)).1
  refine ⟨s, hs, hnames, ?_⟩
  rw [hnames]
  exact List.forall_mem_cons.2 ⟨hratio, List.forall_mem_cons.2
    ⟨hyears, List.forall_mem_singleton.2 hhalf⟩⟩

end Statement
end CubeQuery
