import CubeQuery.Proofs.LevelReferences
import CubeQuery.Proofs.Ownership
import CubeQuery.Proofs.Values

/-!
# Members of compiled sets

A compiled set names members of five origins: those included, those excluded, the ends of ranges,
calculated members, and default members in place of all levels. The first four were checked when
they came to the selection. The default member is looked up when the set is compiled, by the name
that the catalog gives for it and in the whole cube, and nothing checks where it lies. So all
members in the set of a hierarchy belong to the hierarchy, but for a default member that the catalog
takes from another one (`Query.members_owned`).
-/

namespace CubeQuery

/-! ## Members in expressions -/

namespace Expr

mutual

/-- The names of the members in an expression, in writing order. -/
def memberNames : Expr → List String
  | .call _ _ args => memberNamesOf args
  | .member name => [name]
  | .identifier _ | .level _ | .hierarchy _ | .literal _ | .raw _ => []

/-- The names of the members in the expressions of a list. -/
def memberNamesOf : List Expr → List String
  | [] => []
  | e :: es => memberNames e ++ memberNamesOf es

end

/-- All members in the expression have names of the given kind. -/
def NamesOnly (Q : String → Prop) (e : Expr) : Prop := ∀ name ∈ e.memberNames, Q name

variable {Q : String → Prop}

theorem forall_memberNamesOf {es : List Expr} :
    (∀ name ∈ memberNamesOf es, Q name) ↔ ∀ e ∈ es, e.NamesOnly Q := by
  induction es with
  | nil => simp [memberNamesOf]
  | cons e es ih =>
    rw [memberNamesOf, List.forall_mem_append, ih, List.forall_mem_cons, NamesOnly]

theorem namesOnly_member {name : String} : (member name).NamesOnly Q ↔ Q name :=
  List.forall_mem_singleton

/-- Calls name the members that their arguments name. -/
theorem namesOnly_call {name : String} {form : Form} {args : List Expr}
    (h : ∀ e ∈ args, e.NamesOnly Q) : (call name form args).NamesOnly Q :=
  forall_memberNamesOf.2 h

theorem carried_namesOnly (Q : String → Prop) : Carried (NamesOnly Q) where
  level _ := List.forall_mem_nil _
  hierarchy _ := List.forall_mem_nil _
  literal _ := List.forall_mem_nil _
  function _ _ h := namesOnly_call h
  set h := namesOnly_call h
  property _ h := namesOnly_call (List.forall_mem_singleton.2 h)
  operation _ _ _ h := namesOnly_call h

end Expr

/-! ## Sets with what is declared for them -/

/-- The names of the members in a set and in the sets that are declared for it. -/
def Declared.memberNames (r : Declared Expr) : List String :=
  r.value.memberNames ++ Expr.memberNamesOf ((declaredSets r.declarations).map (·.2))

namespace Compiler

theorem Bears.memberNames {Q : String → Prop} {r : Declared Expr}
    (h : Bears (Expr.NamesOnly Q) [r.value] r.declarations) : ∀ name ∈ r.memberNames, Q name := by
  refine List.forall_mem_append.2 ⟨h.values _ List.mem_cons_self, ?_⟩
  refine Expr.forall_memberNamesOf.2 (List.forall_mem_map.2 fun s hs => ?_)
  obtain ⟨d, hd, hset⟩ := List.mem_filterMap.1 hs
  obtain ⟨name, body, rfl, hbody⟩ := h.declared d hd
  cases hset
  exact hbody

end Compiler

/-! ## Default members -/

/-- A level that stands for all members is in use, and the catalog takes the default member of the
hierarchy from another one. -/
def HierarchySelection.StrayDefault (cube : Cube) (s : HierarchySelection) (name : String) : Prop :=
  (∃ l ∈ s.activeLevels, l.level.isAll = true) ∧
    ∃ text m, s.hierarchy.defaultMember = some text ∧ cube.memberNamed? text = some m ∧
      m.hierarchy ≠ s.uniqueName ∧ m.uniqueName = name

theorem Hierarchy.mem_members_of_rootMembers {h : Hierarchy} {m : Member} (hm : m ∈ h.rootMembers) :
    m ∈ h.members := by
  unfold rootMembers at hm
  split at hm
  · cases hm
  · next l ls hls => exact List.mem_flatMap.2 ⟨l, hls ▸ List.mem_cons_self, hm⟩

/-- The default member lies on its hierarchy, unless the catalog names it and takes it from another
hierarchy. -/
theorem CubeEntry.default_owned (e : CubeEntry) {s : HierarchySelection}
    (hs : s.hierarchy ∈ e.link.hierarchies) (hall : ∃ l ∈ s.activeLevels, l.level.isAll = true)
    {m : Member} (hm : e.link.defaultMember? s.hierarchy = some m) :
    s.Owns e.link m.uniqueName ∨ s.StrayDefault e.link m.uniqueName := by
  unfold Cube.defaultMember? at hm
  split at hm
  · next text htext =>
    by_cases hhome : m.hierarchy = s.uniqueName
    · exact .inl (.inl ⟨m, Cube.mem_members_of_memberNamed? hm, hhome, rfl⟩)
    · exact .inr ⟨hall, text, m, htext, hm, hhome, rfl⟩
  · have hroot := Hierarchy.mem_members_of_rootMembers (List.mem_of_head? hm)
    obtain ⟨hmem, hhierarchy⟩ := e.mem_members_of_mem_hierarchy hs hroot
    exact .inl (.inl ⟨m, hmem, hhierarchy, rfl⟩)

/-! ## Compiled hierarchies -/

/-- Fragments of text name no members. -/
theorem Compiler.reads_namesOnly (cube : Cube) (options : Options) (Q : String → Prop) :
    (ofCube cube options).Reads (Expr.NamesOnly Q) := by
  intro text e he
  obtain ⟨body, rfl⟩ := Expr.exists_of_fragment he
  exact List.forall_mem_nil _

/-- The set of a level names members that were picked on the level, and in place of an all level the
default member. -/
theorem HierarchySelection.Own.levelSet {e : CubeEntry} {s : HierarchySelection}
    (hs : s.Own e.link) (hlisted : s.hierarchy ∈ e.link.hierarchies) {options : Options}
    (hoptions : options.legacyParameters = false) {l : LevelSelection} (hl : l ∈ s.activeLevels)
    {parameters : Parameters} {set : Expr}
    (hset : (Compiler.ofCube e.link options).levelSet parameters s.hierarchy l = .ok set) :
    set.NamesOnly fun n => s.Owns e.link n ∨ s.StrayDefault e.link n := by
  have hpicked : ∀ m ∈ l.members, Expr.NamesOnly
      (fun n => s.Owns e.link n ∨ s.StrayDefault e.link n) (.member m.uniqueName) := by
    intro m hm
    obtain ⟨i, -, hi⟩ := List.mem_filterMap.1 hl
    have hmem : m ∈ s.members := List.mem_flatMap.2 ⟨l, List.mem_of_getElem? hi, hm⟩
    exact Expr.namesOnly_member.2 (.inl (hs.picked m hmem))
  refine (Expr.carried_namesOnly _).levelSet (Compiler.reads_namesOnly _ _ _)
    (fun included excluded hp => ?_) (fun start stop hrange => ?_) (fun hall m hm => ?_) hset
  · rw [Compiler.picked, Compiler.valueOn_of_unresolved hoptions] at hp
    cases hp
    exact ⟨fun m hm => hpicked m (LevelSelection.mem_members.2 (.inl hm)),
      fun m hm => hpicked m (LevelSelection.mem_members.2 (.inr (.inl hm)))⟩
  · have hends : ∀ m ∈ (LevelRange.members start stop).ends, m ∈ l.members := fun m hm =>
      LevelSelection.mem_members.2 (.inr (.inr ⟨_, hrange, hm⟩))
    exact ⟨hpicked start (hends start List.mem_cons_self),
      hpicked stop (hends stop (List.mem_cons_of_mem _ List.mem_cons_self))⟩
  · exact Expr.namesOnly_member.2 (e.default_owned hlisted ⟨l, hl, hall⟩ hm)

namespace Query

/-- **Members of a hierarchy.** On a linked cube, let a query be changed in any way that takes no
members from elsewhere, and let values of parameters pick none. Then each member in the set that is
compiled for a hierarchy, and in the sets declared for its levels, belongs to the hierarchy: the
cube lists it there, or it is calculated there. The one exception is the default member that stands
for an all level, if the catalog takes it from another hierarchy. -/
theorem members_owned (e : CubeEntry) (name : String) {cs : List Change}
    (hcs : ∀ c ∈ cs, c.TakesFrom e.link) {options : Options}
    (hoptions : options.legacyParameters = false) {s : HierarchySelection}
    (hs : s ∈ ((new name e.link).afterAll cs).hierarchies) {location : Location}
    {r : Declared Expr} (hr : (Compiler.ofCube e.link options).hierarchySet
      ((new name e.link).afterAll cs) s location = .ok r) :
    ∀ n ∈ r.memberNames, s.Owns e.link n ∨ s.StrayDefault e.link n := by
  have hown := (owning_afterAll name e hcs).own s hs
  have hlisted : s.hierarchy ∈ e.link.hierarchies := by
    rw [← (sound_afterAll name e.link cs).registry]
    exact List.mem_map_of_mem hs
  refine Compiler.Bears.memberNames ((Expr.carried_namesOnly _).hierarchySet
    (fun _ => List.forall_mem_nil _) (Compiler.reads_namesOnly _ _ _) (fun l hl set hset => ?_)
    (fun m hm => ?_) hr)
  · exact hown.levelSet hlisted hoptions hl hset
  · obtain ⟨i, -, hi⟩ := List.mem_filterMap.1 hm
    have hmem := List.mem_of_getElem? hi
    exact Expr.namesOnly_member.2 (.inl (.inr ⟨m, hmem, hown.calculated m hmem, rfl⟩))

/-- A cube with an all level in its times, for which the catalog may name a default member. -/
def timesEntry (defaultMember : Option String) : CubeEntry where
  name := "Sales"
  dimensions := [
    { name := "Time"
      hierarchies := [
        { name := "Time"
          defaultMember := defaultMember
          levels := [
            { name := "(All)", kind := .all },
            { name := "Year", members := [["2024"], ["2025"]] },
            { name := "Month", members := [["2024", "5"]] }] }] },
    { name := "Store"
      hierarchies := [
        { name := "Store", levels := [{ name := "Country", members := [["Peru"]] }] }] }]

/-- A query on that cube after the given changes. -/
def onTimes (defaultMember : Option String) (cs : List Change) : Query :=
  (new "q" (timesEntry defaultMember).link).afterAll cs

/-- A member that is calculated among the times. -/
def recent : CalculatedMember :=
  .new ((timesEntry none).link.hierarchies.headD default) "Recent" "1"

/-- Members of every origin come to the times, and a member of the stores is turned away. -/
def timesOfEveryOrigin : List Change := [
  .hierarchy "Time" (.includeLevel "(All)"),
  .range "Time" "[Time].[2024]" "[Time].[2025]",
  .pickMember .exclusion "Time" "[Time].[2025]",
  .pickMember .inclusion "Time" "[Store].[Peru]",
  .pickMember .inclusion "Time" "[Time].[2024].[5]",
  .createCalculatedMember "Time" "Recent" "1" .empty none,
  .hierarchy "Time" (.includeCalculated recent false)]

theorem members_owned_timesOfEveryOrigin :
    ∃ s ∈ (onTimes none timesOfEveryOrigin).hierarchies, ∃ r,
      (Compiler.ofCube (timesEntry none).link).hierarchySet (onTimes none timesOfEveryOrigin) s
          .rows = .ok r ∧
        r.memberNames = ["[Time].[Time].[Recent]", "[Time].[All Times]", "[Time].[2024]",
          "[Time].[2025]", "[Time].[2025]", "[Time].[2024].[5]"] ∧
        ∀ n ∈ r.memberNames, s.Owns (timesEntry none).link n := by
  have hcs : ∀ c ∈ timesOfEveryOrigin, c.TakesFrom (timesEntry none).link := by
    simp [timesOfEveryOrigin, Change.TakesFrom, HierarchyChange.TakesFrom]
  obtain ⟨s, hs, hcheck⟩ := List.any_eq_true.1 (by decide +kernel :
    (onTimes none timesOfEveryOrigin).hierarchies.any (fun s =>
      s.hierarchy.defaultMember.isNone &&
        ((Compiler.ofCube (timesEntry none).link).hierarchySet
          (onTimes none timesOfEveryOrigin) s .rows).toOption.any fun r =>
            decide (r.memberNames = ["[Time].[Time].[Recent]", "[Time].[All Times]",
              "[Time].[2024]", "[Time].[2025]", "[Time].[2025]", "[Time].[2024].[5]"])) = true)
  obtain ⟨hnone, hcheck⟩ := Bool.and_eq_true_iff.1 hcheck
  obtain ⟨r, hr, hnames⟩ := any_toOption_eq_true.1 hcheck
  refine ⟨s, hs, r, hr, of_decide_eq_true hnames, fun n hn => ?_⟩
  refine (members_owned (timesEntry none) "q" hcs rfl hs hr n hn).resolve_right ?_
  rintro ⟨-, text, m, htext, -⟩
  rw [Option.isNone_iff_eq_none.1 hnone] at htext
  cases htext

/-- All times, for which the catalog takes the default member from the stores. -/
def peruForTimes : Query :=
  onTimes (some "[Store].[Peru]") [.hierarchy "Time" (.includeLevel "(All)")]

/-- A store stands in the set of the times. -/
theorem members_owned_strayDefault :
    ∃ s ∈ peruForTimes.hierarchies, ∃ r,
      (Compiler.ofCube peruForTimes.cube).hierarchySet peruForTimes s .rows = .ok r ∧
        ∃ n ∈ r.memberNames, ¬s.Owns peruForTimes.cube n := by
  obtain ⟨s, hs, hcheck⟩ := List.any_eq_true.1 (by decide +kernel :
    peruForTimes.hierarchies.any (fun s =>
      ((Compiler.ofCube peruForTimes.cube).hierarchySet peruForTimes s .rows).toOption.any
        fun r => decide (∃ n ∈ r.memberNames, ¬s.Owns peruForTimes.cube n)) = true)
  obtain ⟨r, hr, hstray⟩ := any_toOption_eq_true.1 hcheck
  exact ⟨s, hs, r, hr, of_decide_eq_true hstray⟩

end Query
end CubeQuery
