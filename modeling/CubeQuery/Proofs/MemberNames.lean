import CubeQuery.Proofs.CrossJoins
import CubeQuery.Proofs.Linked
import CubeQuery.Proofs.Owned

/-!
# Members that compiled sets name

Compilation puts calls around sets, joins sets, and declares sets to let names stand in their place.
None of these steps takes out a member: what a set names is named in the part of the statement that
it comes to, there or in a set that is declared for it (`Occurs`). A text in place of a set does
take out its members. So calculated members in use, members picked on a level and measures are
named on their axis wherever no text takes the place of a set.
-/

namespace CubeQuery

theorem Expr.mem_memberNamesOf {es : List Expr} {name : String} :
    name ∈ memberNamesOf es ↔ ∃ e ∈ es, name ∈ e.memberNames := by
  induction es with
  | nil => simp [memberNamesOf]
  | cons e es ih => simp [memberNamesOf, ih]

/-- A call names what its arguments name. -/
theorem Expr.mem_memberNames_call {function name : String} {form : Form} {args : List Expr}
    {e : Expr} (he : e ∈ args) (h : name ∈ e.memberNames) :
    name ∈ (call function form args).memberNames :=
  mem_memberNamesOf.2 ⟨e, he, h⟩

namespace Compiler

variable {c : Compiler} {q : Query} {axis : AxisName} {name : String} {parameters : Parameters}
  {location : Location} {h : HierarchySelection} {l : LevelSelection}

/-! ## Parts -/

/-- The member is named in some sets, or in sets that are declared for them. -/
def Occurs (name : String) (es : List Expr) (ds : List Declaration) : Prop :=
  (∃ e ∈ es, name ∈ e.memberNames) ∨ ∃ id body, .set id body ∈ ds ∧ name ∈ body.memberNames

namespace Occurs

variable {es es' : List Expr} {ds ds' : List Declaration}

theorem mono (h : Occurs name es ds) (hes : es ⊆ es') (hds : ds ⊆ ds') : Occurs name es' ds' :=
  h.imp (fun ⟨e, he, hn⟩ => ⟨e, hes he, hn⟩)
    fun ⟨id, body, hd, hn⟩ => ⟨id, body, hds hd, hn⟩

theorem left (h : Occurs name es ds) : Occurs name (es ++ es') (ds ++ ds') :=
  h.mono (List.subset_append_left _ _) (List.subset_append_left _ _)

theorem right (h : Occurs name es' ds') : Occurs name (es ++ es') (ds ++ ds') :=
  h.mono (List.subset_append_right _ _) (List.subset_append_right _ _)

theorem declare (id : Identifier) {e : Expr} (h : Occurs name [e] ds) :
    Occurs name [.identifier id] (ds ++ [.set id e]) := by
  rcases h with ⟨e', he, hn⟩ | ⟨id', body, hd, hn⟩
  · cases List.mem_singleton.1 he
    exact .inr ⟨id, e, List.mem_append_right _ (List.mem_singleton_self _), hn⟩
  · exact .inr ⟨id', body, List.mem_append_left _ hd, hn⟩

/-- New sets name a member that the old ones name. -/
theorem make (h : Occurs name es ds)
    (hes : ∀ e ∈ es, name ∈ e.memberNames → ∃ e' ∈ es', name ∈ e'.memberNames) :
    Occurs name es' ds :=
  h.imp_left fun ⟨e, he, hn⟩ => hes e he hn

end Occurs

theorem mem_memberNames_named {α : Type} (f : α → String) {ms : List α} {m : α} (hm : m ∈ ms) :
    f m ∈ (Expr.set (ms.map fun m => .member (f m))).memberNames :=
  Expr.mem_memberNames_call (List.mem_map_of_mem hm) (List.mem_singleton_self _)

/-! ## Shapes -/

/-- A filter keeps the set that it filters. -/
theorem mem_memberNames_filtered {shape : SetShape} {set e : Expr} (hn : name ∈ set.memberNames)
    (h : c.filtered shape set = .ok e) : name ∈ e.memberNames := by
  refine foldlM_keeps (P := fun e => name ∈ e.memberNames) (fun acc f e hacc h => ?_) hn
    (mapError_eq_ok.1 h)
  obtain ⟨args, -, h⟩ := bind_eq_ok.1 h
  split at h
  · cases h
    exact hacc
  · cases h
    exact Expr.mem_memberNames_call List.mem_cons_self hacc

theorem mem_memberNames_ordered {shape : OrderedShape} {set e : Expr}
    (hn : name ∈ set.memberNames) (h : c.ordered shape set = .ok e) : name ∈ e.memberNames := by
  unfold ordered at h
  split at h
  · obtain ⟨key, -, h⟩ := bind_eq_ok.1 h
    cases h
    exact Expr.mem_memberNames_call List.mem_cons_self hn
  · cases h
    exact Expr.mem_memberNames_call List.mem_cons_self hn
  · cases h
    exact Expr.mem_memberNames_call List.mem_cons_self hn
  · cases h
    exact hn

theorem mem_memberNames_shapedAndOrdered {shape : OrderedShape} {set : Expr}
    {shaped : Option Expr} (ho : shape.base.override = none) (hn : name ∈ set.memberNames)
    (h : c.shapedAndOrdered shape (some set) = .ok shaped) :
    ∃ e, shaped = some e ∧ name ∈ e.memberNames := by
  rcases shapedAndOrdered_eq_ok.1 h with
    ⟨-, ⟨⟩, -⟩ | ⟨start, ⟨-, ⟨⟩⟩ | ⟨text, htext, -⟩, filtered, hf, e, he, rfl⟩
  · exact ⟨e, rfl, mem_memberNames_ordered (mem_memberNames_filtered hn hf) he⟩
  · rw [ho] at htext
    cases htext

theorem mem_memberNames_totalled {set : Expr} (hn : name ∈ set.memberNames) :
    name ∈ (totalled q h set).memberNames := by
  unfold totalled
  split
  · exact Expr.mem_memberNames_call List.mem_cons_self hn
  · exact hn

/-! ## Levels -/

/-- The members that are picked on a level stand in its set: the included ones in place of the whole
level, the excluded ones as what is taken out. -/
theorem mem_memberNames_levelSet {hierarchy : Hierarchy} {set : Expr}
    {included excluded : List Member} {m : Member} (ho : l.shape.override = none)
    (hp : c.picked parameters l = .ok (included, excluded)) (hm : m ∈ included ∨ m ∈ excluded)
    (hset : c.levelSet parameters hierarchy l = .ok set) : m.uniqueName ∈ set.memberNames := by
  obtain ⟨picks, hpicks, hset⟩ := bind_eq_ok.1 hset
  cases hp.symm.trans hpicks
  obtain ⟨whole, -, hset⟩ := bind_eq_ok.1 hset
  obtain ⟨base, -, hset⟩ := bind_eq_ok.1 hset
  rw [shaped, ho] at hset
  refine mem_memberNames_filtered ?_ hset
  unfold narrowed
  rcases hm with hm | hm
  · have hne : included.isEmpty = false := List.isEmpty_eq_false_iff.2 (List.ne_nil_of_mem hm)
    have hincluded : m.uniqueName ∈ (memberSet included).memberNames :=
      mem_memberNames_named Member.uniqueName hm
    simp only [hne, Bool.false_eq_true, if_false]
    split
    · exact hincluded
    · exact Expr.mem_memberNames_call List.mem_cons_self hincluded
  · have hne : excluded.isEmpty = false := List.isEmpty_eq_false_iff.2 (List.ne_nil_of_mem hm)
    have hexcluded : m.uniqueName ∈ (memberSet excluded).memberNames :=
      mem_memberNames_named Member.uniqueName hm
    simp only [hne, Bool.false_eq_true, if_false]
    exact Expr.mem_memberNames_call (List.mem_cons_of_mem _ List.mem_cons_self) hexcluded

theorem mem_memberNames_restricted {k : Linkage} {i : Nat} {reference : Option Expr} {own : Expr}
    (hn : name ∈ own.memberNames) : name ∈ (restricted h k i reference l own).memberNames := by
  unfold restricted
  split
  · cases reference with
    | none => exact hn
    | some e => exact Expr.mem_memberNames_call List.mem_cons_self hn
  · exact hn

/-- What the own set of a level names stands where the level stands, or in the set that is declared
for it. -/
theorem occurs_levelSetsFrom {k : Linkage} {ls : List LevelSelection} :
    ∀ {i j : Nat} {reference : Option Expr} {r : Declared (List Expr)},
      c.levelSetsFrom parameters h k i reference ls = .ok r → ls[j]? = some l →
        ∃ own e, c.levelSet parameters h.hierarchy l = .ok own ∧ r.value[j]? = some e ∧
          ∀ name ∈ own.memberNames, Occurs name [e] r.declarations := by
  induction ls with
  | nil =>
    intro i j reference r _ hj
    cases hj
  | cons l' ls ih =>
    intro i j reference r hr hj
    obtain ⟨own, hown, others, ⟨-, hothers, rfl⟩ | ⟨-, hothers, rfl⟩⟩ :=
      levelSetsFrom_cons_eq_ok.1 hr
    · cases j with
      | zero =>
        cases hj
        refine ⟨own, _, hown, rfl, fun name hn => .inr ⟨_, _, List.mem_cons_self, ?_⟩⟩
        exact mem_memberNames_restricted hn
      | succ j =>
        obtain ⟨own, e, hown, he, hoccurs⟩ := ih hothers hj
        refine ⟨own, e, hown, he, fun name hn => (hoccurs name hn).mono ?_ ?_⟩
        · exact List.Subset.refl _
        · exact List.subset_cons_self _ _
    · cases j with
      | zero =>
        cases hj
        refine ⟨own, _, hown, rfl, fun name hn => .inl ⟨_, List.mem_cons_self, ?_⟩⟩
        exact mem_memberNames_restricted hn
      | succ j =>
        obtain ⟨own, e, hown, he, hoccurs⟩ := ih hothers hj
        exact ⟨own, e, hown, he, hoccurs⟩

theorem mem_memberNames_unionSet {es : List Expr} {e : Expr} (he : e ∈ es)
    (hn : name ∈ e.memberNames) : ∃ set, unionSet es = some set ∧ name ∈ set.memberNames := by
  unfold unionSet
  split
  · cases he
  · cases List.mem_singleton.1 he
    exact ⟨e, rfl, hn⟩
  · exact ⟨_, rfl, Expr.mem_memberNames_call he hn⟩

/-- A level counts unless only the lowest levels do and it is not the lowest in use. -/
theorem occurs_joinedLevels {r : Declared (Option Expr)} (hl : l ∈ h.activeLevels)
    (hlowest : q.onlyLowestLevels location = true → h.activeLevels.getLast? = some l)
    (hr : c.joinedLevels q h location = .ok r) :
    ∃ own, c.levelSet q.parameters h.hierarchy l = .ok own ∧
      ∀ name ∈ own.memberNames, Occurs name r.value.toList r.declarations := by
  obtain ⟨sets, hsets, rfl⟩ := joinedLevels_eq_ok.1 hr
  split
  · next hlow =>
    have hlast := hlowest hlow
    rw [List.getLast?_eq_getElem?] at hlast
    obtain ⟨own, e, hown, he, hoccurs⟩ := occurs_levelSetsFrom hsets hlast
    refine ⟨own, hown, ?_⟩
    rw [← length_levelSetsFrom hsets, ← List.getLast?_eq_getElem?] at he
    rwa [he]
  · obtain ⟨j, hj⟩ := List.mem_iff_getElem?.1 hl
    obtain ⟨own, e, hown, he, hoccurs⟩ := occurs_levelSetsFrom hsets hj
    refine ⟨own, hown, fun name hn => (hoccurs name hn).make fun e' he' hn => ?_⟩
    cases List.mem_singleton.1 he'
    obtain ⟨set, hset, hn⟩ := mem_memberNames_unionSet (List.mem_of_getElem? he) hn
    rw [hset]
    split
    · exact ⟨_, List.mem_singleton_self _, Expr.mem_memberNames_call List.mem_cons_self hn⟩
    · exact ⟨set, List.mem_singleton_self _, hn⟩

/-! ## Hierarchies -/

/-- The calculated members in use stand in front of the levels. -/
theorem mem_memberNames_withCalculated {m : CalculatedMember}
    (hm : m ∈ h.activeCalculatedMembers) (levels : Option Expr) :
    ∃ set, withCalculated h levels = some set ∧ m.uniqueName ∈ set.memberNames := by
  have hmembers := mem_memberNames_named CalculatedMember.uniqueName hm
  unfold withCalculated
  split
  · next hnil =>
    rw [hnil] at hm
    cases hm
  · exact ⟨_, rfl, hmembers⟩
  · exact ⟨_, rfl, Expr.mem_memberNames_call List.mem_cons_self hmembers⟩

theorem mem_memberNames_withCalculated_levels (h : HierarchySelection) {levels : Expr}
    (hn : name ∈ levels.memberNames) :
    ∃ set, withCalculated h (some levels) = some set ∧ name ∈ set.memberNames := by
  unfold withCalculated
  cases h.activeCalculatedMembers with
  | nil => exact ⟨levels, rfl, hn⟩
  | cons m ms =>
    exact ⟨_, rfl, Expr.mem_memberNames_call (List.mem_cons_of_mem _ List.mem_cons_self) hn⟩

/-- Shaping and totalling a set takes no member out of it. -/
theorem occurs_completed {levels shaped : Option Expr} {ds : List Declaration}
    (ho : h.shape.base.override = none) (hn : Occurs name levels.toList ds)
    (hs : c.shapedAndOrdered h.shape levels = .ok shaped) :
    Occurs name [totalled q h (shaped.getD .emptySet)] ds := by
  refine hn.make fun e he hn => ?_
  rw [Option.mem_toList.1 he] at hs
  obtain ⟨set, rfl, hn⟩ := mem_memberNames_shapedAndOrdered ho hn hs
  exact ⟨_, List.mem_singleton_self _, mem_memberNames_totalled hn⟩

theorem occurs_hierarchySet {r : Declared Expr} (ho : h.shape.base.override = none)
    (hr : c.hierarchySet q h location = .ok r) :
    (∀ m ∈ h.activeCalculatedMembers, Occurs m.uniqueName [r.value] r.declarations) ∧
    ∀ l ∈ h.activeLevels,
      (q.onlyLowestLevels location = true → h.activeLevels.getLast? = some l) →
        ∃ own, c.levelSet q.parameters h.hierarchy l = .ok own ∧
          ∀ name ∈ own.memberNames, Occurs name [r.value] r.declarations := by
  rcases hierarchySet_eq_ok.1 hr with
    ⟨hset, -⟩ | ⟨-, ⟨hl, hm⟩, -⟩ | ⟨-, -, levels, hl, shaped, hs, rfl⟩
  · exact absurd ho hset
  · rw [hl, hm]
    exact ⟨List.forall_mem_nil _, List.forall_mem_nil _⟩
  · constructor
    · intro m hm
      obtain ⟨set, hset, hn⟩ := mem_memberNames_withCalculated hm levels.value
      refine occurs_completed ho (.inl ⟨set, ?_, hn⟩) hs
      rw [hset]
      exact List.mem_singleton_self set
    · intro l hlevel hlowest
      obtain ⟨own, hown, hoccurs⟩ := occurs_joinedLevels hlevel hlowest hl
      refine ⟨own, hown, fun name hn => occurs_completed ho ?_ hs⟩
      refine (hoccurs name hn).make fun e he hn => ?_
      obtain ⟨set, hset, hn⟩ := mem_memberNames_withCalculated_levels h hn
      rw [Option.mem_toList.1 he, hset]
      exact ⟨set, List.mem_singleton_self set, hn⟩

/-! ## Axes -/

/-- The set of each hierarchy is an operand, or is declared for one. -/
theorem occurs_operands {hs : List HierarchySelection} :
    ∀ {r : Declared (List Expr)}, c.operands q location axis hs = .ok r → h ∈ hs →
      ∃ set, c.hierarchySet q h location = .ok set ∧
        ∀ name, Occurs name [set.value] set.declarations → Occurs name r.value r.declarations := by
  induction hs with
  | nil =>
    intro r _ hh
    cases hh
  | cons h' hs ih =>
    intro r hr hh
    obtain ⟨set, hset, others, hothers, ⟨-, rfl⟩ | ⟨-, rfl⟩⟩ := operands_cons_eq_ok.1 hr
    · rw [← List.singleton_append]
      rcases List.mem_cons.1 hh with rfl | hh
      · exact ⟨set, hset, fun name hn => hn.left⟩
      · obtain ⟨set', hset', hoccurs⟩ := ih hothers hh
        exact ⟨set', hset', fun name hn => (hoccurs name hn).right⟩
    · rw [← List.singleton_append, List.append_cons]
      rcases List.mem_cons.1 hh with rfl | hh
      · exact ⟨set, hset, fun name hn => (hn.declare _).left⟩
      · obtain ⟨set', hset', hoccurs⟩ := ih hothers hh
        exact ⟨set', hset', fun name hn => (hoccurs name hn).right⟩

theorem memberNames_joinedBy {f : String} {es : List Expr} {j : Expr}
    (h : Expr.JoinedBy f es j) {e : Expr} (he : e ∈ es) (hn : name ∈ e.memberNames) :
    name ∈ j.memberNames := by
  induction h with
  | single e' => rwa [← List.mem_singleton.1 he]
  | call _ _ iha ihb =>
    rcases List.mem_append.1 he with he | he
    · exact Expr.mem_memberNames_call List.mem_cons_self (iha he)
    · exact Expr.mem_memberNames_call (List.mem_cons_of_mem _ List.mem_cons_self) (ihb he)

/-- A join names what its operands name. -/
theorem mem_memberNames_crossJoin {es : List Expr} {e : Expr} (he : e ∈ es)
    (hn : name ∈ e.memberNames) (nonEmpty flatten : Bool) :
    ∃ j, Expr.crossJoin es nonEmpty flatten = some j ∧ name ∈ j.memberNames := by
  have hne : Expr.crossJoin es nonEmpty flatten ≠ none :=
    fun hnone => List.ne_nil_of_mem he (Expr.crossJoin_eq_none.1 hnone)
  obtain ⟨j, hj⟩ := Option.ne_none_iff_exists'.1 hne
  have hoperand : e.asOperand ∈ es.map Expr.asOperand := List.mem_map_of_mem he
  have hn : name ∈ e.asOperand.memberNames := by
    unfold Expr.asOperand
    split
    · exact Expr.mem_memberNames_call List.mem_cons_self hn
    · exact hn
  refine ⟨j, hj, ?_⟩
  have hjoined := Expr.crossJoin_eq_some hj
  split at hjoined
  · rw [hjoined]
    exact Expr.mem_memberNames_call hoperand hn
  · exact memberNames_joinedBy hjoined hoperand hn

theorem occurs_joinedHierarchies {r : Declared Joined}
    (ho : (q.axes.get location).shape.base.override = none) (hh : h ∈ q.hierarchiesOn location)
    (hr : c.joinedHierarchies q location axis = .ok r) :
    ∃ set, c.hierarchySet q h location = .ok set ∧ ∀ name,
      Occurs name [set.value] set.declarations → Occurs name r.value.set.toList r.declarations := by
  rcases joinedHierarchies_eq_ok.1 hr with
    ⟨htext, -⟩ | ⟨-, ⟨-, h', hon, set, hset, rfl⟩ | ⟨-, sets, hsets, rfl⟩⟩
  · exact absurd ho htext
  · rw [hon] at hh
    cases List.mem_singleton.1 hh
    exact ⟨set, hset, fun name hn => hn⟩
  · obtain ⟨set, hset, hoccurs⟩ := occurs_operands hsets hh
    refine ⟨set, hset, fun name hn => (hoccurs name hn).make fun e he hn => ?_⟩
    obtain ⟨j, hj, hn⟩ := mem_memberNames_crossJoin he hn (q.axes.get location).nonEmpty
      (c.options.crossJoin.flattens (axis = .slicer))
    exact ⟨j, Option.mem_toList.2 hj, hn⟩

theorem occurs_declaredAxis {single : Bool} {set : Option Expr} {ds : List Declaration}
    (hn : Occurs name set.toList ds) :
    Occurs name (c.declaredAxis axis single set).value.toList
      (ds ++ (c.declaredAxis axis single set).declarations) := by
  unfold declaredAxis
  split
  · split
    · exact hn.declare _
    · rwa [List.append_nil]
  · rwa [List.append_nil]

theorem mem_memberNames_withMeasures {b : MeasureBlock} {e : Expr}
    {r : Declared (Option Expr)} (hn : name ∈ e.memberNames)
    (hr : c.withMeasures b location (some e) = .ok r) :
    ∃ e', r.value = some e' ∧ name ∈ e'.memberNames := by
  rcases withMeasures_eq_ok.1 hr with ⟨-, ds, -, rfl⟩ | ⟨-, rfl⟩
  · refine ⟨_, rfl, ?_⟩
    rw [besideMeasures]
    cases b.side with
    | top => exact Expr.mem_memberNames_call (List.mem_cons_of_mem _ List.mem_cons_self) hn
    | bottom => exact Expr.mem_memberNames_call List.mem_cons_self hn
  · exact ⟨e, rfl, hn⟩

/-- The measures stand on their axis. -/
theorem mem_memberNames_besideMeasures {b : MeasureBlock} {m : Measure} (hm : m ∈ b.measures)
    (set : Option Expr) : m.uniqueName ∈ (besideMeasures b set).memberNames := by
  have hmeasures : m.uniqueName ∈ (measureSet b.measures).memberNames :=
    mem_memberNames_named Measure.uniqueName hm
  unfold besideMeasures
  split
  · exact hmeasures
  · split
    · exact Expr.mem_memberNames_call List.mem_cons_self hmeasures
    · exact Expr.mem_memberNames_call (List.mem_cons_of_mem _ List.mem_cons_self) hmeasures

theorem occurs_axisNode {r : Declared (Option AxisNode)}
    (ho : (q.axes.get location).shape.base.override = none) (hh : h ∈ q.hierarchiesOn location)
    (hr : c.axisNode q location axis = .ok r) :
    ∃ set, c.hierarchySet q h location = .ok set ∧ ∀ name,
      Occurs name [set.value] set.declarations →
        Occurs name (r.value.toList.map (·.body)) r.declarations := by
  obtain ⟨joined, hjoined, shaped, hshaped, complete, hcomplete, rfl⟩ := axisNode_eq_ok.1 hr
  obtain ⟨set, hset, hoccurs⟩ := occurs_joinedHierarchies ho hh hjoined
  refine ⟨set, hset, fun name hn => ?_⟩
  have hn : Occurs name shaped.toList joined.declarations := by
    refine (hoccurs name hn).make fun e he hn => ?_
    rw [Option.mem_toList.1 he] at hshaped
    obtain ⟨e', rfl, hn⟩ := mem_memberNames_shapedAndOrdered ho hn hshaped
    exact ⟨e', List.mem_singleton_self e', hn⟩
  have hn : Occurs name (c.declaredAxis axis joined.value.single shaped).value.toList
      (joined.declarations ++ (c.declaredAxis axis joined.value.single shaped).declarations) :=
    occurs_declaredAxis hn
  refine (hn.mono (List.Subset.refl _) (List.subset_append_left _ _)).make fun e he hn => ?_
  rw [Option.mem_toList.1 he] at hcomplete
  obtain ⟨e', he', hn⟩ := mem_memberNames_withMeasures hn hcomplete
  rw [he']
  exact ⟨e', List.mem_singleton_self e', hn⟩

theorem axisNode_names_measure {r : Declared (Option AxisNode)} {m : Measure}
    (hb : q.block.axis = location) (hm : m ∈ q.block.measures)
    (hr : c.axisNode q location axis = .ok r) :
    ∃ node, r.value = some node ∧ m.uniqueName ∈ node.body.memberNames := by
  obtain ⟨joined, -, shaped, -, complete, hcomplete, rfl⟩ := axisNode_eq_ok.1 hr
  rcases withMeasures_eq_ok.1 hcomplete with ⟨-, ds, -, rfl⟩ | ⟨hnot, -⟩
  · exact ⟨_, rfl, mem_memberNames_besideMeasures hm _⟩
  · exact absurd ⟨hb, List.ne_nil_of_mem hm⟩ hnot

end Compiler
end CubeQuery
