import CubeQuery.Compile.Demands
import CubeQuery.Proofs.Compiled

/-!
# How compilation fails

Compilation fails with the first demand that is not met, and with nothing else
(`statement_failure?`): each part fails as its own demands do, and what comes behind a part is
reached only if the part does not fail.
-/

namespace CubeQuery
namespace Compiler

variable {c : Compiler}

theorem firstRefusal?_nil : c.firstRefusal? [] = none := rfl

theorem firstRefusal?_append (ds es : List Demand) :
    c.firstRefusal? (ds ++ es) = (c.firstRefusal? ds).or (c.firstRefusal? es) :=
  List.findSome?_append

theorem firstRefusal?_cons (d : Demand) (ds : List Demand) :
    c.firstRefusal? (d :: ds) = (c.refusal? d).or (c.firstRefusal? ds) :=
  findSome?_cons_or c.refusal? d ds

theorem firstRefusal?_singleton (d : Demand) : c.firstRefusal? [d] = c.refusal? d := by
  rw [firstRefusal?_cons, firstRefusal?_nil, Option.or_none]

theorem firstRefusal?_flatMap {α : Type} (f : α → List Demand) (xs : List α) :
    c.firstRefusal? (xs.flatMap f) = xs.findSome? fun x => c.firstRefusal? (f x) := by
  induction xs with
  | nil => rfl
  | cons x xs ih =>
    rw [List.flatMap_cons, firstRefusal?_append, ih, findSome?_cons_or]

/-- The first text that the reader refuses. -/
def firstUnread? (c : Compiler) (texts : List String) : Option Failure :=
  c.firstRefusal? (texts.map .text)

theorem firstUnread?_append (ts us : List String) :
    c.firstUnread? (ts ++ us) = (c.firstUnread? ts).or (c.firstUnread? us) := by
  rw [firstUnread?, List.map_append, firstRefusal?_append]
  rfl

theorem firstUnread?_singleton (text : String) : c.firstUnread? [text] = failure? (c.expr text) :=
  firstRefusal?_singleton _

/-! ## Shapes -/

theorem arguments_failure? (read : Expr.Reader) (f : SetFilter) :
    failure? (f.arguments read) = f.texts.findSome? fun text => failure? (read text) := by
  have htext : ∀ (text : String) (g : Expr → List Expr),
      failure? (do return g (← read text)) = [text].findSome? fun t => failure? (read t) := by
    intro text g
    rw [failure?_bind_ok fun _ _ => rfl, List.findSome?_singleton]
  cases f with
  | predicate text => exact htext text _
  | ranking r count text =>
    cases text with
    | none => rfl
    | some text => exact htext text _
  | name hierarchy values op => rfl

theorem apply_failure? (read : Expr.Reader) (f : SetFilter) (set : Expr) :
    failure? (f.apply read set) = f.texts.findSome? fun text => failure? (read text) := by
  rw [SetFilter.apply, ← arguments_failure?]
  refine failure?_bind_ok fun args _ => ?_
  split <;> rfl

theorem filtered_failure? (s : SetShape) (set : Expr) :
    failure? (c.filtered s set) = c.firstUnread? s.filterTexts := by
  rw [filtered, failure?_mapError, SetFilter.applyAll,
    failure?_foldlM fun set' f => apply_failure? c.read f set', SetShape.filterTexts, firstUnread?,
    List.map_flatMap, firstRefusal?_flatMap, List.map_findSome?]
  refine congrArg (List.findSome? · s.filters) (funext fun f => ?_)
  rw [Function.comp_apply, List.map_findSome?, firstRefusal?, List.findSome?_map]
  refine congrArg (List.findSome? · f.texts) (funext fun text => ?_)
  exact (failure?_mapError _ _).symm

theorem shaped_failure? (s : SetShape) (set : Expr) :
    failure? (c.shaped s set) = c.firstUnread? s.texts := by
  rw [SetShape.texts, firstUnread?_append]
  unfold shaped
  cases s.override with
  | none => exact filtered_failure? s set
  | some text =>
    rw [failure?_bind fun set' _ => filtered_failure? s set']
    exact congrArg (Option.or · _) (firstUnread?_singleton _).symm

theorem ordered_failure? (s : OrderedShape) (set : Expr) :
    failure? (c.ordered s set) = c.firstUnread? (s.sort.map (·.2)).toList := by
  unfold ordered
  cases s.sort with
  | none => cases s.hierarchize with
    | none => rfl
    | some mode => cases mode <;> rfl
  | some sort =>
    rw [Option.map_some, Option.toList_some, firstUnread?_singleton]
    exact failure?_bind_ok fun _ _ => rfl

/-- A shape reads nothing if there is neither a set nor an override for it. -/
theorem shapedAndOrdered_failure? (s : OrderedShape) (set : Option Expr) :
    failure? (c.shapedAndOrdered s set) =
      if s.base.override.isSome || set.isSome then c.firstUnread? s.texts else none := by
  have hrest : ∀ set : Expr,
      failure? (do return some (← c.ordered s (← c.filtered s.base set))) =
        (c.firstUnread? s.base.filterTexts).or (c.firstUnread? (s.sort.map (·.2)).toList) := by
    intro set
    rw [← filtered_failure? s.base set]
    refine failure?_bind fun set' _ => ?_
    rw [← ordered_failure? s set']
    exact failure?_bind_ok fun _ _ => rfl
  simp only [OrderedShape.texts, SetShape.texts, firstUnread?_append]
  unfold shapedAndOrdered
  cases s.base.override with
  | none =>
    cases set with
    | none => rfl
    | some set => exact hrest set
  | some text =>
    rw [failure?_bind fun set' _ => hrest set', Option.or_assoc]
    exact congrArg (Option.or · _) (firstUnread?_singleton _).symm

/-! ## Levels -/

theorem picked_failure? (parameters : Parameters) (s : LevelSelection) :
    failure? (c.picked parameters s) =
      c.firstRefusal? ((c.valueOn parameters s).map (Demand.value s.level)).toList := by
  unfold picked
  cases c.valueOn parameters s with
  | none => rfl
  | some value =>
    rw [Option.map_some, Option.toList_some, firstRefusal?_singleton]
    refine failure?_bind_ok fun members _ => ?_
    cases s.parameterPick <;> rfl

theorem wholeLevel_failure? (h : Hierarchy) (l : Level) :
    failure? (c.wholeLevel h l) =
      c.firstRefusal? (if l.isAll then [.defaultMember h] else []) := by
  unfold wholeLevel
  split
  · rw [firstRefusal?_singleton, refusal?]
    cases c.source.default? h <;> rfl
  · rfl

theorem ranged_failure? (range : Option LevelRange) (whole : Expr) :
    failure? (c.ranged range whole) = c.firstUnread? ((range.map (·.texts)).getD []) := by
  unfold ranged
  split
  · rfl
  · rfl
  · next start stop =>
    rw [Option.map_some, Option.getD_some, LevelRange.texts]
    cases stop.filter (fun t => !Text.isBlankText t) <;>
      · rw [firstUnread?_singleton]
        exact failure?_bind_ok fun _ _ => rfl

theorem levelSet_failure? (parameters : Parameters) (h : Hierarchy) (s : LevelSelection) :
    failure? (c.levelSet parameters h s) = c.firstRefusal? (c.levelDemands parameters h s) := by
  rw [levelDemands, firstRefusal?_append, firstRefusal?_append, Option.or_assoc,
    ← picked_failure?, ← wholeLevel_failure?, List.map_append, firstRefusal?_append]
  refine failure?_bind fun picks _ => failure?_bind fun whole _ => ?_
  refine (failure?_bind fun set _ => shaped_failure? s.shape _).trans ?_
  rw [ranged_failure?]
  rfl

/-! ## Hierarchies -/

theorem levelSetsFrom_failure? (parameters : Parameters) (h : HierarchySelection) (k : Linkage)
    (ls : List LevelSelection) : ∀ (i : Nat) (reference : Option Expr),
      failure? (c.levelSetsFrom parameters h k i reference ls) =
        c.firstRefusal? (ls.flatMap (c.levelDemands parameters h.hierarchy)) := by
  induction ls with
  | nil => exact fun _ _ => rfl
  | cons l ls ih =>
    intro i reference
    rw [levelSetsFrom, List.flatMap_cons, firstRefusal?_append, ← levelSet_failure?]
    refine failure?_bind fun own _ => ?_
    split
    · rw [← ih]
      exact failure?_bind_ok fun _ _ => rfl
    · rw [← ih]
      exact failure?_bind_ok fun _ _ => rfl

theorem joinedLevels_failure? (q : Query) (h : HierarchySelection) (location : Location) :
    failure? (c.joinedLevels q h location) =
      c.firstRefusal? (h.activeLevels.flatMap (c.levelDemands q.parameters h.hierarchy)) := by
  refine Eq.trans (failure?_bind_ok fun sets _ => ?_) (levelSetsFrom_failure? _ _ _ _ _ _)
  split
  · rfl
  · split <;> rfl

/-- Levels in use make a set. -/
theorem joinedLevels_isSome {q : Query} {h : HierarchySelection} {location : Location}
    {r : Declared (Option Expr)} (hl : h.activeLevels ≠ [])
    (hr : c.joinedLevels q h location = .ok r) : r.value.isSome = true := by
  obtain ⟨sets, hs, rfl⟩ := joinedLevels_eq_ok.1 hr
  have hsets : sets.value ≠ [] := by
    obtain ⟨l, ls, hl⟩ := List.exists_cons_of_ne_nil hl
    rw [levelSets, hl] at hs
    obtain ⟨own, -, others, ⟨-, -, rfl⟩ | ⟨-, -, rfl⟩⟩ := levelSetsFrom_cons_eq_ok.1 hs <;>
      exact List.cons_ne_nil _ _
  have hunion : (unionSet sets.value).isSome = true := by
    unfold unionSet
    split
    · next h => exact absurd h hsets
    · rfl
    · rfl
  simp only
  split
  · rwa [List.getLast?_isSome]
  · split
    · rw [Option.isSome_map, hunion]
    · exact hunion

theorem withCalculated_isSome {h : HierarchySelection} {levels : Option Expr}
    (hs : levels.isSome = true ∨ h.activeCalculatedMembers ≠ []) :
    (withCalculated h levels).isSome = true := by
  unfold withCalculated
  split
  · next hnil => exact hs.resolve_right fun hne => hne hnil
  · rfl
  · rfl

theorem hierarchySet_failure? (q : Query) (h : HierarchySelection) (location : Location) :
    failure? (c.hierarchySet q h location) =
      c.firstRefusal? (c.hierarchyDemands q.parameters h) := by
  unfold hierarchySet hierarchyDemands
  cases ho : h.shape.base.override with
  | some text =>
    have hshape := shapedAndOrdered_failure? (c := c) h.shape none
    rw [ho] at hshape
    exact (failure?_bind_ok fun _ _ => rfl).trans hshape
  | none =>
    simp only [Option.isSome_none, Bool.false_eq_true, if_false]
    split
    · rfl
    · next hused =>
      rw [firstRefusal?_append, ← joinedLevels_failure? q h location]
      refine failure?_bind fun levels hlevels => ?_
      have hset : (withCalculated h levels.value).isSome = true := by
        refine withCalculated_isSome ?_
        by_cases hl : h.activeLevels = []
        · exact .inr fun hc => hused (by simp [hl, hc])
        · exact .inl (joinedLevels_isSome hl hlevels)
      have hshape := shapedAndOrdered_failure? (c := c) h.shape (withCalculated h levels.value)
      rw [hset, Bool.or_true, if_pos rfl] at hshape
      exact (failure?_bind_ok fun _ _ => rfl).trans hshape

/-! ## Axes -/

theorem operands_failure? (q : Query) (location : Location) (axis : AxisName)
    (hs : List HierarchySelection) :
    failure? (c.operands q location axis hs) =
      c.firstRefusal? (hs.flatMap (c.hierarchyDemands q.parameters)) := by
  induction hs with
  | nil => rfl
  | cons h hs ih =>
    rw [operands, List.flatMap_cons, firstRefusal?_append, ← hierarchySet_failure? q h location,
      ← ih]
    refine failure?_bind fun set _ => failure?_bind_ok fun others _ => ?_
    cases axis <;> rfl

theorem operands_eq_nil {q : Query} {location : Location} {axis : AxisName}
    {hs : List HierarchySelection} {r : Declared (List Expr)}
    (hr : c.operands q location axis hs = .ok r) : r.value = [] ↔ hs = [] := by
  cases hs with
  | nil =>
    cases hr
    simp
  | cons h hs =>
    obtain ⟨set, -, others, -, ⟨-, rfl⟩ | ⟨-, rfl⟩⟩ := operands_cons_eq_ok.1 hr <;> simp

theorem joinedHierarchies_failure? (q : Query) (location : Location) (axis : AxisName) :
    failure? (c.joinedHierarchies q location axis) =
      c.firstRefusal? ((q.joinedOn location).flatMap (c.hierarchyDemands q.parameters)) := by
  unfold joinedHierarchies Query.joinedOn
  split
  · rfl
  · have hsingle : ∀ h : HierarchySelection, failure? (do
          let set ← c.hierarchySet q h location
          return (⟨⟨some set.value, true⟩, set.declarations⟩ : Declared Joined)) =
        c.firstRefusal? ([h].flatMap (c.hierarchyDemands q.parameters)) := by
      intro h
      rw [List.flatMap_singleton, ← hierarchySet_failure? q h location]
      exact failure?_bind_ok fun _ _ => rfl
    split
    · next h heq => rw [heq]; exact hsingle h
    · next h heq => rw [heq]; exact hsingle h
    · exact (failure?_bind_ok fun _ _ => rfl).trans (operands_failure? _ _ _ _)

theorem joinedHierarchies_isSome {q : Query} {location : Location} {axis : AxisName}
    {r : Declared Joined} (hr : c.joinedHierarchies q location axis = .ok r) :
    r.value.set.isSome = !(q.joinedOn location).isEmpty := by
  unfold Query.joinedOn
  rcases joinedHierarchies_eq_ok.1 hr with
    ⟨ho, rfl⟩ | ⟨ho, ⟨-, h, hsingle, set, -, rfl⟩ | ⟨-, sets, hs, rfl⟩⟩
  · rw [if_pos (Option.isSome_iff_ne_none.2 ho)]
    rfl
  · rw [ho, hsingle]
    rfl
  · rw [ho, Bool.eq_iff_iff, Option.isSome_iff_ne_none, Ne, Expr.crossJoin_eq_none,
      operands_eq_nil hs]
    simp

theorem declareMember_failure? (uniqueName formula : String) (properties : Bindings String) :
    failure? (c.declareMember uniqueName formula properties) =
      c.firstRefusal? (memberDemands uniqueName formula) := by
  rw [memberDemands, firstRefusal?_cons, firstRefusal?_singleton, refusal?, refusal?]
  unfold declareMember
  cases Identifier.parse? uniqueName with
  | none => rfl
  | some id => exact failure?_bind_ok fun _ _ => rfl

theorem measureDeclarations_failure? (ms : List Measure) :
    failure? (c.measureDeclarations ms) = c.firstRefusal? (ms.flatMap measureDemands) := by
  induction ms with
  | nil => rfl
  | cons m ms ih =>
    rw [List.flatMap_cons, firstRefusal?_append, ← ih]
    cases m with
    | stored m => rfl
    | calculated m =>
      rw [measureDeclarations, measureDemands, ← declareMember_failure? _ _ m.properties]
      exact failure?_bind fun _ _ => failure?_bind_ok fun _ _ => rfl

theorem withMeasures_failure? (b : MeasureBlock) (location : Location) (set : Option Expr) :
    failure? (c.withMeasures b location set) =
      c.firstRefusal? (if b.axis = location then b.measures.flatMap measureDemands else []) := by
  unfold withMeasures
  by_cases ha : b.axis = location
  · cases hm : b.measures with
    | nil => simp [ha, firstRefusal?_nil]
    | cons m ms =>
      simp only [ha, decide_true, List.isEmpty_cons, Bool.not_false, Bool.and_self, if_true]
      rw [← measureDeclarations_failure?]
      exact failure?_bind_ok fun _ _ => rfl
  · simp [ha, firstRefusal?_nil]

theorem axisNode_failure? (q : Query) (location : Location) (axis : AxisName) :
    failure? (c.axisNode q location axis) = c.firstRefusal? (c.axisDemands q location) := by
  rw [axisDemands, firstRefusal?_append, firstRefusal?_append,
    ← joinedHierarchies_failure? q location axis]
  refine failure?_bind fun joined hjoined => ?_
  have hshape := shapedAndOrdered_failure? (c := c) (q.axes.get location).shape joined.value.set
  rw [joinedHierarchies_isSome hjoined] at hshape
  refine (failure?_bind fun shaped _ =>
    (failure?_bind_ok fun _ _ => rfl).trans (withMeasures_failure? _ _ _)).trans ?_
  rw [hshape]
  split <;> rfl

/-! ## Statements -/

theorem slicer_failure? (q : Query) :
    failure? (c.slicer q) = c.firstRefusal?
      (if (q.axes.get .filter).hierarchies.isEmpty then [] else c.axisDemands q .filter) := by
  unfold slicer
  split
  · rfl
  · exact axisNode_failure? q .filter .slicer

/-- Compilation fails with the first demand that is not met, and succeeds if all are met. -/
theorem statement_failure? (q : Query) :
    failure? (c.statement q) = c.firstRefusal? (c.demands q) := by
  have hmembers : failure? (q.calculatedMembers.mapM fun m =>
        c.declareMember m.uniqueName m.formula m.properties) =
      c.firstRefusal?
        (q.calculatedMembers.flatMap fun m => memberDemands m.uniqueName m.formula) := by
    rw [failure?_mapM, firstRefusal?_flatMap]
    simp only [declareMember_failure?]
  rw [demands, firstRefusal?_append, firstRefusal?_append, firstRefusal?_append, Option.or_assoc,
    Option.or_assoc, ← hmembers, ← axisNode_failure? q .columns .columns,
    ← axisNode_failure? q .rows .rows, ← slicer_failure?]
  exact failure?_bind fun _ _ => failure?_bind fun _ _ => failure?_bind fun _ _ =>
    failure?_bind_ok fun _ _ => rfl

end Compiler
end CubeQuery
