import CubeQuery.Change.InPlace
import CubeQuery.Proofs.Ground

/-!
# Rejected changes leave nothing behind

`start_edit`: made in place, check by check and write by write, a change ends as it does when it is
made as a whole. No operation writes before its last check, and where a list of members is picked
one by one the picking cannot fail any more, because what it checks is not what it writes
(`start_checks`, `start_picks`). So a rejected change leaves the query as it was
(`unchanged_of_rejected`).
-/

namespace CubeQuery

open Edit

namespace InPlace

/-! ## Sets and levels -/

theorem start_shape (c : ShapeChange) (s : SetShape) :
    (shape c).start s = settle s (s.change c) := by
  cases c with
  | setFilter index f =>
    simp only [shape, SetShape.change, SetShape.setFilter, start_bind, start_get]
    split <;> rfl
  | override | clearOverride | addFilter | clearFilters => rfl

theorem start_order (c : OrderChange) (s : OrderedShape) :
    (order c).start s = settle s (s.change c) := by
  cases c with
  | shape c =>
    rw [order, start_on rfl (start_shape c s.base), OrderedShape.change]
    cases s.base.change c <;> rfl
  | hierarchize mode =>
    simp only [order, OrderedShape.change, start_bind, start_check]
    cases HierarchizeMode.ofText mode <;> rfl
  | sort | clearSort | clearHierarchize => rfl

theorem start_level (c : LevelChange) (s : LevelSelection) :
    (level c).start s = settle s (s.change c) := by
  cases c with
  | shape c =>
    rw [level, start_on rfl (start_shape c s.shape), LevelSelection.change]
    cases s.shape.change c <;> rfl
  | range | clearRange | bind | unbind | parameterPick => rfl

/-! ## Picking members -/

@[simp] theorem start_activate (i : Nat) (s : HierarchySelection) :
    (activate i).start s = (.ok (), s.activate i) := by
  simp only [activate, HierarchySelection.activate, start_bind, start_get]
  by_cases h : i ∈ s.active
  · simp [h]
  · simp [h, start_bind]
    rfl

theorem start_pickMember (pick : Pick) (m : Member) (s : HierarchySelection) :
    (pickMember pick m).start s = settle s (s.pickMember pick m) := by
  simp only [pickMember, HierarchySelection.pickMember, start_bind, start_check]
  cases s.levelOfMember pick m with
  | ok i => simp
  | error r => rfl

/-- Where a member belongs does not depend on what is picked already. -/
theorem levelOfMember_of_ground {s t : HierarchySelection} (h : s.SameGround t) (pick : Pick)
    (m : Member) : t.levelOfMember pick m = s.levelOfMember pick m := by
  have hu := HierarchySelection.uniqueName_of_ground h
  rw [HierarchySelection.levelOfMember, HierarchySelection.levelOfMember, hu, h.levelIndexOf_eq]

/-- The checks ahead of picking several members give what the picking would give, for every state
on the same ground. -/
theorem start_checks (pick : Pick) (ms : List Member) {s t : HierarchySelection}
    (h : s.SameGround t) :
    (ms.forM fun m => discard (check (·.levelOfMember pick m)) : Edit _ PUnit).start s =
      ((t.pickMembers pick ms).map fun _ => PUnit.unit, s) := by
  induction ms generalizing t with
  | nil => rfl
  | cons m ms ih =>
    simp only [List.forM_eq_forM, List.forM_cons, start_bind, start_discard, start_check,
      ← levelOfMember_of_ground h pick m]
    rw [HierarchySelection.pickMembers, List.foldlM_cons, HierarchySelection.pickMember]
    cases hl : t.levelOfMember pick m with
    | error r => rfl
    | ok i =>
      have hu : t.pickMember pick m = .ok ((t.activate i).modifyLevel i (·.pick pick m)) :=
        HierarchySelection.pickMember_eq_ok.2 ⟨i, hl, rfl⟩
      exact ih (h.trans (HierarchySelection.pickMember_ground hu))

theorem start_picks (pick : Pick) (ms : List Member) {s t : HierarchySelection}
    (h : s.pickMembers pick ms = .ok t) :
    (ms.forM (pickMember pick)).start s = (.ok (), t) := by
  induction ms generalizing s with
  | nil => cases h; rfl
  | cons m ms ih =>
    rw [HierarchySelection.pickMembers, List.foldlM_cons] at h
    obtain ⟨u, hu, h⟩ := bind_eq_ok.1 h
    simp only [List.forM_eq_forM, List.forM_cons, start_bind, start_pickMember, hu, settle_ok]
    exact ih h

/-- Once all members are checked, none of them is rejected any more. -/
theorem start_pickMembers (pick : Pick) (ms : List Member) (s : HierarchySelection) :
    (pickMembers pick ms).start s = settle s (s.pickMembers pick ms) := by
  rw [pickMembers, start_bind, start_checks pick ms (HierarchySelection.SameGround.refl s)]
  cases h : s.pickMembers pick ms with
  | ok t => exact start_picks pick ms h
  | error r => rfl

theorem start_includeRange (start stop : Member) (s : HierarchySelection) :
    (includeRange start stop).start s = settle s (s.includeRange start stop) := by
  simp only [includeRange, HierarchySelection.includeRange, throw_eq_error, error_bind]
  by_cases h : start.level = stop.level
  · by_cases h' : start.hierarchy = s.uniqueName
    · cases hi : s.levelIndexOf stop.level <;> simp [h, h', hi, start_bind]
    · simp [h, h', start_bind]
  · simp [h]

/-! ## Calculated members -/

theorem start_register (m : CalculatedMember) (s : HierarchySelection) :
    (register m).start s =
      match s.register m with
      | .ok (t, i) => (.ok i, t)
      | .error r => (.error r, s) := by
  simp only [register, HierarchySelection.register, start_bind, start_get]
  by_cases h : m.hierarchy = s.uniqueName
  · cases s.calculatedIndex? m.uniqueName <;> simp [h, Except.map]
  · simp [h]

theorem start_includeCalculated (m : CalculatedMember) (onLevel : Bool)
    (s : HierarchySelection) :
    (includeCalculated m onLevel).start s = settle s (s.includeCalculated m onLevel) := by
  simp only [includeCalculated, HierarchySelection.includeCalculated]
  cases onLevel with
  | true =>
    simp only [if_true, start_bind, start_check, start_register]
    cases s.levelIndexOf m.level with
    | error r => rfl
    | ok i => cases h : s.register m <;> simp [h]
  | false =>
    simp only [Bool.false_eq_true, if_false, start_bind, start_register]
    cases s.register m with
    | error r => rfl
    | ok x =>
      simp only [start_get, ok_bind]
      split <;> simp_all

/-! ## Hierarchies -/

theorem start_clear (s : HierarchySelection) : clear.start s = (.ok (), s.clear) := by
  simp [clear, HierarchySelection.clear, start_bind, start_forM_modify]

theorem start_hierarchy (c : HierarchyChange) (s : HierarchySelection) :
    (hierarchy c).start s = settle s (s.change c) := by
  cases c with
  | includeLevel name =>
    simp only [hierarchy, HierarchySelection.change, HierarchySelection.includeLevel, start_bind,
      start_check]
    cases s.levelIndex name <;> simp
  | excludeLevel name =>
    simp only [hierarchy, HierarchySelection.change, HierarchySelection.excludeLevel, start_bind,
      start_check]
    cases s.levelIndex name <;> rfl
  | clear => exact start_clear s
  | level name c =>
    simp only [hierarchy, HierarchySelection.change, HierarchySelection.updateLevel, start_bind,
      start_check]
    cases s.levelIndex name with
    | error r => rfl
    | ok i =>
      refine (start_on rfl (start_onElement i s.levels (start_level c))).trans ?_
      simp only [ok_bind]
      cases changeAt (·.change c) s.levels i <;> rfl
  | pick p ms => exact start_pickMembers p ms s
  | range start stop => exact start_includeRange start stop s
  | includeCalculated m onLevel => exact start_includeCalculated m onLevel s
  | visualTotals on => cases on <;> rfl
  | order c =>
    rw [hierarchy, start_on rfl (start_order c s.shape), HierarchySelection.change]
    cases s.shape.change c <;> rfl
  | excludeCalculated | consistent | visualPattern => rfl

/-! ## Axes -/

theorem start_axis (c : AxisChange) (a : Axis) : (axis c).start a = settle a (a.change c) := by
  cases c with
  | nonEmpty on => rfl
  | order c =>
    rw [axis, start_on rfl (start_order c a.shape), Axis.change]
    cases a.shape.change c <;> rfl

/-! ## Queries -/

theorem start_atHierarchy {e : Edit HierarchySelection Unit}
    {f : HierarchySelection → Except Rejection HierarchySelection}
    (h : ∀ s, e.start s = settle s (f s)) (i : Nat) (q : Query) :
    (atHierarchy i e).start q =
      settle q ((changeAt f q.hierarchies i).map fun hs => { q with hierarchies := hs }) :=
  start_on rfl (start_onElement i q.hierarchies h)

theorem start_onHierarchy {e : Edit HierarchySelection Unit}
    {f : HierarchySelection → Except Rejection HierarchySelection}
    (h : ∀ s, e.start s = settle s (f s)) (name : String) (q : Query) :
    (onHierarchy name e).start q = settle q (q.update name f) := by
  simp only [onHierarchy, Query.update, start_bind, start_check]
  cases q.hierarchyIndex name with
  | error r => rfl
  | ok i =>
    simp only [start_atHierarchy h, ok_bind]
    cases changeAt f q.hierarchies i <;> rfl

theorem start_onAxis (l : Location) (c : AxisChange) (q : Query) :
    (onAxis l (axis c)).start q =
      settle q (((q.axes.get l).change c).map fun a =>
        { q with axes := q.axes.modify l fun _ => a }) := by
  refine start_on ?_ (start_axis c (q.axes.get l))
  rw [Axes.modify_get]

theorem start_move (name : String) (target : Location) (position : Option Nat) (q : Query) :
    (move name target position).start q = settle q (q.move name target position) := by
  simp only [move, Query.move, start_bind, start_check]
  cases q.hierarchyIndex name with
  | error r => rfl
  | ok i =>
    by_cases h : q.locationAt i = target ∧ position = none
    · simp [h]
    · simp [h, start_bind]

/-- Hierarchies relocated one by one are relocated together. -/
theorem start_relocations (ids : List Nat) (l : Location) (q : Query) :
    (ids.forM fun i => modify fun q =>
      { q with hierarchies := Query.relocate q.hierarchies [i] l } : Edit Query PUnit).start q =
      (.ok (), { q with hierarchies := Query.relocate q.hierarchies ids l }) := by
  induction ids generalizing q with
  | nil => rfl
  | cons i ids ih =>
    simp only [List.forM_eq_forM, List.forM_cons, start_bind, start_modify]
    exact ih _

theorem start_swapAxes (q : Query) : swapAxes.start q = (.ok (), q.swapAxes) := by
  simp only [swapAxes, takeHierarchies, putHierarchies, start_bind, start_get, start_modify,
    start_pure, start_relocations]
  rfl

theorem start_addCalculatedMember (m : CalculatedMember) (q : Query) :
    (addCalculatedMember m).start q = settle q (q.addCalculatedMember m) := by
  have hr : ∀ s, (discard (register m) : Edit HierarchySelection Unit).start s =
      settle s (return (← s.register m).1) := by
    intro s
    rw [start_discard, start_register]
    cases s.register m <;> rfl
  have put : ∀ i, (atHierarchy i (discard (register m))).start q =
      settle q (return { q with
        hierarchies := ← changeAt (fun h => return (← h.register m).1) q.hierarchies i }) := by
    intro i
    rw [start_atHierarchy hr]
    cases changeAt (fun h => return (← h.register m).1) q.hierarchies i <;> rfl
  simp only [addCalculatedMember, Query.addCalculatedMember, start_bind, start_get]
  cases q.indexOf? m.hierarchy with
  | none => rfl
  | some i =>
    cases m.parent with
    | none => exact put i
    | some parent =>
      cases hp : q.cube.memberNamed? parent with
      | none => simpa only [start_bind, hp] using put i
      | some p =>
        by_cases h : p.hierarchy = m.hierarchy
        · simpa [start_bind, hp, h] using put i
        · simp [hp, h]

theorem start_createCalculatedMember (hierarchy name formula : String)
    (properties : Bindings String) (parent : Option Member) (q : Query) :
    (createCalculatedMember hierarchy name formula properties parent).start q =
      match q.createCalculatedMember hierarchy name formula properties parent with
      | .ok (r, m) => (.ok m, r)
      | .error e => (.error e, q) := by
  simp only [createCalculatedMember, Query.createCalculatedMember, start_bind, start_get]
  cases q.hierarchy? hierarchy with
  | none => rfl
  | some h =>
    cases parent with
    | none =>
      simp only [start_bind, start_addCalculatedMember]
      cases q.addCalculatedMember _ <;> rfl
    | some p =>
      simp only [start_bind, start_addCalculatedMember]
      cases q.addCalculatedMember _ <;> rfl

theorem start_createCalculatedMeasure (name formula : String) (properties : Bindings String)
    (q : Query) :
    (createCalculatedMeasure name formula properties).start q =
      match q.createCalculatedMeasure name formula properties with
      | .ok (r, m) => (.ok m, r)
      | .error e => (.error e, q) := by
  simp only [createCalculatedMeasure, Query.createCalculatedMeasure, start_bind, start_get]
  by_cases h : q.cube.measures.isEmpty
  · simp [h]
  · simp [h, start_bind, Except.map]

theorem start_declareParameters (names : List String) (q : Query) :
    (declareParameters names).start q = (.ok (), q.declareParameters names) := by
  simp [declareParameters, start_forM_modify, Query.declareParameters]

end InPlace

namespace Query

open InPlace

/-- Made in place, a change comes to the same as made as a whole. -/
theorem start_edit (c : Change) (q : Query) : (edit c).start q = settle q (q.change c) := by
  cases c with
  | move name target position => exact start_move name target position q
  | swapAxes => exact start_swapAxes q
  | axis l c =>
    rw [edit, change, start_onAxis]
    cases (q.axes.get l).change c <;> rfl
  | hierarchy name c => exact start_onHierarchy (start_hierarchy c) name q
  | pickMember p hierarchy member =>
    simp only [edit, change, Query.pickMember, start_bind, start_check]
    cases q.lookupMember member with
    | error r => rfl
    | ok m => exact start_onHierarchy (start_pickMember p m) hierarchy q
  | range hierarchy start stop =>
    simp only [edit, change, Query.includeRange, start_bind, start_check]
    cases q.lookupMember start with
    | error r => rfl
    | ok first =>
      cases h : q.lookupMember stop with
      | error r => simp only [h, ok_bind, error_bind, settle_error]
      | ok last =>
        simp only [h, ok_bind]
        exact start_onHierarchy (start_includeRange first last) hierarchy q
  | addCalculatedMember m => exact start_addCalculatedMember m q
  | createCalculatedMember hierarchy name formula properties parent =>
    simp only [edit, change, start_discard, start_createCalculatedMember]
    cases q.createCalculatedMember hierarchy name formula properties parent <;> rfl
  | createCalculatedMeasure name formula properties =>
    simp only [edit, change, start_discard, start_createCalculatedMeasure]
    cases q.createCalculatedMeasure name formula properties <;> rfl
  | addMeasure name =>
    simp only [edit, change, Query.addMeasure, start_bind, start_check]
    cases q.measure name <;> rfl
  | defaultHierarchize mode =>
    simp only [edit, change, start_bind, start_check]
    cases HierarchizeMode.ofText mode <;> rfl
  | visualTotals on => cases on <;> rfl
  | declareParameters names => exact start_declareParameters names q
  | retrieveParameters => exact start_declareParameters q.parameterNames q
  | block | lowestLevelsOnly | visualPattern | setParameter | setParameters | setAggregators => rfl

/-- **All or nothing.** A change that is rejected, whatever it has done by then, leaves every part
of the query as it was, and it is rejected for the same reason as when it is made as a whole. -/
theorem unchanged_of_rejected {q : Query} {c : Change} {r : Rejection}
    (h : ((edit c).start q).1 = .error r) : (edit c).start q = (.error r, q) ∧
      q.change c = .error r := by
  rw [start_edit] at h ⊢
  cases hc : q.change c with
  | ok t =>
    rw [hc] at h
    cases h
  | error e =>
    rw [hc] at h
    cases h
    exact ⟨rfl, rfl⟩

end Query

/-- A cube of two dimensions, with years and countries. -/
def salesEntry : CubeEntry where
  name := "Sales"
  dimensions := [
    { name := "Time"
      hierarchies := [
        { name := "Time"
          levels := [
            { name := "Year", members := [["2024"], ["2025"]] },
            { name := "Month", members := [["2024", "5"]] }] }] },
    { name := "Store"
      hierarchies := [
        { name := "Store", levels := [{ name := "Country", members := [["Peru"]] }] }] }]

def sales : Cube := salesEntry.link

/-- The second member of the list lies on another hierarchy, and the first one is not picked. -/
theorem unchanged_of_stray_member :
    ∃ r, (Query.edit (.hierarchy "Time" (.pick .inclusion
        [⟨"2024", "[Time].[2024]", "[Time].[Year]", "[Time]", 0, .regular⟩,
          ⟨"Peru", "[Store].[Peru]", "[Store].[Country]", "[Store]", 0, .regular⟩]))).start
        (Query.new "q" sales) = (.error r, Query.new "q" sales) :=
  ⟨.memberElsewhere .inclusion "[Store].[Peru]" "[Time]",
    (Query.unchanged_of_rejected rfl).1⟩

end CubeQuery
