import CubeQuery.Change
import CubeQuery.Outcome

/-!
# What an accepted change does

For each operation that can be rejected: it gives a new state exactly when its checks succeed, and
then exactly the state stated here. Everything about runs of changes goes back to these lemmas.
-/

namespace CubeQuery

theorem changeAt_eq_ok {α : Type} {f : α → Except Rejection α} {xs ys : List α} {i : Nat} :
    changeAt f xs i = .ok ys ↔
      (xs.length ≤ i ∧ xs = ys) ∨
        ∃ x y, xs[i]? = some x ∧ f x = .ok y ∧ xs.set i y = ys := by
  rw [changeAt_eq]
  cases h : xs[i]? with
  | none =>
    have hi := List.getElem?_eq_none_iff.1 h
    simp [hi]
  | some x =>
    have hi := (List.getElem?_eq_some_iff.1 h).1
    simp [map_eq_ok, Nat.not_le.2 hi]

theorem changeAt_eq_ok_of_lt {α : Type} {f : α → Except Rejection α} {xs ys : List α} {i : Nat}
    (hi : i < xs.length) :
    changeAt f xs i = .ok ys ↔ ∃ x y, xs[i]? = some x ∧ f x = .ok y ∧ xs.set i y = ys := by
  rw [changeAt_eq_ok, or_iff_right fun h => Nat.not_le.2 hi h.1]

/-- What a change of one element keeps, a change at a position keeps of all. -/
theorem changeAt_keeps {α : Type} {P : α → Prop} {f : α → Except Rejection α}
    (hf : ∀ x y, P x → f x = .ok y → P y) {xs ys : List α} {i : Nat}
    (h : changeAt f xs i = .ok ys) (hxs : ∀ x ∈ xs, P x) : ∀ y ∈ ys, P y := by
  rcases changeAt_eq_ok.1 h with ⟨-, rfl⟩ | ⟨x, y, hx, hy, rfl⟩
  · exact hxs
  · intro z hz
    rcases List.mem_or_eq_of_mem_set hz with hz | rfl
    · exact hxs z hz
    · exact hf x z (hxs x (List.mem_of_getElem? hx)) hy

namespace HierarchySelection

/-! ## Levels -/

theorem includeLevel_eq_ok {s t : HierarchySelection} {name : String} :
    s.includeLevel name = .ok t ↔ ∃ i, s.levelIndex name = .ok i ∧ s.activate i = t := by
  simp [includeLevel, bind_eq_ok]

theorem excludeLevel_eq_ok {s t : HierarchySelection} {name : String} :
    s.excludeLevel name = .ok t ↔
      ∃ i, s.levelIndex name = .ok i ∧ { s with active := s.active.filter (· ≠ i) } = t := by
  simp [excludeLevel, bind_eq_ok]

theorem updateLevel_eq_ok {s t : HierarchySelection} {name : String}
    {f : LevelSelection → Except Rejection LevelSelection} :
    s.updateLevel name f = .ok t ↔
      ∃ i, s.levelIndex name = .ok i ∧
        ∃ levels, changeAt f s.levels i = .ok levels ∧ { s with levels := levels } = t := by
  simp [updateLevel, bind_eq_ok]

/-! ## Members -/

theorem pickMember_eq_ok {s t : HierarchySelection} {p : Pick} {m : Member} :
    s.pickMember p m = .ok t ↔
      ∃ i, s.levelOfMember p m = .ok i ∧ (s.activate i).modifyLevel i (·.pick p m) = t := by
  simp [pickMember, bind_eq_ok]

theorem includeRange_eq_ok {s t : HierarchySelection} {start stop : Member} :
    s.includeRange start stop = .ok t ↔
      start.level = stop.level ∧ start.hierarchy = s.uniqueName ∧
        ∃ i, s.levelIndexOf start.level = .ok i ∧
          (s.activate i).modifyLevel i ({ · with range := some (.members start stop) }) = t := by
  simp only [includeRange, throw_eq_error, error_bind]
  by_cases h : start.level = stop.level
  · by_cases h' : start.hierarchy = s.uniqueName
    · simp [h, h', bind_eq_ok]
    · simp [h, h']
  · simp [h]

/-! ## Calculated members -/

theorem register_eq_ok {s t : HierarchySelection} {m : CalculatedMember} {i : Nat} :
    s.register m = .ok (t, i) ↔
      m.hierarchy = s.uniqueName ∧
        ((s.calculatedIndex? m.uniqueName = some i ∧
            { s with calculated := s.calculated.set i m } = t) ∨
          (s.calculatedIndex? m.uniqueName = none ∧ s.calculated.length = i ∧
            { s with calculated := s.calculated ++ [m] } = t)) := by
  unfold register
  by_cases h : m.hierarchy = s.uniqueName
  · cases hi : s.calculatedIndex? m.uniqueName with
    | none => simp [h, and_comm]
    | some j =>
      simp only [h, ne_eq, not_true_eq_false, if_false, Except.ok.injEq, Prod.mk.injEq,
        Option.some.injEq, reduceCtorEq, false_and, or_false, true_and]
      constructor
      · rintro ⟨rfl, rfl⟩
        exact ⟨rfl, rfl⟩
      · rintro ⟨rfl, rfl⟩
        exact ⟨rfl, rfl⟩
  · simp [h]

theorem includeCalculated_eq_ok {s t : HierarchySelection} {m : CalculatedMember}
    {onLevel : Bool} :
    s.includeCalculated m onLevel = .ok t ↔
      if onLevel then
        ∃ level, s.levelIndexOf m.level = .ok level ∧ ∃ u i, s.register m = .ok (u, i) ∧
          (u.activate level).modifyLevel level (·.add m.asMember) = t
      else
        ∃ u i, s.register m = .ok (u, i) ∧
          (if i ∈ u.activeCalculated then u
            else { u with activeCalculated := u.activeCalculated ++ [i] }) = t := by
  unfold includeCalculated
  cases onLevel with
  | true => simp [bind_eq_ok, Prod.exists]
  | false =>
    simp only [Bool.false_eq_true, if_false, bind_eq_ok, Prod.exists, pure_eq_ok]
    refine exists_congr fun u => exists_congr fun i => and_congr_right fun _ => ?_
    split <;> simp

end HierarchySelection

namespace Query

/-! ## Queries -/

theorem hierarchyIndex_eq_ok {q : Query} {name : String} {i : Nat} :
    q.hierarchyIndex name = .ok i ↔ q.find? name = some i := by
  unfold hierarchyIndex
  split <;> rename_i h <;> simp [h]

theorem update_eq_ok {q r : Query} {name : String}
    {f : HierarchySelection → Except Rejection HierarchySelection} :
    q.update name f = .ok r ↔
      ∃ i, q.find? name = some i ∧ ∃ hs, changeAt f q.hierarchies i = .ok hs ∧
        { q with hierarchies := hs } = r := by
  simp [update, bind_eq_ok, hierarchyIndex_eq_ok]

/-- Where a name stands for a hierarchy, its change is the change of the query. -/
theorem update_of_find? {q : Query} {name : String} {i : Nat} {s t : HierarchySelection}
    {f : HierarchySelection → Except Rejection HierarchySelection} (hi : q.find? name = some i)
    (hs : q.hierarchies[i]? = some s) (ht : f s = .ok t) :
    q.update name f = .ok { q with hierarchies := q.hierarchies.set i t } :=
  update_eq_ok.2 ⟨i, hi, q.hierarchies.set i t, changeAt_eq_ok.2 (.inr ⟨s, t, hs, ht, rfl⟩), rfl⟩

/-- Where a name stands for a hierarchy, what rejects its change rejects that of the query. -/
theorem update_of_error {q : Query} {name : String} {i : Nat} {s : HierarchySelection}
    {f : HierarchySelection → Except Rejection HierarchySelection} {e : Rejection}
    (hi : q.find? name = some i) (hs : q.hierarchies[i]? = some s) (he : f s = .error e) :
    q.update name f = .error e := by
  simp [update, hierarchyIndex, hi, changeAt_eq, hs, he, Except.map]

theorem move_eq_ok {q r : Query} {name : String} {target : Location} {position : Option Nat} :
    q.move name target position = .ok r ↔
      ∃ i, q.find? name = some i ∧ ¬(q.locationAt i = target ∧ position = none) ∧
        { q with
          axes := (q.axes.modify (q.locationAt i) (·.erase i)).modify target (·.insert i position)
          hierarchies := relocate q.hierarchies [i] target } = r := by
  simp only [move, bind_eq_ok, hierarchyIndex_eq_ok, throw_eq_error, error_bind]
  refine exists_congr fun i => and_congr_right fun _ => ?_
  by_cases h : q.locationAt i = target ∧ position = none
  · simp [h]
  · simp [h]

/-- The parent of a calculated member can be looked up on another hierarchy than its own. -/
def StrayParent (q : Query) (m : CalculatedMember) : Prop :=
  ∃ parent p, m.parent = some parent ∧ q.cube.memberNamed? parent = some p ∧
    p.hierarchy ≠ m.hierarchy

theorem addCalculatedMember_eq_ok {q r : Query} {m : CalculatedMember} :
    q.addCalculatedMember m = .ok r ↔
      ∃ i, q.indexOf? m.hierarchy = some i ∧ ¬q.StrayParent m ∧
        ∃ hs, changeAt (fun h => return (← h.register m).1) q.hierarchies i = .ok hs ∧
          { q with hierarchies := hs } = r := by
  unfold addCalculatedMember StrayParent
  cases q.indexOf? m.hierarchy with
  | none => simp
  | some i =>
    cases m.parent with
    | none => simp [bind_eq_ok]
    | some parent =>
      cases hp : q.cube.memberNamed? parent with
      | none => simp [hp, bind_eq_ok]
      | some p => by_cases h : p.hierarchy = m.hierarchy <;> simp [hp, h, bind_eq_ok]

theorem createCalculatedMember_eq_ok {q r : Query} {hierarchy name formula : String}
    {properties : Bindings String} {parent : Option Member} {m : CalculatedMember} :
    q.createCalculatedMember hierarchy name formula properties parent = .ok (r, m) ↔
      ∃ h, q.hierarchy? hierarchy = some h ∧ q.addCalculatedMember m = .ok r ∧
        parent.elim id (fun p m => m.withParent p)
          ((CalculatedMember.new h.hierarchy name formula).withProperties properties) = m := by
  unfold createCalculatedMember
  cases q.hierarchy? hierarchy with
  | none => simp
  | some h =>
    cases parent <;> simp only [bind_eq_ok, pure_eq_ok, Except.ok.injEq, Prod.mk.injEq,
      Option.some.injEq, exists_eq_left', Option.elim, id]
    all_goals
      constructor
      · rintro ⟨r', hr, rfl, rfl⟩
        exact ⟨hr, rfl⟩
      · rintro ⟨hr, rfl⟩
        exact ⟨r, hr, rfl, rfl⟩

theorem createCalculatedMeasure_eq_ok {q r : Query} {name formula : String}
    {properties : Bindings String} {m : CalculatedMeasure} :
    q.createCalculatedMeasure name formula properties = .ok (r, m) ↔
      q.cube.measures ≠ [] ∧ (CalculatedMeasure.new name formula).withProperties properties = m ∧
        { q with
          calculatedMeasures := q.calculatedMeasures.filter (·.name ≠ name) ++ [m] } = r := by
  unfold createCalculatedMeasure
  by_cases h : q.cube.measures = []
  · simp [h]
  · simp only [List.isEmpty_iff, h, if_false, Except.ok.injEq, Prod.mk.injEq, ne_eq,
      not_false_eq_true, true_and]
    constructor
    · rintro ⟨rfl, rfl⟩
      exact ⟨rfl, rfl⟩
    · rintro ⟨rfl, rfl⟩
      exact ⟨rfl, rfl⟩

end Query
end CubeQuery
