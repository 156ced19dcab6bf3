import CubeQuery.Proofs.Alike
import CubeQuery.Proofs.Runs

/-!
# Dead state

A query keeps more than its statement shows: what is picked of a hierarchy that lies aside or is on
an axis with an override, the levels of a hierarchy with an override, and what was picked on a level
before it was taken out of use. None of it reaches the statement, nor can it make the compilation
fail: queries with the same live state have the same outcome (`statement_of_sameLive`).
-/

namespace CubeQuery

/-- The same levels and calculated members are in use, and on these levels the same is picked. -/
structure HierarchySelection.SamePicks (s s' : HierarchySelection) : Prop where
  consistent : s'.consistent = s.consistent
  calculated : s'.calculated = s.calculated
  activeCalculated : s'.activeCalculated = s.activeCalculated
  active : s'.active = s.active
  levels : ∀ i ∈ s.active, s'.levels[i]? = s.levels[i]?

/-- The same shape and totals are asked for, and the same is picked if no override stands in the
place of it. -/
structure HierarchySelection.SameLive (s s' : HierarchySelection) : Prop where
  hierarchy : s'.hierarchy = s.hierarchy
  shape : s'.shape = s.shape
  visualTotals : s'.visualTotals = s.visualTotals
  visualPattern : s'.visualPattern = s.visualPattern
  picks : s.shape.base.override = none → s.SamePicks s'

/-- Queries whose hierarchies lie at the same places, with the same calculated members, and whose
shown hierarchies have the same live state. What is asked of the hierarchies aside does not count,
nor does anything that is picked of a hierarchy that is not shown. -/
structure Query.SameLive (q q' : Query) : Prop where
  cube : q'.cube = q.cube
  block : q'.block = q.block
  visualTotals : q'.visualTotals = q.visualTotals
  visualPattern : q'.visualPattern = q.visualPattern
  lowestLevelsOnly : q'.lowestLevelsOnly = q.lowestLevelsOnly
  parameters : q'.parameters = q.parameters
  calculated : q'.hierarchies.map (·.calculated) = q.hierarchies.map (·.calculated)
  axes : ∀ l, l ≠ .unused → q'.axes.get l = q.axes.get l
  shown : ∀ l, q.Shows l → ∀ i ∈ (q.axes.get l).hierarchies, ∀ h h',
    q.hierarchies[i]? = some h → q'.hierarchies[i]? = some h' → h.SameLive h'

/-- What holds of the elements at each listed position holds of the lists of them. -/
theorem forall₂_pick {α β : Type} {R : α → β → Prop} {xs : List α} {ys : List β}
    (hlength : xs.length = ys.length) {is : List Nat}
    (hR : ∀ i ∈ is, ∀ x y, xs[i]? = some x → ys[i]? = some y → R x y) :
    List.Forall₂ R (is.filterMap (xs[·]?)) (is.filterMap (ys[·]?)) := by
  induction is with
  | nil => exact .nil
  | cons i is ih =>
    have hrest := ih fun j hj => hR j (List.mem_cons_of_mem _ hj)
    rcases Nat.lt_or_ge i xs.length with hi | hi
    · have hx := List.getElem?_eq_getElem hi
      have hy := List.getElem?_eq_getElem (hlength ▸ hi)
      rw [List.filterMap_cons_some hx, List.filterMap_cons_some hy]
      exact .cons (hR i List.mem_cons_self _ _ hx hy) hrest
    · have hx := List.getElem?_eq_none hi
      have hy := List.getElem?_eq_none (hlength ▸ hi)
      rwa [List.filterMap_cons_none hx, List.filterMap_cons_none hy]

namespace HierarchySelection

variable {s s' : HierarchySelection}

theorem SamePicks.activeLevels (h : s.SamePicks s') : s'.activeLevels = s.activeLevels := by
  rw [HierarchySelection.activeLevels, HierarchySelection.activeLevels, h.active]
  exact List.filterMap_congr h.levels

theorem SameLive.sameSet (h : s.SameLive s') (c : Compiler) {q q' : Query}
    (hq : q.SameLive q') : c.SameSet q q' s s' where
  hierarchy := h.hierarchy
  shape := h.shape
  totals set := by
    have hon : q'.hasVisualTotals s' = q.hasVisualTotals s := by
      rw [Query.hasVisualTotals, Query.hasVisualTotals, h.visualTotals, hq.visualTotals]
    have hpattern : q'.visualPatternOf s' = q.visualPatternOf s := by
      rw [Query.visualPatternOf, Query.visualPatternOf, h.visualPattern, hq.visualPattern]
    rw [Compiler.totalled, Compiler.totalled, hon, hpattern]
  levels ho := by
    have hp := h.picks ho
    refine ⟨hp.activeLevels, ?_, hp.consistent, ?_, fun l _ => ?_, .inr ?_⟩
    · rw [activeCalculatedMembers, activeCalculatedMembers, hp.activeCalculated, hp.calculated]
    · rw [needsHierarchize, needsHierarchize, h.visualTotals, hp.active, h.shape]
    · rw [hq.parameters]
    · rw [hq.parameters]

end HierarchySelection

namespace Query

theorem SameLive.sameQuery {q q' : Query} (h : q.SameLive q') (c : Compiler) :
    c.SameQuery q q' where
  cube := h.cube
  block := h.block
  lowestLevelsOnly := h.lowestLevelsOnly
  calculated := by
    rw [calculatedMembers, calculatedMembers, List.flatMap_def, List.flatMap_def, h.calculated]
  axes := h.axes
  shown l hl := by
    have hlength : q.hierarchies.length = q'.hierarchies.length := by
      simpa using (congrArg List.length h.calculated).symm
    rw [hierarchiesOn, hierarchiesOn, h.axes l hl.1]
    exact forall₂_pick hlength fun i hi s s' hs hs' => (h.shown l hl i hi s s' hs hs').sameSet c h

/-- **Dead state does not count.** Queries with the same live state have the same statement, or none
for the same reason, however they are compiled. -/
theorem statement_of_sameLive {q q' : Query} (h : q.SameLive q') (c : Compiler) :
    c.statement q' = c.statement q :=
  Compiler.statement_alike (h.sameQuery c)

/-- Months on rows. The years are out of use, and the stores lie aside. -/
def months : Query :=
  (Query.new "q" sales).afterAll [.move "Time" .rows none,
    .hierarchy "Time" (.includeLevel "Month")]

/-- The same query with leftovers: a range of years that cannot be read, and such a text in place of
the stores. -/
def monthsWithLeftovers : Query :=
  { months with
    axes := months.axes.modify .unused ({ · with nonEmpty := true })
    hierarchies :=
      (months.hierarchies.modify 0
          (·.modifyLevel 0 ({ · with range := some (.expressions "\x7b" none) }))).modify 1
        ({ · with consistent := false, shape := { base := { override := some "\x7b" } } }) }

theorem months_sameLive : months.SameLive monthsWithLeftovers where
  cube := rfl
  block := rfl
  visualTotals := rfl
  visualPattern := rfl
  lowestLevelsOnly := rfl
  parameters := rfl
  calculated := by
    refine (map_modify_eq fun _ _ => ?_).trans (map_modify_eq fun _ _ => ?_)
    · rfl
    · rfl
  axes l hl := (Axes.get_modify ..).trans (if_neg hl.symm)
  shown l hl i hi h h' hh hh' := by
    have honly : ∀ l ∈ Location.all, l ≠ .unused →
        ∀ i ∈ (months.axes.get l).hierarchies, i = 0 := by
      decide +kernel
    have hl' : l ∈ Location.all := by cases l <;> decide
    obtain rfl := honly l hl' hl.1 i hi
    have hactive : h.active = [1] := by
      have hfirst : (months.hierarchies[0]?).map (·.active) = some [1] := by decide +kernel
      rw [hh] at hfirst
      exact Option.some.inj hfirst
    simp only [monthsWithLeftovers, List.getElem?_modify, hh] at hh'
    cases hh'
    refine ⟨rfl, rfl, rfl, rfl, fun _ => ⟨rfl, rfl, rfl, rfl, fun i hi => ?_⟩⟩
    rw [hactive, List.mem_singleton] at hi
    subst hi
    simp [HierarchySelection.modifyLevel]

theorem statement_monthsWithLeftovers :
    ∃ s, (Compiler.ofCube sales).statement months = .ok s ∧
      (Compiler.ofCube sales).statement monthsWithLeftovers = .ok s := by
  obtain ⟨s, hs⟩ : ∃ s, (Compiler.ofCube sales).statement months = .ok s :=
    isOk_eq_true.1 (by decide +kernel)
  exact ⟨s, hs, (statement_of_sameLive months_sameLive _).trans hs⟩

end Query
end CubeQuery
