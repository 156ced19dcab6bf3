import CubeQuery.Proofs.Moves

/-!
# Swapping the result axes

A swap exchanges the lists of columns and rows and then writes, hierarchy by hierarchy, the location
that the lists now say. It does not look at the locations that it overwrites. As they agreed with
the lists before (`Placed`), what is written to them is their exchange
(`Placed.hierarchies_swapAxes`), and so a second swap writes back what was there. Where they do not
agree, that is lost.
-/

namespace CubeQuery.Query

theorem swapped_swapped (l : Location) : swapped (swapped l) = l := by
  cases l <;> rfl

theorem Placed.hierarchies_swapAxes {q : Query} (hq : q.Placed) :
    q.swapAxes.hierarchies =
      q.hierarchies.map fun s => { s with location := swapped s.location } := by
  refine List.ext_getElem? fun j => ?_
  show (relocate (relocate q.hierarchies (q.axes.get .columns).hierarchies .rows)
    (q.axes.get .rows).hierarchies .columns)[j]? = _
  rw [getElem?_relocate, getElem?_relocate, List.getElem?_map, Option.map_map]
  cases hj : q.hierarchies[j]? with
  | none => rfl
  | some s =>
    have hloc : q.location? j = some s.location := by rw [location?, hj, Option.map_some]
    simp only [hq.listed, hloc, Option.map_some, Function.comp_apply, Option.some_inj]
    cases s with
    | mk hierarchy location =>
      cases location <;> simp [swapped]

/-- Columns and rows have traded their hierarchies, and the queries differ in nothing else. -/
structure Swapped (q r : Query) : Prop where
  /-- The order in which they are joined is kept, and so is what is asked of the axis itself. -/
  axes : ∀ l, r.axes.get l =
    { q.axes.get l with hierarchies := (q.axes.get (swapped l)).hierarchies }
  /-- A hierarchy on one of the two names the other now. -/
  selections : r.hierarchies = q.hierarchies.map fun s => { s with location := swapped s.location }
  rest : r = { q with axes := r.axes, hierarchies := r.hierarchies }

theorem Placed.swapped {q : Query} (hq : q.Placed) : q.Swapped q.swapAxes := by
  refine ⟨fun l => ?_, hq.hierarchies_swapAxes, rfl⟩
  cases l <;> rfl

theorem Placed.swapAxes_swapAxes {q : Query} (hq : q.Placed) : q.swapAxes.swapAxes = q := by
  have hierarchies : q.swapAxes.swapAxes.hierarchies = q.hierarchies := by
    rw [(placed_swapAxes hq).hierarchies_swapAxes, hq.hierarchies_swapAxes, List.map_map]
    exact List.map_id'' (fun s => by rw [Function.comp_apply, swapped_swapped]) q.hierarchies
  calc q.swapAxes.swapAxes
    _ = { q with hierarchies := q.swapAxes.swapAxes.hierarchies } := rfl
    _ = q := by rw [hierarchies]

/-- **Swapped axes.** A swap lets columns and rows trade their hierarchies, which then name the
other axis, and changes nothing else. A second swap gives the query back as it was. -/
theorem axes_swapped {cube : Cube} {q : Query} (hq : Reachable cube q) :
    ∃ r, q.change .swapAxes = .ok r ∧ q.Swapped r ∧ r.change .swapAxes = .ok q := by
  obtain ⟨own, cs, rfl⟩ := hq
  have hplaced := (sound_afterAll own cube cs).toPlaced
  refine ⟨_, rfl, hplaced.swapped, ?_⟩
  exact congrArg Except.ok hplaced.swapAxes_swapAxes

/-- Listed on columns but naming no axis, a hierarchy is left with a name that it did not have. -/
example :
    let q := { new "q" sales with axes := { columns := { hierarchies := [0] } } }
    q.swapAxes.swapAxes.locationAt 0 = .columns ∧ q.locationAt 0 = .unused := by
  decide +kernel

/-- Both hierarchies move to columns, in their order, and back. -/
theorem axes_swapped_columns :
    Reachable sales yearsThenCountries ∧
      ∃ r, yearsThenCountries.change .swapAxes = .ok r ∧
        (r.axes.get .columns).hierarchies = [0, 1] ∧ (r.axes.get .rows).hierarchies = [] ∧
          r.change .swapAxes = .ok yearsThenCountries := by
  have hq : Reachable sales yearsThenCountries := ⟨"q", _, rfl⟩
  obtain ⟨r, hr, hswapped, hback⟩ := axes_swapped hq
  refine ⟨hq, r, hr, ?_, ?_, hback⟩
  · rw [hswapped.axes]
    decide +kernel
  · rw [hswapped.axes]
    decide +kernel

end CubeQuery.Query
