import CubeQuery.Proofs.Declared
import CubeQuery.Proofs.Lookup

/-!
# Calculated members and their hierarchies

A calculated member is built for one hierarchy and registered nowhere else. Its parent is handed in
as a member, but what is kept of it is its unique name, and to see whether it lies on that hierarchy
the name is looked up in the whole cube. Parents whose names lead to their own hierarchies
(`Cube.Knows`) are told apart rightly; such are the listed members whose names are begun by no other
hierarchy (`CubeEntry.knows_of_sole`). A name that leads nowhere, as that of another calculated
member, passes for any hierarchy (`members_astray`). The parent of a member that is put into use is
not looked at. So as long as no member with a stray parent is put into use, all calculated members
stay on the hierarchies of their parents (`Query.rooted_afterAll`).
-/

namespace CubeQuery

open Edit

/-! ## Where the name of a member leads -/

/-- The unique name of the member leads to its hierarchy. -/
def Cube.Knows (c : Cube) (m : Member) : Prop :=
  ∃ m', c.memberNamed? m.uniqueName = some m' ∧ m'.hierarchy = m.hierarchy

/-- A listed member is known if its hierarchy is the only one that begins its name. -/
theorem CubeEntry.knows_of_sole {e : CubeEntry} {h : Hierarchy} (hh : h ∈ e.link.hierarchies)
    {l : Level} (hl : l ∈ h.levels) {path : List String} (hpath : path ∈ l.paths) (hne : path ≠ [])
    (hsole : ∀ h' ∈ e.link.hierarchies, h'.names <+: h.names ++ path →
      h'.names ≠ h.names ++ path → h' = h)
    (hmeasure : ∀ name, (l.member path).uniqueName ≠ measureUniqueName name) :
    e.link.Knows (l.member path) := by
  obtain ⟨l', hl', hfound⟩ := memberNamed?_of_sole hh hl hpath hne hsole hmeasure
  refine ⟨l'.member path, hfound, ?_⟩
  show l'.hierarchy = l.hierarchy
  rw [level_hierarchy hh (List.mem_of_find?_eq_some hl'), level_hierarchy hh hl]

/-! ## Defining and registering -/

namespace CalculatedMember

variable (h : Hierarchy) (own formula : String) (properties : Bindings String)
  (parent : Option Member)

end CalculatedMember

namespace HierarchySelection

variable {s t : HierarchySelection}

end HierarchySelection

namespace Query

variable {q r : Query} {m : CalculatedMember}

end Query

/-! ## Changes made in place -/

namespace InPlace

open Query

variable {q r : Query} {name : String} {s : HierarchySelection}

/-! ### Defining -/

end InPlace

/-! ## Runs -/

/-- The change puts no calculated member into use whose parent leads to another hierarchy. -/
def Change.Rooted (q : Query) : Change → Prop
  | .hierarchy _ (.includeCalculated m _) => ¬q.StrayParent m
  | _ => True

namespace Query

/-- All calculated members are registered with the hierarchy they were built for, and no parent
leads to another one. -/
def Rooted (q : Query) : Prop :=
  ∀ s ∈ q.hierarchies, ∀ m ∈ s.calculated, m.hierarchy = s.uniqueName ∧ ¬q.StrayParent m

variable {q r : Query}

theorem strayParent_iff_of_cube (h : r.cube = q.cube) (m : CalculatedMember) :
    r.StrayParent m ↔ q.StrayParent m := by
  unfold StrayParent
  rw [h]

theorem not_strayParent_of_defines {c : Change} {m : CalculatedMember} (hm : q.Defines c m)
    (h : q.change c = .ok r) : ¬q.StrayParent m := by
  cases hm with
  | add =>
    obtain ⟨-, -, hparent, -⟩ := addCalculatedMember_eq_ok.1 h
    exact hparent
  | create hs name formula properties parent =>
    obtain ⟨⟨r', m⟩, hcreated, -⟩ := bind_eq_ok.1 h
    obtain ⟨s', hs', hadd, rfl⟩ := createCalculatedMember_eq_ok.1 hcreated
    cases hs.symm.trans hs'
    obtain ⟨-, -, hparent, -⟩ := addCalculatedMember_eq_ok.1 hadd
    exact hparent

theorem change_rooted {c : Change} (hc : c.Rooted q) (hq : q.Rooted) (h : q.change c = .ok r) :
    r.Rooted := by
  have hregister : ∀ {m : CalculatedMember} {s t : HierarchySelection} {i : Nat},
      ¬q.StrayParent m → (∀ m ∈ s.calculated, m.hierarchy = s.uniqueName ∧ ¬q.StrayParent m) →
        s.register m = .ok (t, i) →
          ∀ m ∈ t.calculated, m.hierarchy = t.uniqueName ∧ ¬q.StrayParent m := by
    intro m s t i hm hs hst m' hm'
    rcases HierarchySelection.mem_calculated_register hst hm' with hold | rfl
    · rw [HierarchySelection.uniqueName_of_ground (HierarchySelection.register_ground hst)]
      exact hs m' hold
    · exact ⟨HierarchySelection.register_uniqueName hst, hm⟩
  have hkept : ∀ s ∈ r.hierarchies, ∀ m ∈ s.calculated,
      m.hierarchy = s.uniqueName ∧ ¬q.StrayParent m := by
    refine change_keeps
      (P := fun s => ∀ m ∈ s.calculated, m.hierarchy = s.uniqueName ∧ ¬q.StrayParent m)
      (fun _ _ hs => hs) (fun c' hasks s t hs hst => ?_)
      (fun m hm s t i => hregister (not_strayParent_of_defines hm h)) h hq
    have hname := HierarchySelection.uniqueName_of_ground (HierarchySelection.change_ground hst)
    rcases HierarchySelection.change_calculated hst with hsame | ⟨m, onLevel, rfl⟩
    · rw [hsame, hname]
      exact hs
    · cases hasks
      obtain ⟨u, k, hu, hcalculated⟩ := HierarchySelection.includeCalculated_calculated hst
      have hname' := HierarchySelection.uniqueName_of_ground (HierarchySelection.register_ground hu)
      rw [hcalculated, hname, ← hname']
      exact hregister hc hs hu
  intro s hs m hm
  obtain ⟨hown, hparent⟩ := hkept s hs m hm
  exact ⟨hown, mt (strayParent_iff_of_cube (change_cube h) m).1 hparent⟩

theorem rooted_of_cube (h : r.cube = q.cube) {c : Change} (hc : c.Rooted q) : c.Rooted r := by
  cases c with
  | hierarchy name c =>
    cases c with
    | includeCalculated m onLevel => exact mt (strayParent_iff_of_cube h m).1 hc
    | _ => trivial
  | _ => trivial

/-- Whatever else is changed: as long as no member with a stray parent is put into use, all
calculated members stay on the hierarchies of their parents. -/
theorem rooted_afterAll (name : String) (cube : Cube) {cs : List Change}
    (hcs : ∀ c ∈ cs, c.Rooted (new name cube)) : ((new name cube).afterAll cs).Rooted := by
  have hnew : (new name cube).Rooted := by
    intro s hs m hm
    obtain ⟨h, -, rfl⟩ := List.mem_map.1 hs
    cases hm
  refine (afterAll_keeps_of (P := fun q => q.cube = cube ∧ q.Rooted) (fun q c r hc hq h => ?_)
    ⟨rfl, hnew⟩ hcs).2
  exact ⟨(change_cube h).trans hq.1, change_rooted (rooted_of_cube hq.1 hc) hq.2 h⟩

end Query
end CubeQuery
