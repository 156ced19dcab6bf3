import CubeQuery.Proofs.Constructed
import CubeQuery.Proofs.Writes

/-!
# Declarations of calculated members

A statement refers to a calculated member or measure by its unique name, and declares it under the
identifier that this name reads as. The unique names of constructed members are written paths, so
declaration and reference spell the same name (`declareMember_name`). That a member is declared at
all goes back to the registers: whatever comes into use is registered first, and a registered name
stays registered (`Query.registered_of_reaches`).
-/

namespace CubeQuery

/-! ## Registered names -/

namespace HierarchySelection

theorem mem_of_register {s t : HierarchySelection} {m : CalculatedMember} {i : Nat}
    (h : s.register m = .ok (t, i)) : m ∈ t.calculated := by
  have hi := register_lt h
  rcases register_eq_ok.1 h with ⟨-, ⟨-, rfl⟩ | ⟨-, -, rfl⟩⟩
  · rw [List.length_set] at hi
    exact List.mem_set hi m
  · exact List.mem_append_right _ (List.mem_singleton_self m)

theorem mem_of_includeCalculated {s t : HierarchySelection} {m : CalculatedMember}
    {onLevel : Bool} (h : s.includeCalculated m onLevel = .ok t) : m ∈ t.calculated := by
  have h := includeCalculated_eq_ok.1 h
  split at h
  · obtain ⟨level, -, u, i, hu, rfl⟩ := h
    show m ∈ (u.activate level).calculated
    rw [activate_calculated]
    exact mem_of_register hu
  · obtain ⟨u, i, hu, rfl⟩ := h
    have hm := mem_of_register hu
    split <;> exact hm

/-- No write takes a name out of the register. -/
theorem Write.names_subset {s t : HierarchySelection} (h : s.Write t) :
    s.calculated.map (·.uniqueName) ⊆ t.calculated.map (·.uniqueName) := by
  cases h with
  | activate i =>
    rw [activate_calculated]
    exact List.Subset.refl _
  | register m i h =>
    rcases register_eq_ok.1 h with ⟨-, ⟨hi, rfl⟩ | ⟨-, -, rfl⟩⟩
    · obtain ⟨hlt, hname, -⟩ := List.findIdx?_eq_some_iff_getElem.1 hi
      show _ ⊆ (s.calculated.set i m).map (·.uniqueName)
      rw [map_set_eq (List.getElem?_eq_getElem hlt) (of_decide_eq_true hname).symm]
      exact List.Subset.refl _
    · exact List.map_subset _ (List.subset_append_left _ _)
  | level | retire | use | drop => exact List.Subset.refl _
  | setting hh hl ha hc =>
    rw [hc]
    exact List.Subset.refl _

theorem Writes.names_subset {s t : HierarchySelection} (h : Writes s t) :
    s.calculated.map (·.uniqueName) ⊆ t.calculated.map (·.uniqueName) := by
  induction h with
  | refl => exact List.Subset.refl _
  | tail _ hstep ih => exact List.Subset.trans ih hstep.names_subset

end HierarchySelection

theorem forall₂_exists {α β : Type} {R : α → β → Prop} {xs : List α} {ys : List β}
    (h : List.Forall₂ R xs ys) {x : α} (hx : x ∈ xs) : ∃ y ∈ ys, R x y := by
  induction h with
  | nil => cases hx
  | cons hxy _ ih =>
    rcases List.mem_cons.1 hx with rfl | hx
    · exact ⟨_, List.mem_cons_self, hxy⟩
    · obtain ⟨y, hy, hr⟩ := ih hx
      exact ⟨y, List.mem_cons_of_mem _ hy, hr⟩

namespace Query

/-- A calculated member of the given unique name is registered with one of the hierarchies. -/
def Registered (uniqueName : String) (q : Query) : Prop :=
  ∃ m ∈ q.calculatedMembers, m.uniqueName = uniqueName

theorem registered_change {uniqueName : String} {q r : Query} {c : Change}
    (hq : q.Registered uniqueName) (h : q.change c = .ok r) : r.Registered uniqueName := by
  obtain ⟨m, hm, hname⟩ := hq
  rcases change_cases h with hg | ⟨name, l, p, hmove⟩ | rfl
  · obtain ⟨s, hs, hm⟩ := List.mem_flatMap.1 hm
    obtain ⟨t, ht, hst⟩ := forall₂_exists hg.hierarchies hs
    obtain ⟨m', hm', hname'⟩ := List.mem_map.1
      (hst.writes.names_subset (List.mem_map_of_mem (f := (·.uniqueName)) hm))
    exact ⟨m', List.mem_flatMap.2 ⟨t, ht, hm'⟩, hname'.trans hname⟩
  · obtain ⟨i, -, -, rfl⟩ := move_eq_ok.1 hmove
    refine ⟨m, ?_, hname⟩
    rwa [calculatedMembers, relocate_calculated]
  · refine ⟨m, ?_, hname⟩
    rwa [calculatedMembers, swapAxes, relocate_calculated, relocate_calculated]

/-- What is registered once stays registered, whatever changes follow. -/
theorem registered_of_reaches {uniqueName : String} {q r : Query}
    (hq : q.Registered uniqueName) (h : Reaches change q r) : r.Registered uniqueName :=
  h.keeps (fun _ _ _ => registered_change) hq

theorem registered_of_include {q r : Query} {hierarchy : String} {m : CalculatedMember}
    {onLevel : Bool} (h : q.change (.hierarchy hierarchy (.includeCalculated m onLevel)) = .ok r) :
    r.Registered m.uniqueName := by
  obtain ⟨i, s, t, hi, -, ht, rfl⟩ := exists_of_update h
  have hmem : t ∈ q.hierarchies.set i t := List.mem_set (find?_lt hi) t
  exact ⟨m, List.mem_flatMap.2 ⟨t, hmem, HierarchySelection.mem_of_includeCalculated ht⟩, rfl⟩

end Query

/-! ## Declarations -/

/-- The expression is the name of a declared member, as the declaration writes it. -/
def Statement.Declares (s : Statement) (e : Expr) : Prop :=
  ∃ id formula properties, .member id formula properties ∈ s.declarations ∧
    e = .member id.quoted

namespace Compiler

variable {c : Compiler} {q : Query} {s : Statement}

/-- The name under which a written path is declared is that path. -/
theorem declareMember_name {uniqueName formula : String} {properties : Bindings String}
    {d : Declaration} (hn : Identifier.IsPathText uniqueName)
    (h : c.declareMember uniqueName formula properties = .ok d) :
    ∃ id body values, d = .member id body values ∧ id.quoted = uniqueName := by
  obtain ⟨id, hid, hquoted⟩ := hn.parse?
  obtain ⟨id', hid', body, -, rfl⟩ := declareMember_eq_ok.1 h
  cases hid.symm.trans hid'
  exact ⟨id, body, _, rfl, hquoted⟩

theorem declares_of_declareMember {uniqueName formula : String} {properties : Bindings String}
    {d : Declaration} (hn : Identifier.IsPathText uniqueName)
    (h : c.declareMember uniqueName formula properties = .ok d) (hd : d ∈ s.declarations) :
    s.Declares (.member uniqueName) := by
  obtain ⟨id, body, values, rfl, rfl⟩ := declareMember_name hn h
  exact ⟨id, body, values, hd, rfl⟩

/-- Every registered member is declared. -/
theorem declares_registered (hq : ∀ m ∈ q.calculatedMembers, m.Constructed)
    (hs : c.statement q = .ok s) {uniqueName : String} (h : q.Registered uniqueName) :
    s.Declares (.member uniqueName) := by
  obtain ⟨m, hm, rfl⟩ := h
  obtain ⟨members, hmembers, columns, -, rows, -, slicer, -, rfl⟩ := statement_eq_ok.1 hs
  obtain ⟨d, hd, hdeclared⟩ := exists_of_mapM hmembers m hm
  refine declares_of_declareMember (hq m hm).isPathText hdeclared ?_
  simp [hd]

theorem mem_measureDeclarations_of_mem {ms : List Measure} {m : CalculatedMeasure}
    {ds : List Declaration} (h : c.measureDeclarations ms = .ok ds) (hm : .calculated m ∈ ms) :
    ∃ d ∈ ds, c.declareMember m.uniqueName m.formula m.properties = .ok d := by
  rw [measureDeclarations_eq_mapM] at h
  exact exists_of_mapM h m (Measure.mem_calculated.2 hm)

/-- The calculated measures placed on a compiled axis are declared with it. -/
theorem axisNode_measures {location : Location} {axis : AxisName}
    {r : Declared (Option AxisNode)} (hr : c.axisNode q location axis = .ok r)
    (hb : q.block.axis = location) {m : CalculatedMeasure}
    (hm : .calculated m ∈ q.block.measures) :
    ∃ d ∈ r.declarations, c.declareMember m.uniqueName m.formula m.properties = .ok d := by
  obtain ⟨joined, -, shaped, -, complete, hcomplete, rfl⟩ := axisNode_eq_ok.1 hr
  rcases withMeasures_eq_ok.1 hcomplete with ⟨-, ms, hms, rfl⟩ | ⟨hnot, -⟩
  · obtain ⟨d, hd, hdeclared⟩ := mem_measureDeclarations_of_mem hms hm
    exact ⟨d, List.mem_append_right _ hd, hdeclared⟩
  · exact absurd ⟨hb, List.ne_nil_of_mem hm⟩ hnot

end Compiler
end CubeQuery
