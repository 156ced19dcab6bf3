import CubeQuery.Proofs.Inherited

/-!
# How statements are assembled

A statement is assembled from parts: some sets, together with the declarations they need. Parts are
put side by side, sets are declared and then stand under their names, and new sets are made of the
sets of a part. A relation between sets and declarations that bears all this, and that the levels of
each hierarchy have, holds of every statement (`Compositional.statement`).
-/

namespace CubeQuery.Compiler

/-- A relation between the sets of a part and the declarations they need that passes from parts to
the sets that are assembled of them. -/
structure Assembling (c : Compiler) (R : List Expr → List Declaration → Prop) : Prop where
  nil : R [] []
  append {es es' : List Expr} {ds ds' : List Declaration} (h : R es ds) (h' : R es' ds') :
    R (es ++ es') (ds ++ ds')
  /-- A set is declared behind what it needs. -/
  declare {e : Expr} {ds : List Declaration} (name : Identifier) (h : R [e] ds) :
    R [.identifier name] (ds ++ [.set name e])
  /-- The new sets are made of the old ones: whatever property all old sets have, they inherit. -/
  make {es es' : List Expr} {ds : List Declaration} (h : R es ds)
    (hes : ∀ P, Expr.Inherited P → c.Reads P → (∀ e ∈ es, P e) → ∀ e ∈ es', P e) : R es' ds
  levels {parameters : Parameters} {h : HierarchySelection} {r : Declared (List Expr)}
    (hr : c.levelSets parameters h = .ok r) : R r.value r.declarations

/-- Such a relation that does not mind the declarations of members. -/
structure Compositional (c : Compiler) (R : List Expr → List Declaration → Prop) : Prop extends
    Assembling c R where
  member {d : Declaration} (h : c.DeclaresMember d) : R [] [d]

namespace Assembling

variable {c : Compiler} {R : List Expr → List Declaration → Prop} (hR : c.Assembling R)
  {q : Query} {location : Location} {axis : AxisName}

include hR

/-! ## Hierarchies -/

theorem joinedLevels {h : HierarchySelection} {r : Declared (Option Expr)}
    (hr : c.joinedLevels q h location = .ok r) : R r.value.toList r.declarations := by
  obtain ⟨sets, hs, rfl⟩ := joinedLevels_eq_ok.1 hr
  refine hR.make (hR.levels hs) fun P hP _ hsets e he => ?_
  exact hP.joined hsets e (Option.mem_toList.1 he)

theorem hierarchySet {h : HierarchySelection} {r : Declared Expr}
    (hr : c.hierarchySet q h location = .ok r) : R [r.value] r.declarations := by
  rcases hierarchySet_eq_ok.1 hr with
    ⟨-, set, hs, rfl⟩ | ⟨-, -, rfl⟩ | ⟨-, -, levels, hl, set, hs, rfl⟩
  · refine hR.make hR.nil fun P hP hc _ => List.forall_mem_singleton.2 ?_
    exact hP.completed hc (by rintro e ⟨⟩) hs
  · exact hR.make hR.nil fun P hP _ _ => List.forall_mem_singleton.2 hP.emptySet
  · refine hR.make (hR.joinedLevels hl) fun P hP hc hlevels => List.forall_mem_singleton.2 ?_
    exact hP.completed hc (hP.withCalculated h (by simpa using hlevels)) hs

/-! ## Axes -/

theorem operands {hs : List HierarchySelection} :
    ∀ {r : Declared (List Expr)}, c.operands q location axis hs = .ok r →
      R r.value r.declarations := by
  induction hs with
  | nil =>
    intro r hr
    cases hr
    exact hR.nil
  | cons h hs ih =>
    intro r hr
    obtain ⟨set, hset, others, hothers, ⟨-, rfl⟩ | ⟨-, rfl⟩⟩ := operands_cons_eq_ok.1 hr
    · exact hR.append (hR.hierarchySet hset) (ih hothers)
    · have h := hR.append (hR.declare (operandName axis h.hierarchy) (hR.hierarchySet hset))
        (ih hothers)
      rwa [List.append_assoc] at h

theorem joinedHierarchies {r : Declared Joined}
    (hr : c.joinedHierarchies q location axis = .ok r) : R r.value.set.toList r.declarations := by
  rcases joinedHierarchies_eq_ok.1 hr with
    ⟨-, rfl⟩ | ⟨-, ⟨-, h, -, set, hs, rfl⟩ | ⟨-, sets, hs, rfl⟩⟩
  · exact hR.nil
  · exact hR.hierarchySet hs
  · refine hR.make (hR.operands hs) fun P hP _ hsets => ?_
    simpa using hP.crossJoin hsets

theorem declaredAxis {single : Bool} {set : Option Expr} {ds : List Declaration}
    (h : R set.toList ds) :
    R (c.declaredAxis axis single set).value.toList
      (ds ++ (c.declaredAxis axis single set).declarations) := by
  unfold Compiler.declaredAxis
  split
  · split
    · exact hR.declare _ h
    · rwa [List.append_nil]
  · rwa [List.append_nil]

end Assembling

namespace Compositional

variable {c : Compiler} {R : List Expr → List Declaration → Prop} (hR : c.Compositional R)
  {q : Query} {location : Location} {axis : AxisName}

include hR

/-! ## Members and measures -/

theorem members {ds : List Declaration} (h : ∀ d ∈ ds, c.DeclaresMember d) : R [] ds := by
  induction ds with
  | nil => exact hR.nil
  | cons d ds ih =>
    obtain ⟨hd, h⟩ := List.forall_mem_cons.1 h
    exact hR.append (hR.member hd) (ih h)

theorem withMeasures {b : MeasureBlock} {set : Option Expr} {ds : List Declaration}
    {r : Declared (Option Expr)} (h : R set.toList ds)
    (hr : c.withMeasures b location set = .ok r) :
    R r.value.toList (ds ++ r.declarations) := by
  rcases withMeasures_eq_ok.1 hr with ⟨-, ms, hms, rfl⟩ | ⟨-, rfl⟩
  · have hmeasures := hR.append h (hR.members (mem_measureDeclarations hms))
    rw [List.append_nil] at hmeasures
    refine hR.make hmeasures fun P hP _ hset => List.forall_mem_singleton.2 ?_
    exact hP.besideMeasures (by simpa using hset)
  · rwa [List.append_nil]

/-! ## Statements -/

theorem axisNode {r : Declared (Option AxisNode)} (hr : c.axisNode q location axis = .ok r) :
    R (r.value.toList.map (·.body)) r.declarations := by
  obtain ⟨joined, hj, shaped, hs, complete, hm, rfl⟩ := axisNode_eq_ok.1 hr
  have hshaped : R shaped.toList joined.declarations := by
    refine hR.make (hR.joinedHierarchies hj) fun P hP hc hset => ?_
    simpa using hP.shapedAndOrdered hc (by simpa using hset) hs
  have hcomplete := hR.withMeasures (hR.declaredAxis hshaped) hm
  have hbody : ((complete.value.map fun body =>
      ({ nonEmpty := (q.axes.get location).nonEmpty, axis, body } : AxisNode)).toList.map
        (·.body)) = complete.value.toList := by
    cases complete.value <;> rfl
  rwa [hbody]

theorem slicer {r : Declared (Option AxisNode)} (hr : c.slicer q = .ok r) :
    R (r.value.toList.map (·.body)) r.declarations := by
  rcases slicer_eq_ok.1 hr with ⟨-, rfl⟩ | ⟨-, hr⟩
  · exact hR.nil
  · exact hR.axisNode hr

theorem statement {s : Statement} (hs : c.statement q = .ok s) :
    R ((s.axes ++ s.slicer.toList).map (·.body)) s.declarations := by
  obtain ⟨members, hm, columns, hcolumns, rows, hrows, slicer, hslicer, rfl⟩ :=
    statement_eq_ok.1 hs
  have hmembers := hR.members (mem_memberDeclarations hm)
  have h := hR.append (hR.append (hR.append hmembers (hR.axisNode hcolumns))
    (hR.axisNode hrows)) (hR.slicer hslicer)
  simpa only [List.map_append, List.nil_append] using h

end Compositional
end CubeQuery.Compiler
