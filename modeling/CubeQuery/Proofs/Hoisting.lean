import CubeQuery.Proofs.Alike
import CubeQuery.Proofs.AxisSets

/-!
# Declaring the axes, or not

Most servers get the set of a single hierarchy on a result axis declared under the name of the axis.
That is all the flavor of a server changes (`statement_inlined`): with the sets of the axes put back
in the place of their names, and their declarations dropped, the statement is the one for a server
without a flavor, and where there is none the reason is the same.
-/

namespace CubeQuery
namespace Compiler

variable {c : Compiler} {location : Location} {q : Query}

/-! ## Axes -/

/-- The node of an axis with its declarations, without and with the axis declared as `set`. Nothing
is declared for `none`. -/
structure Hoists (axis : AxisName) (set : Option Expr) (r r' : Declared (Option AxisNode)) :
    Prop where
  /-- The set is declared behind those of its hierarchy and ahead of the measures. -/
  declarations : ∃ before after, r.declarations = before ++ after ∧
    r'.declarations = before ++ (set.map (.set (axisSetName axis))).toList ++ after
  /-- The set in the place of the name gives the node back. -/
  value : ∀ f, f (axisSetName axis) = set → (∀ node ∈ r.value, node.replace f = node) →
    r'.value.map (·.replace f) = r.value

theorem replace_measureSet (f : Identifier → Option Expr) (ms : List Measure) :
    (measureSet ms).replace f = measureSet ms := by
  have hnames : (measureSet ms).identifiers = [] :=
    List.subset_nil.1 ((Expr.inherited_identifiers []).members Measure.uniqueName ms)
  exact Expr.replace_eq_self (by simp [hnames])

theorem replace_besideMeasures (f : Identifier → Option Expr) (b : MeasureBlock) (set : Expr) :
    (besideMeasures b (some set)).replace f = besideMeasures b (some (set.replace f)) := by
  unfold besideMeasures
  cases b.side <;> simp [Expr.function, Expr.replace, Expr.replaceAll, replace_measureSet]

theorem Hoists.same (axis : AxisName) (r : Declared (Option AxisNode)) : Hoists axis none r r where
  declarations := ⟨r.declarations, [], by simp, by simp⟩
  value f _ hnode := by
    cases hr : r.value with
    | none => rfl
    | some node => rw [Option.map_some, hnode node hr]

/-- The measures stand beside the name of the axis as they do beside its set. -/
theorem withMeasures_hoists (b : MeasureBlock) (axis : AxisName) (nonEmpty : Bool) (set : Expr)
    (before : List Declaration) :
    Agree (fun r r' => Hoists axis (some set)
        ⟨r.value.map fun body => { nonEmpty, axis, body }, before ++ [] ++ r.declarations⟩
        ⟨r'.value.map fun body => { nonEmpty, axis, body },
          before ++ [.set (axisSetName axis) set] ++ r'.declarations⟩)
      (c.withMeasures b location (some set))
      (c.withMeasures b location (some (.identifier (axisSetName axis)))) := by
  have hname : ∀ f : Identifier → Option Expr, f (axisSetName axis) = some set →
      (Expr.identifier (axisSetName axis)).replace f = set := by
    intro f hf
    rw [Expr.replace, hf]
    rfl
  unfold withMeasures
  split
  · refine agree_bind fun ds _ => .made ⟨⟨before, ds, by simp, by simp⟩, fun f hf _ => ?_⟩
    simp only [Option.map_some, AxisNode.replace, replace_besideMeasures, hname f hf]
  · refine .made ⟨⟨before, [], by simp, by simp⟩, fun f hf _ => ?_⟩
    simp only [Option.map_some, AxisNode.replace, hname f hf]

/-- Up to the declaration of its set and the name in the place of it, an axis is the same for both
servers. -/
theorem axisNode_hoists (hc : c.options.declaresAxes = false) {f : Option Flavor}
    (hf : (c.writingFor f).options.declaresAxes = true) (axis : AxisName) :
    Agree (fun r r' => ∃ set, Hoists axis set r r') (c.axisNode q location axis)
      ((c.writingFor f).axisNode q location axis) := by
  have hshape : (c.writingFor f).shapedAndOrdered = c.shapedAndOrdered := rfl
  rw [axisNode, axisNode, joinedHierarchies_writingFor, hshape]
  refine agree_bind fun joined _ => agree_bind fun shaped _ => ?_
  simp only [withMeasures_writingFor]
  have hplain : c.declaredAxis axis joined.value.single shaped = ⟨shaped, []⟩ := by
    cases shaped <;> simp [declaredAxis, hc]
  rw [hplain]
  -- Only the set of a single hierarchy is declared, and only if there is a set.
  cases joined.value.single with
  | false =>
    have hdeclared : (c.writingFor f).declaredAxis axis false shaped = ⟨shaped, []⟩ := by
      cases shaped <;> rfl
    rw [hdeclared]
    exact agree_bind fun r _ => .made ⟨none, .same axis _⟩
  | true =>
    cases shaped with
    | none => exact agree_bind fun r _ => .made ⟨none, .same axis _⟩
    | some set =>
      have hdeclared : (c.writingFor f).declaredAxis axis true (some set) =
          ⟨some (.identifier (axisSetName axis)), [.set (axisSetName axis) set]⟩ := by
        simp [declaredAxis, hf]
      rw [hdeclared]
      exact (withMeasures_hoists q.block axis _ set joined.declarations).bind
        fun _ _ _ h => .made ⟨some set, h⟩

theorem joinedHierarchies_single {axis : AxisName} {r : Declared Joined}
    (hr : c.joinedHierarchies q location axis = .ok r) (hs : r.value.single = true) :
    axis ≠ .slicer := by
  rcases joinedHierarchies_eq_ok.1 hr with ⟨-, rfl⟩ | ⟨-, ⟨haxis, -⟩ | ⟨-, sets, -, rfl⟩⟩
  · cases hs
  · exact haxis
  · cases hs

/-- The slicer is never declared. -/
theorem slicer_writingFor (f : Option Flavor) : (c.writingFor f).slicer q = c.slicer q := by
  have hshape : (c.writingFor f).shapedAndOrdered = c.shapedAndOrdered := rfl
  rw [slicer, slicer, axisNode, axisNode, joinedHierarchies_writingFor, hshape]
  simp only [withMeasures_writingFor]
  cases hj : c.joinedHierarchies q .filter .slicer with
  | error e => rfl
  | ok joined =>
    have hdeclared : ∀ set, (c.writingFor f).declaredAxis .slicer joined.value.single set =
        c.declaredAxis .slicer joined.value.single set := by
      intro set
      have hsingle : joined.value.single = false :=
        Bool.eq_false_iff.2 fun hsingle => joinedHierarchies_single hj hsingle rfl
      rw [hsingle]
      cases set <;> rfl
    simp only [ok_bind, hdeclared]

end Compiler

/-! ## The declarations of an axis -/

namespace Compiler.Hoists

variable {axis : AxisName} {set : Option Expr} {r r' : Declared (Option AxisNode)}

/-- Without the declaration of the axis, the declarations are the same. -/
theorem filter_declarations (h : Hoists axis set r r') (haxis : axisSetName axis ∈ axisSetNames)
    (hr : NoAxisSets r.declarations) :
    r'.declarations.filter (!·.isAxisSet) = r.declarations := by
  obtain ⟨before, after, hd, hd'⟩ := h.declarations
  rw [hd, noAxisSets_append] at hr
  rw [hd, hd', List.filter_append, List.filter_append, hr.1.filter_eq_self, hr.2.filter_eq_self]
  cases set <;> simp [Declaration.isAxisSet, haxis]

/-- Of the axis names, the declarations define that of the axis only. -/
theorem definitionIn_declarations (h : Hoists axis set r r') (hr : NoAxisSets r.declarations)
    {name : Identifier} (hname : name ∈ axisSetNames) :
    definitionIn r'.declarations name = if axisSetName axis = name then set else none := by
  obtain ⟨before, after, hd, hd'⟩ := h.declarations
  rw [hd, noAxisSets_append] at hr
  rw [hd', definitionIn_append, definitionIn_append, hr.1.definitionIn_eq_none hname,
    hr.2.definitionIn_eq_none hname, Option.none_or, Option.or_none]
  cases set with
  | none => simp [definitionIn, declaredSets]
  | some set =>
    by_cases heq : axisSetName axis = name <;>
      simp [definitionIn, declaredSets, Declaration.set?, List.find?, heq]

end Compiler.Hoists

/-! ## The statements of two servers -/

section
variable {members slicer : List Declaration}
  {columns columns' rows rows' : Declared (Option AxisNode)} {columnSet rowSet : Option Expr}
  (hcolumns : Compiler.Hoists .columns columnSet columns columns')
  (hrows : Compiler.Hoists .rows rowSet rows rows')
  (hfree : NoAxisSets (members ++ columns.declarations ++ rows.declarations ++ slicer))

include hcolumns hrows hfree

theorem filter_of_hoists :
    (members ++ columns'.declarations ++ rows'.declarations ++ slicer).filter (!·.isAxisSet) =
      members ++ columns.declarations ++ rows.declarations ++ slicer := by
  simp only [noAxisSets_append] at hfree
  obtain ⟨⟨⟨hm, hc⟩, hr⟩, hs⟩ := hfree
  simp only [List.filter_append, hm.filter_eq_self, hs.filter_eq_self,
    hcolumns.filter_declarations columns_mem_axisSetNames hc,
    hrows.filter_declarations rows_mem_axisSetNames hr]

theorem definitionIn_of_hoists {name : Identifier} (hname : name ∈ axisSetNames) :
    definitionIn (members ++ columns'.declarations ++ rows'.declarations ++ slicer) name =
      (if Compiler.axisSetName .columns = name then columnSet else none).or
        (if Compiler.axisSetName .rows = name then rowSet else none) := by
  simp only [noAxisSets_append] at hfree
  obtain ⟨⟨⟨hm, hc⟩, hr⟩, hs⟩ := hfree
  simp only [definitionIn_append, hm.definitionIn_eq_none hname, hs.definitionIn_eq_none hname,
    hcolumns.definitionIn_declarations hc hname, hrows.definitionIn_declarations hr hname,
    Option.none_or, Option.or_none]

end

namespace Compiler

variable {source : MemberSource} {options : Options} {q : Query}

/-- Put back, the sets of two declared axes give the statement that declares none. -/
theorem inlined_of_hoists (ho : options.declaresAxes = false) {members : List Declaration}
    {columns columns' rows rows' slicer : Declared (Option AxisNode)}
    {columnSet rowSet : Option Expr} (hcolumns : Hoists .columns columnSet columns columns')
    (hrows : Hoists .rows rowSet rows rows') {s t : Statement}
    (hs : statement { source, options } q = .ok s)
    (hplain : s = {
      declarations := members ++ columns.declarations ++ rows.declarations ++ slicer.declarations
      axes := columns.value.toList ++ rows.value.toList
      cube := q.cube.uniqueName
      slicer := slicer.value })
    (hhoisted : t = { s with
      declarations := members ++ columns'.declarations ++ rows'.declarations ++ slicer.declarations
      axes := columns'.value.toList ++ rows'.value.toList }) :
    t.inlined = s ∧ t.declarations.filter (!·.isAxisSet) = s.declarations ∧
      t.slicer = s.slicer := by
  have hfree : NoAxisSets s.declarations := Statement.noAxisSets ho hs
  subst hplain
  have hkept : t.declarations.filter (!·.isAxisSet) =
      members ++ columns.declarations ++ rows.declarations ++ slicer.declarations := by
    rw [hhoisted]
    exact filter_of_hoists hcolumns hrows hfree
  have hdefined : ∀ name ∈ axisSetNames, t.axisSet? name =
      (if axisSetName .columns = name then columnSet else none).or
        (if axisSetName .rows = name then rowSet else none) := by
    intro name hname
    rw [Statement.axisSet?, if_pos hname, hhoisted]
    exact definitionIn_of_hoists hcolumns hrows hfree hname
  have hne : axisSetName .columns ≠ axisSetName .rows := by decide
  have hcolumnSet : t.axisSet? (axisSetName .columns) = columnSet := by
    rw [hdefined _ columns_mem_axisSetNames, if_pos rfl, if_neg hne.symm, Option.or_none]
  have hrowSet : t.axisSet? (axisSetName .rows) = rowSet := by
    rw [hdefined _ rows_mem_axisSetNames, if_neg hne, if_pos rfl, Option.none_or]
  -- The plain statement has no axis name in it, so putting axis sets back leaves it alone.
  obtain ⟨hreplaced, hnodes⟩ := Statement.replace_eq ho hs
    (f := t.axisSet?) fun id hid => if_neg hid
  have hcolumnsValue := hcolumns.value _ hcolumnSet fun node hnode =>
    hnodes node (.inl (List.mem_append_left _ (Option.mem_toList.2 hnode)))
  have hrowsValue := hrows.value _ hrowSet fun node hnode =>
    hnodes node (.inl (List.mem_append_right _ (Option.mem_toList.2 hnode)))
  have hslicer : slicer.value.map (·.replace t.axisSet?) = slicer.value := by
    cases hv : slicer.value with
    | none => rfl
    | some node => exact congrArg some (hnodes node (.inr hv))
  have hdeclarations : (t.declarations.filter (!·.isAxisSet)).map (·.replace t.axisSet?) =
      members ++ columns.declarations ++ rows.declarations ++ slicer.declarations := by
    rw [hkept]
    exact (List.map_congr_left hreplaced).trans (List.map_id _)
  have haxes : t.axes = columns'.value.toList ++ rows'.value.toList := by rw [hhoisted]
  have hslicerSame : t.slicer = slicer.value := by rw [hhoisted]
  refine ⟨?_, hkept, hslicerSame⟩
  rw [Statement.inlined, hdeclarations, haxes, hslicerSame, hslicer, List.map_append,
    ← Option.toList_map, ← Option.toList_map, hcolumnsValue, hrowsValue, hhoisted]

/-- **Flavors differ by declared axes.** Compile a query once for a server without a flavor or for
Microsoft's, and once for any other. Both fail for the same reason, or both give a statement. Then
the second becomes the first once the sets declared for the columns and the rows are put in the
place of their names: no other declaration, and nothing in the slicer, is different. -/
theorem statement_inlined (ho : options.flavor = none ∨ options.flavor = some .microsoft)
    {f : Flavor} (hf : f ≠ .microsoft) (source : MemberSource) (q : Query) :
    Agree
      (fun s t => t.inlined = s ∧ t.declarations.filter (!·.isAxisSet) = s.declarations ∧
        t.slicer = s.slicer)
      (statement { source, options } q)
      (statement { source, options := { options with flavor := some f } } q) := by
  have hplain : options.declaresAxes = false := by
    rcases ho with ho | ho <;> simp [Options.declaresAxes, ho]
  have hdeclares : { options with flavor := some f : Options }.declaresAxes = true := by
    simpa [Options.declaresAxes] using hf
  let c : Compiler := { source, options }
  show Agree _ (c.statement q) ((c.writingFor (some f)).statement q)
  rw [statement, statement, slicer_writingFor]
  refine agree_bind fun members hm => ?_
  refine (axisNode_hoists (c := c) hplain hdeclares .columns).bind ?_
  rintro columns columns' hcolumns ⟨columnSet, hcolumnSet⟩
  refine (axisNode_hoists (c := c) hplain hdeclares .rows).bind ?_
  rintro rows rows' hrows ⟨rowSet, hrowSet⟩
  refine agree_bind fun slicer hslicer => .made ?_
  refine inlined_of_hoists (q := q) hplain hcolumnSet hrowSet (?_ : c.statement q = _) rfl rfl
  rw [statement, hm, ok_bind, hcolumns, ok_bind, hrows, ok_bind, hslicer]
  rfl

/-- The rows are declared, behind the two sets of their levels. -/
theorem statement_inlined_salesByMonth :
    ∃ s t, statement { source := sales.source } Statement.salesByMonth = .ok s ∧
      statement { source := sales.source, options := { flavor := some .mondrian } }
        Statement.salesByMonth = .ok t ∧
      s.declarations.length = 2 ∧ t.declarations.length = 3 ∧ t.inlined = s := by
  obtain ⟨s, hs, htwo⟩ : ∃ s,
      statement { source := sales.source } Statement.salesByMonth = .ok s ∧
        decide (s.declarations.length = 2) = true :=
    any_toOption_eq_true.1 (by decide +kernel)
  obtain ⟨t, ht, hthree⟩ : ∃ t,
      statement { source := sales.source, options := { flavor := some .mondrian } }
          Statement.salesByMonth = .ok t ∧ decide (t.declarations.length = 3) = true :=
    any_toOption_eq_true.1 (by decide +kernel)
  have hagree := @statement_inlined {} (.inl rfl) .mondrian (by decide) sales.source
    Statement.salesByMonth
  rw [hs, ht] at hagree
  cases hagree with
  | made h => exact ⟨s, t, hs, ht, of_decide_eq_true htwo, of_decide_eq_true hthree, h.1⟩

end Compiler
end CubeQuery
