import CubeQuery.Proofs.NamedApart

/-!
# The declared sets of the result axes

A result axis can be declared as a set under its own name, `[~COLUMNS]` or `[~ROWS]`, which no level
and no hierarchy gives its set (`name_notMem_axisSetNames`). `Statement.inlined` puts such sets back
in the place of their names. A statement that declares no axis has nothing to put back
(`replace_eq`).
-/

namespace CubeQuery

/-! ## Putting axis sets back -/

/-- The names under which result axes are declared. -/
def axisSetNames : List Identifier :=
  [Compiler.axisSetName .columns, Compiler.axisSetName .rows]

theorem columns_mem_axisSetNames : Compiler.axisSetName .columns ∈ axisSetNames :=
  List.mem_cons_self

theorem rows_mem_axisSetNames : Compiler.axisSetName .rows ∈ axisSetNames :=
  List.mem_cons_of_mem _ List.mem_cons_self

/-- The declaration of a result axis. -/
def Declaration.isAxisSet : Declaration → Bool
  | .set name _ => name ∈ axisSetNames
  | .member .. => false

/-- Puts expressions in the place of names in a declaration. -/
def Declaration.replace (f : Identifier → Option Expr) : Declaration → Declaration
  | .set name body => .set name (body.replace f)
  | .member name formula properties =>
    .member name (formula.replace f) (properties.map fun (n, e) => (n, e.replace f))

def AxisNode.replace (f : Identifier → Option Expr) (node : AxisNode) : AxisNode :=
  { node with body := node.body.replace f }

namespace Statement

/-- The set declared for a result axis, by its name. -/
def axisSet? (s : Statement) (name : Identifier) : Option Expr :=
  if name ∈ axisSetNames then s.definition? name else none

/-- The statement with the sets of the result axes in the place of their names. -/
def inlined (s : Statement) : Statement where
  declarations := (s.declarations.filter (!·.isAxisSet)).map (·.replace s.axisSet?)
  axes := s.axes.map (·.replace s.axisSet?)
  cube := s.cube
  slicer := s.slicer.map (·.replace s.axisSet?)

end Statement

/-- The identifiers in the expressions of a declaration. -/
def Declaration.identifiers : Declaration → List Identifier
  | .set _ body => body.identifiers
  | .member _ formula properties =>
    formula.identifiers ++ properties.flatMap fun (_, e) => e.identifiers

theorem Declaration.replace_eq_self {f : Identifier → Option Expr} {d : Declaration}
    (h : ∀ id ∈ d.identifiers, f id = none) : d.replace f = d := by
  cases d with
  | set name body => rw [replace, Expr.replace_eq_self h]
  | member name formula properties =>
    obtain ⟨hformula, hproperties⟩ := List.forall_mem_append.1 h
    have hmap : properties.map (fun (n, e) => (n, e.replace f)) = properties := by
      refine (List.map_congr_left fun (n, e) hp => ?_).trans (List.map_id properties)
      have he := Expr.replace_eq_self fun id hid =>
        hproperties id (List.mem_flatMap.2 ⟨(n, e), hp, hid⟩)
      exact congrArg (n, ·) he
    rw [replace, Expr.replace_eq_self hformula, hmap]

/-! ## Declarations without those of the axes -/

/-- No axis is declared here. -/
def NoAxisSets (ds : List Declaration) : Prop := ∀ d ∈ ds, d.isAxisSet = false

theorem noAxisSets_append {ds es : List Declaration} :
    NoAxisSets (ds ++ es) ↔ NoAxisSets ds ∧ NoAxisSets es := List.forall_mem_append

/-- The first definition of a name in some declarations. -/
def definitionIn (ds : List Declaration) (name : Identifier) : Option Expr :=
  ((declaredSets ds).find? (·.1 = name)).map (·.2)

theorem definitionIn_append (ds es : List Declaration) (name : Identifier) :
    definitionIn (ds ++ es) name = (definitionIn ds name).or (definitionIn es name) := by
  rw [definitionIn, declaredSets_append, List.find?_append, Option.map_or]
  rfl

namespace NoAxisSets

variable {ds : List Declaration} (h : NoAxisSets ds)

include h

theorem definitionIn_eq_none {name : Identifier} (hname : name ∈ axisSetNames) :
    definitionIn ds name = none := by
  refine Option.map_eq_none_iff.2 (List.find?_eq_none.2 ?_)
  rintro ⟨name', body⟩ hmem heq
  obtain ⟨d, hd, hset⟩ := List.mem_filterMap.1 hmem
  obtain rfl : name' = name := by simpa using heq
  cases d with
  | member => cases hset
  | set =>
    cases hset
    exact of_decide_eq_false (h _ hd) hname

theorem filter_eq_self : ds.filter (!·.isAxisSet) = ds := by
  refine List.filter_eq_self.2 fun d hd => ?_
  rw [h d hd]
  rfl

end NoAxisSets

/-! ## Statements without declared axes -/

namespace SetOrigin

/-- Only the name of an axis's set is one of the axis names: all others hold an underscore. -/
theorem name_notMem_axisSetNames {o : SetOrigin} (h : ∀ a, o ≠ axis a) :
    o.name ∉ axisSetNames := by
  have hunderscore : '_' ∈ ("_".intercalate o.parts).toList := by
    rw [String.toList_intercalate]
    cases o with
    | level d h l => simp [parts]
    | operand a d h => simp [parts]
    | axis a => exact absurd rfl (h a)
  have hne : ∀ a : AxisName, o.name ≠ Compiler.axisSetName a := by
    intro a heq
    have hname : o.name = (axis a).name := heq
    rw [name_eq_iff.1 hname] at hunderscore
    cases a <;> exact absurd hunderscore (by decide)
  simp [axisSetNames, hne]

end SetOrigin

theorem Query.setOrigins_ne_axis {q : Query} {options : Options}
    (hoptions : options.declaresAxes = false) {o : SetOrigin} (ho : o ∈ q.setOrigins options)
    (a : AxisName) : o ≠ .axis a := by
  obtain ⟨l, axis, ho⟩ := mem_setOrigins ho
  rcases mem_axisOrigins ho with ⟨hdeclares, -⟩ | ⟨s, -, hs⟩
  · rw [hoptions] at hdeclares
    cases hdeclares
  · rintro rfl
    cases operandOrigins_key hs

/-- A declared set, or a member whose formula and properties refer to nothing. -/
def Declaration.Bare (d : Declaration) : Prop := d.set? = none → d.identifiers = []

theorem bare_set (name : Identifier) (body : Expr) : (Declaration.set name body).Bare :=
  fun h => by cases h

namespace Compiler

section
variable {c : Compiler} (hc : c.ReadsNoNames) {q : Query} {location : Location}

theorem levelSetsFrom_bare {parameters : Parameters} {h : HierarchySelection} {k : Linkage}
    {ls : List LevelSelection} :
    ∀ {i : Nat} {reference : Option Expr} {r : Declared (List Expr)},
      c.levelSetsFrom parameters h k i reference ls = .ok r → ∀ d ∈ r.declarations, d.Bare := by
  induction ls with
  | nil =>
    intro i reference r hr
    cases hr
    exact List.forall_mem_nil _
  | cons l ls ih =>
    intro i reference r hr
    obtain ⟨own, -, others, ⟨-, hothers, rfl⟩ | ⟨-, hothers, rfl⟩⟩ :=
      levelSetsFrom_cons_eq_ok.1 hr
    · exact List.forall_mem_cons.2 ⟨bare_set _ _, ih hothers⟩
    · have hrest := ih hothers
      exact hrest

include hc in
theorem declareMember_bare {d : Declaration} (h : c.DeclaresMember d) : d.Bare := by
  obtain ⟨_, _, _, h⟩ := h
  obtain ⟨id, -, body, hb, rfl⟩ := declareMember_eq_ok.1 h
  have hbody : body.identifiers = [] := Reads.expr (P := (·.identifiers = [])) hc hb
  intro _
  simp [Declaration.identifiers, hbody, List.flatMap_map]

include hc in
theorem compositional_bare : c.Compositional fun _ ds => ∀ d ∈ ds, d.Bare where
  nil := List.forall_mem_nil _
  append h h' := List.forall_mem_append.2 ⟨h, h'⟩
  declare _ h := List.forall_mem_append.2 ⟨h, List.forall_mem_singleton.2 (bare_set _ _)⟩
  make h _ := h
  member h := List.forall_mem_singleton.2 (declareMember_bare hc h)
  levels hr := levelSetsFrom_bare hr

end
end Compiler

namespace Statement

variable {source : MemberSource} {options : Options} {q : Query} {s : Statement}

theorem bare (hs : Compiler.statement { source, options } q = .ok s) :
    ∀ d ∈ s.declarations, d.Bare := by
  have hc : Compiler.ReadsNoNames { source, options } :=
    fun _ _ he => Compiler.identifiers_fragment he
  exact (Compiler.compositional_bare hc).statement hs

theorem mem_sets {name : Identifier} {body : Expr} (h : .set name body ∈ s.declarations) :
    (name, body) ∈ s.sets :=
  List.mem_filterMap.2 ⟨_, h, rfl⟩

/-- Without declared axes no name in the statement is that of an axis. -/
theorem names_notMem_axisSetNames (ho : options.declaresAxes = false)
    (hs : Compiler.statement { source, options } q = .ok s) :
    ∀ id ∈ setNames s.sets, id ∉ axisSetNames := by
  rw [Compiler.statement_names hs]
  intro id hid
  obtain ⟨o, horigin, rfl⟩ := List.mem_map.1 hid
  exact SetOrigin.name_notMem_axisSetNames (Query.setOrigins_ne_axis ho horigin)

theorem noAxisSets (ho : options.declaresAxes = false)
    (hs : Compiler.statement { source, options } q = .ok s) : NoAxisSets s.declarations := by
  intro d hd
  cases d with
  | member => rfl
  | set name body =>
    have hname : name ∈ setNames s.sets := List.mem_map_of_mem (mem_sets hd)
    exact decide_eq_false (names_notMem_axisSetNames ho hs name hname)

/-- A replacement of axis names alone leaves such a statement as it is. -/
theorem replace_eq (ho : options.declaresAxes = false)
    (hs : Compiler.statement { source, options } q = .ok s) {f : Identifier → Option Expr}
    (hf : ∀ id, id ∉ axisSetNames → f id = none) :
    (∀ d ∈ s.declarations, d.replace f = d) ∧
      ∀ node, node ∈ s.axes ∨ node ∈ s.slicer → node.replace f = node := by
  have hbody : ∀ e ∈ s.bodies, ∀ id ∈ e.identifiers, f id = none := fun e he id hid =>
    hf id (names_notMem_axisSetNames ho hs id (closed hs he hid))
  constructor
  · intro d hd
    refine Declaration.replace_eq_self ?_
    cases d with
    | member =>
      rw [bare hs _ hd rfl]
      exact List.forall_mem_nil _
    | set name body =>
      exact hbody body (List.mem_append_right _ (List.mem_map_of_mem (mem_sets hd)))
  · intro node hnode
    have hmem : node.body ∈ s.bodies := by
      refine List.mem_append_left _ (List.mem_append.2 (hnode.imp ?_ fun hslicer => ?_))
      · exact fun haxis => List.mem_map_of_mem haxis
      · rw [Option.mem_def.1 hslicer]
        exact List.mem_singleton_self _
    rw [AxisNode.replace, Expr.replace_eq_self (hbody _ hmem)]

end Statement
end CubeQuery
