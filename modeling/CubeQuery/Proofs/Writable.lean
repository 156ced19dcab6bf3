import CubeQuery.Expr.Writable
import CubeQuery.Proofs.Assembly
import CubeQuery.Proofs.Closure

/-!
# Statements can be written

An operation needs two operands and a property or a method needs a target. Where every call in an
expression has them, the expression can be written (`Expr.inherited_writable`). Compilation puts
only such calls around what it has read, so every statement that compiles can be written, as long as
the reader gives nothing that cannot (`Statement.statements_written`).
-/

namespace CubeQuery

/-- Calls with all the operands and targets they need can be written if their arguments can. -/
theorem Expr.inherited_writable : Expr.Inherited Expr.Writable where
  member name := writable_member name
  level name := writable_level name
  hierarchy name := writable_hierarchy name
  literal value := writable_literal value
  function name args h := (writable_function name args).2 h
  set h := (writable_set _).2 h
  property name h := (writable_property _ name).2 h
  operation op operands hl h := (writable_operation op operands).2 ⟨hl, h⟩

namespace Declaration

/-- The declaration has a written form. -/
def Writable (d : Declaration) : Prop := ∃ text, d.emit = .ok text

theorem emitProperties_eq_ok {properties : List (String × Expr)}
    (h : ∀ p ∈ properties, p.2.Writable) : ∃ text, emitProperties properties = .ok text := by
  induction properties with
  | nil => exact ⟨"", by rw [emitProperties, pure_eq_ok]⟩
  | cons p properties ih =>
    obtain ⟨⟨value, hvalue⟩, hrest⟩ := List.forall_mem_cons.1 h
    obtain ⟨rest, hrest⟩ := ih hrest
    rw [emitProperties, hvalue, ok_bind, hrest]
    exact ⟨_, rfl⟩

theorem writable_set {name : Identifier} {body : Expr} (h : body.Writable) :
    (set name body).Writable := by
  obtain ⟨text, h⟩ := h
  rw [Writable, emit, h]
  exact ⟨_, rfl⟩

theorem writable_member {name : Identifier} {formula : Expr} {properties : List (String × Expr)}
    (hf : formula.Writable) (hp : ∀ p ∈ properties, p.2.Writable) :
    (member name formula properties).Writable := by
  obtain ⟨text, hf⟩ := hf
  obtain ⟨rest, hp⟩ := emitProperties_eq_ok hp
  rw [Writable, emit, hf, ok_bind, hp]
  exact ⟨_, rfl⟩

end Declaration

namespace Compiler

/-- Whatever this compiler reads can be written. -/
def ReadsWritable (c : Compiler) : Prop := ∀ text e, c.read text = .ok e → e.Writable

theorem writable_fragment {text : String} {e : Expr} (h : Expr.fragment text = .ok e) :
    e.Writable := by
  obtain ⟨body, rfl⟩ := Expr.exists_of_fragment h
  exact Expr.writable_raw body

/-! ### Parts -/

/-- A part of a statement that can be written: the expressions it consists of and the declarations
it needs. -/
structure Written (es : List Expr) (ds : List Declaration) : Prop where
  bodies : ∀ e ∈ es, e.Writable
  declarations : ∀ d ∈ ds, d.Writable

theorem written_nil {es : List Expr} (h : ∀ e ∈ es, e.Writable) : Written es [] :=
  ⟨h, List.forall_mem_nil _⟩

theorem Written.append {es es' : List Expr} {ds ds' : List Declaration} (h : Written es ds)
    (h' : Written es' ds') : Written (es ++ es') (ds ++ ds') :=
  ⟨List.forall_mem_append.2 ⟨h.bodies, h'.bodies⟩,
    List.forall_mem_append.2 ⟨h.declarations, h'.declarations⟩⟩

/-- A set that is declared behind what it needs, and stands under its name. -/
theorem Written.declare {e : Expr} {ds : List Declaration} (h : Written [e] ds)
    (name : Identifier) : Written [.identifier name] (ds ++ [.set name e]) :=
  ⟨List.forall_mem_singleton.2 (Expr.writable_identifier name),
    List.forall_mem_append.2 ⟨h.declarations, List.forall_mem_singleton.2
      (Declaration.writable_set (h.bodies e List.mem_cons_self))⟩⟩

/-- Whatever is made of the expressions can be written if they can. -/
theorem Written.make {es es' : List Expr} {ds : List Declaration} (h : Written es ds)
    (hes : (∀ e ∈ es, e.Writable) → ∀ e ∈ es', e.Writable) : Written es' ds :=
  ⟨hes h.bodies, h.declarations⟩

section
variable {c : Compiler} (hc : c.ReadsWritable)

include hc in
theorem levelSets_written {parameters : Parameters} {h : HierarchySelection}
    {r : Declared (List Expr)} (hr : c.levelSets parameters h = .ok r) :
    Written r.value r.declarations := by
  have hbears := Expr.inherited_writable.toCarried.levelSets Expr.writable_identifier
    (fun l _ e he => Expr.inherited_writable.levelSet hc he) hr
  refine ⟨hbears.values, fun d hd => ?_⟩
  obtain ⟨name, body, rfl, hbody⟩ := hbears.declared d hd
  exact Declaration.writable_set hbody

include hc in
theorem writable_declareMember {d : Declaration} (h : c.DeclaresMember d) : d.Writable := by
  obtain ⟨_, _, properties, h⟩ := h
  obtain ⟨id, -, body, hb, rfl⟩ := declareMember_eq_ok.1 h
  refine Declaration.writable_member (Reads.expr hc hb) (List.forall_mem_map.2 ?_)
  exact fun p _ => Expr.writable_text p.2

include hc in
theorem compositional_written : c.Compositional Written where
  nil := written_nil (List.forall_mem_nil _)
  append h h' := h.append h'
  declare name h := h.declare name
  make h hes := h.make (hes _ Expr.inherited_writable hc)
  member h := ⟨List.forall_mem_nil _, List.forall_mem_singleton.2 (writable_declareMember hc h)⟩
  levels hr := levelSets_written hc hr

end
end Compiler

namespace Statement

/-- A statement can be written if its sets and its declarations can. -/
theorem emit_eq_ok {s : Statement}
    (h : Compiler.Written ((s.axes ++ s.slicer.toList).map (·.body)) s.declarations) :
    ∃ text, s.emit = .ok text := by
  have hbody : ∀ node ∈ s.axes ++ s.slicer.toList, node.body.Writable := fun node hnode =>
    h.bodies _ (List.mem_map_of_mem hnode)
  obtain ⟨haxes, hslicer⟩ := List.forall_mem_append.1 hbody
  obtain ⟨declarations, hdeclarations⟩ := mapM_succeeds h.declarations
  obtain ⟨axes, haxes⟩ : ∃ axes, s.axes.mapM AxisNode.emit = .ok axes := by
    refine mapM_succeeds fun node hnode => ?_
    obtain ⟨text, htext⟩ := haxes node hnode
    rw [AxisNode.emit, htext]
    exact ⟨_, rfl⟩
  obtain ⟨slicer, hslicer⟩ : ∃ slicer, s.slicer.mapM (·.body.emit) = .ok slicer := by
    cases hs : s.slicer with
    | none => exact ⟨none, rfl⟩
    | some node =>
      obtain ⟨text, htext⟩ := hslicer node (by simp [hs])
      exact ⟨some text, by rw [Option.mapM_some, htext]; rfl⟩
  rw [emit, hdeclarations, ok_bind, haxes, ok_bind, hslicer]
  exact ⟨_, rfl⟩

theorem emits {c : Compiler} (hc : c.ReadsWritable) {q : Query} {s : Statement}
    (hs : c.statement q = .ok s) : ∃ text, s.emit = .ok text :=
  emit_eq_ok ((Compiler.compositional_written hc).statement hs)

/-- **Statements can be written.** Whatever the query, the options and the source of members: if
the reader gives only expressions that can be written, every statement that compiles can be
written too. The reader that keeps fragments is such a reader, so the text of a query never fails
for want of a written form. -/
theorem statements_written :
    (∀ c : Compiler, c.ReadsWritable → ∀ (q : Query) (s : Statement), c.statement q = .ok s →
      ∃ text, s.emit = .ok text) ∧
    (∀ c : Compiler, c.read = Expr.fragment → c.ReadsWritable) ∧
    ∀ (q : Query) (options : Options) (e : Expr.EmitError), q.text options ≠ .error (.emit e) := by
  have hfragment : ∀ c : Compiler, c.read = Expr.fragment → c.ReadsWritable :=
    fun c hc text e he => Compiler.writable_fragment (by rwa [hc] at he)
  refine ⟨fun c hc q s hs => emits hc hs, hfragment, fun q options e => ?_⟩
  unfold Query.text
  cases hs : q.statement options with
  | error failure => simp [Except.mapError]
  | ok s =>
    obtain ⟨text, htext⟩ := emits (hfragment _ rfl) hs
    simp [Except.mapError, htext]

/-- The months of one year with large sales, and the countries, in a join on rows. -/
def largeSales : Query :=
  salesByMonth.afterAll [
    .hierarchy "Time"
      (.level "Month" (.shape (.addFilter (.predicate "[Measures].[Sales] > 100")))),
    .move "Store" .rows none, .hierarchy "Store" (.includeLevel "Country")]

/-- A reader that adds one to what it reads. -/
def addsOne : Expr.Reader := fun text => do
  return .operation "+" [← Expr.fragment text, .number 1]

theorem statements_written_largeSales :
    Compiler.ReadsWritable { source := sales.source, read := addsOne } ∧
      ∃ s, Compiler.statement { source := sales.source, read := addsOne } largeSales = .ok s ∧
        s.declarations.length = 4 ∧ ∃ text, s.emit = .ok text := by
  have hreader : Compiler.ReadsWritable { source := sales.source, read := addsOne } := by
    intro text e he
    obtain ⟨body, hbody, he⟩ := bind_eq_ok.1 he
    cases he
    simp [Compiler.writable_fragment hbody]
  obtain ⟨s, hs, hlength⟩ :
      ∃ s, Compiler.statement { source := sales.source, read := addsOne } largeSales = .ok s ∧
        decide (s.declarations.length = 4) = true :=
    any_toOption_eq_true.1 (by decide +kernel)
  exact ⟨hreader, s, hs, of_decide_eq_true hlength, statements_written.1 _ hreader _ s hs⟩

end Statement
end CubeQuery
