import CubeQuery.Expr.Emit
import CubeQuery.Outcome

/-!
# How writing an expression fails

An operation needs two operands, a property and a method a target. A call is checked for that before
anything below it is written, and what is below is written from left to right. So an expression
fails with the first call in its pre-order that lacks something, and with nothing else
(`emission_fails`). A property writes its target and no other argument: what stands in those
does not matter.
-/

namespace CubeQuery.Expr

/-! ## Nodes -/

/-- The arguments of a call that are written. A property shows its target only. -/
def shown (form : Form) (args : List Expr) : List Expr :=
  if form = .property then args.take 1 else args

mutual

/-- The nodes of an expression as far as they are written, each before those below it. -/
def nodes : Expr → List Expr
  | .call name form args => .call name form args :: nodesOf form args
  | .identifier id => [.identifier id]
  | .member name => [.member name]
  | .level name => [.level name]
  | .hierarchy name => [.hierarchy name]
  | .literal value => [.literal value]
  | .raw text => [.raw text]

/-- The nodes of the arguments of a call, from left to right. -/
def nodesOf (form : Form) : List Expr → List Expr
  | [] => []
  | e :: es => nodes e ++ if form = .property then [] else nodesOf form es

end

/-- The call lacks its target or an operand, and is refused with the error. -/
inductive Lacks : Expr → EmitError → Prop where
  | propertyTarget (name : String) : Lacks (.call name .property []) (.propertyWithoutTarget name)
  | methodTarget (name : String) : Lacks (.call name .method []) (.methodWithoutTarget name)
  | operands (name : String) {args : List Expr} (h : args.length < 2) :
    Lacks (.call name .infixOp args) (.tooFewOperands (Text.trimmed name) args.length)

/-- What a node lacks, whatever is below it. -/
def lack? : Expr → Option EmitError
  | .call name .property [] => some (.propertyWithoutTarget name)
  | .call name .method [] => some (.methodWithoutTarget name)
  | .call name .infixOp args =>
    if args.length < 2 then some (.tooFewOperands (Text.trimmed name) args.length) else none
  | _ => none

theorem lack?_eq_some {e : Expr} {err : EmitError} : e.lack? = some err ↔ e.Lacks err := by
  constructor
  · intro h
    unfold lack? at h
    split at h
    · cases h
      exact .propertyTarget _
    · cases h
      exact .methodTarget _
    · split at h
      · next hfew =>
        cases h
        exact .operands _ hfew
      · cases h
    · cases h
  · intro h
    cases h with
    | propertyTarget name => rfl
    | methodTarget name => rfl
    | operands name h => rw [lack?, if_pos h]

/-! ## Failures -/

theorem failure?_emitAll (es : List Expr) :
    failure? (emitAll es) = es.findSome? fun e => failure? e.emit := by
  induction es with
  | nil => rfl
  | cons e es ih =>
    rw [emitAll, failure?_bind fun _ _ => failure?_bind_ok fun _ _ => rfl, ih, findSome?_cons_or]

/-- Parentheses make no difference. -/
theorem failure?_emitOperands (op : String) (isFirst : Bool) (es : List Expr) :
    failure? (emitOperands op isFirst es) = es.findSome? fun e => failure? e.emit := by
  induction es generalizing isFirst with
  | nil => rfl
  | cons e es ih =>
    rw [emitOperands, failure?_bind fun _ _ => failure?_bind_ok fun _ _ => rfl, ih,
      findSome?_cons_or]

/-- A call fails by itself before anything below it does. -/
theorem failure?_call (name : String) (form : Form) (args : List Expr) :
    failure? (call name form args).emit =
      (call name form args).lack?.or ((shown form args).findSome? fun e => failure? e.emit) := by
  cases form with
  | function | braces | parentheses =>
    rw [emit, failure?_bind_ok fun _ _ => rfl, failure?_emitAll]
    rfl
  | property =>
    cases args with
    | nil => rfl
    | cons target args =>
      rw [emit, failure?_bind_ok fun _ _ => rfl]
      exact List.findSome?_singleton.symm
  | method =>
    cases args with
    | nil => rfl
    | cons target args =>
      rw [emit, failure?_bind fun _ _ => failure?_bind_ok fun _ _ => rfl, failure?_emitAll]
      exact (findSome?_cons_or (fun e => failure? e.emit) target args).symm
  | infixOp =>
    rw [emit, lack?]
    split
    · rfl
    · exact (failure?_bind_ok fun _ _ => rfl).trans (failure?_emitOperands _ true args)

mutual

theorem failure?_emit (e : Expr) : failure? e.emit = e.nodes.findSome? lack? := by
  cases e with
  | call name form args =>
    rw [failure?_call, nodes, findSome?_cons_or, failure?_shown form args]
  | identifier | member | level | hierarchy | literal | raw => rfl

theorem failure?_shown (form : Form) (args : List Expr) :
    ((shown form args).findSome? fun e => failure? e.emit) =
      (nodesOf form args).findSome? lack? := by
  cases args with
  | nil => simp [shown, nodesOf]
  | cons e es =>
    have he := failure?_emit e
    have hes := failure?_shown form es
    rw [nodesOf, List.findSome?_append, ← he]
    by_cases hform : form = .property
    · rw [shown, if_pos hform, if_pos hform]
      exact findSome?_cons_or _ e []
    · rw [shown, if_neg hform] at hes ⊢
      rw [if_neg hform, ← hes, findSome?_cons_or]

end

/-- **Failures.** An expression cannot be written exactly if, as far as it is written, some call
lacks its target or an operand. The error is that of the first such call, where each call comes
before those below it and the arguments of a call come from left to right. -/
theorem emission_fails (e : Expr) :
    ((∃ err, e.emit = .error err) ↔ ∃ node ∈ e.nodes, ∃ err, node.Lacks err) ∧
      ∀ err, e.emit = .error err ↔
        ∃ before node behind, e.nodes = before ++ node :: behind ∧ node.Lacks err ∧
          ∀ other ∈ before, ¬∃ err', other.Lacks err' := by
  simp only [← failure?_eq_some, failure?_emit, ← lack?_eq_some, ← Option.isSome_iff_exists,
    Option.not_isSome_iff_eq_none]
  exact ⟨List.findSome?_isSome_iff, fun err => List.findSome?_eq_some_iff⟩

/-- The operation is complete and so is the property in front, as far as it is written. -/
example : emit (.call "*" .infixOp [.call "Name" .property [.raw "a", .call "Lag" .method []],
      .call "f" .function [.call "Lag" .method [], .call "+" .infixOp [.raw "b"]]]) =
    .error (.methodWithoutTarget "Lag") := rfl

end CubeQuery.Expr
