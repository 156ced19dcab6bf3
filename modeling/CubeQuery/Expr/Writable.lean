import CubeQuery.Expr.Emit
import CubeQuery.Outcome

/-!
# Expressions that can be written

An operation needs two operands, and a property or a method a target. Calls that have what they
need are written if their arguments are.
-/

namespace CubeQuery.Expr

/-- The expression has a written form. -/
def Writable (e : Expr) : Prop := ∃ text, e.emit = .ok text

theorem emitAll_eq_ok_iff {es : List Expr} :
    (∃ parts, emitAll es = .ok parts) ↔ ∀ e ∈ es, e.Writable := by
  induction es with
  | nil => simp [emitAll]
  | cons e es ih =>
    rw [List.forall_mem_cons, ← ih]
    simp only [emitAll, bind_eq_ok, pure_eq_ok, Except.ok.injEq]
    constructor
    · rintro ⟨_, text, he, parts, hes, -⟩
      exact ⟨⟨text, he⟩, parts, hes⟩
    · rintro ⟨⟨text, he⟩, parts, hes⟩
      exact ⟨text :: parts, text, he, parts, hes, rfl⟩

theorem emitOperands_eq_ok_iff (op : String) (isFirst : Bool) {es : List Expr} :
    (∃ parts, emitOperands op isFirst es = .ok parts) ↔ ∀ e ∈ es, e.Writable := by
  induction es generalizing isFirst with
  | nil => simp [emitOperands]
  | cons e es ih =>
    rw [List.forall_mem_cons, ← ih false]
    simp only [emitOperands, bind_eq_ok, pure_eq_ok, Except.ok.injEq]
    constructor
    · rintro ⟨_, text, he, parts, hes, -⟩
      exact ⟨⟨text, he⟩, parts, hes⟩
    · rintro ⟨⟨text, he⟩, parts, hes⟩
      exact ⟨_, text, he, parts, hes, rfl⟩

@[simp] theorem writable_identifier (id : Identifier) : (identifier id).Writable :=
  ⟨id.quoted, rfl⟩

@[simp] theorem writable_member (name : String) : (member name).Writable :=
  ⟨name, rfl⟩

@[simp] theorem writable_level (name : String) : (level name).Writable :=
  ⟨name, rfl⟩

@[simp] theorem writable_hierarchy (name : String) : (hierarchy name).Writable :=
  ⟨name, rfl⟩

@[simp] theorem writable_literal (value : Literal) : (literal value).Writable :=
  ⟨emitLiteral value, rfl⟩

@[simp] theorem writable_raw (text : String) : (raw text).Writable :=
  ⟨text, rfl⟩

@[simp] theorem writable_text (value : String) : (text value).Writable := writable_literal _

@[simp] theorem writable_number (value : Int) : (number value).Writable := writable_literal _

@[simp] theorem writable_function (name : String) (args : List Expr) :
    (function name args).Writable ↔ ∀ e ∈ args, e.Writable := by
  rw [← emitAll_eq_ok_iff, Writable, function, emit, exists_bind_pure_eq_ok]

@[simp] theorem writable_set (items : List Expr) :
    (set items).Writable ↔ ∀ e ∈ items, e.Writable := by
  rw [← emitAll_eq_ok_iff, Writable, set, emit, exists_bind_pure_eq_ok]

@[simp] theorem writable_property (target : Expr) (name : String) :
    (property target name).Writable ↔ target.Writable := by
  rw [Writable, property, emit, exists_bind_pure_eq_ok, Writable]

/-- An operation is written if it has two operands and all of them can be written. -/
@[simp] theorem writable_operation (op : String) (operands : List Expr) :
    (operation op operands).Writable ↔ 2 ≤ operands.length ∧ ∀ e ∈ operands, e.Writable := by
  rw [← emitOperands_eq_ok_iff (Text.trimmed op) true, Writable, operation, emit]
  by_cases h : operands.length < 2
  · have h' : ¬2 ≤ operands.length := Nat.not_le.2 h
    simp [h, h']
  · simp only [h, Nat.not_lt.1 h, if_false, true_and]
    exact exists_bind_pure_eq_ok

end CubeQuery.Expr
