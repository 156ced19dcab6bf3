import CubeQuery.Expr

/-!
# References inside expressions

The identifiers that an expression refers to, and their replacement by other expressions. Text
that was kept as a fragment refers to nothing.
-/

namespace CubeQuery.Expr

mutual

/-- The identifiers in an expression, in writing order. -/
def identifiers : Expr → List Identifier
  | .call _ _ args => identifiersOf args
  | .identifier id => [id]
  | .member _ | .level _ | .hierarchy _ | .literal _ | .raw _ => []

/-- The identifiers in the expressions of a list. -/
def identifiersOf : List Expr → List Identifier
  | [] => []
  | e :: es => identifiers e ++ identifiersOf es

end

mutual

/-- Puts an expression in the place of each identifier that has one. -/
def replace (f : Identifier → Option Expr) : Expr → Expr
  | .call name form args => .call name form (replaceAll f args)
  | .identifier id => (f id).getD (.identifier id)
  | .member name => .member name
  | .level name => .level name
  | .hierarchy name => .hierarchy name
  | .literal value => .literal value
  | .raw text => .raw text

def replaceAll (f : Identifier → Option Expr) : List Expr → List Expr
  | [] => []
  | e :: es => replace f e :: replaceAll f es

end

/-! ## The identifiers of calls -/

theorem identifiersOf_eq (es : List Expr) : identifiersOf es = es.flatMap identifiers := by
  induction es with
  | nil => simp [identifiersOf]
  | cons e es ih => simp [identifiersOf, ih]

theorem mem_identifiersOf {es : List Expr} {id : Identifier} :
    id ∈ identifiersOf es ↔ ∃ e ∈ es, id ∈ e.identifiers := by
  rw [identifiersOf_eq, List.mem_flatMap]

theorem identifiersOf_subset {es : List Expr} {known : List Identifier} :
    identifiersOf es ⊆ known ↔ ∀ e ∈ es, e.identifiers ⊆ known := by
  constructor
  · exact fun h e he id hid => h (mem_identifiersOf.2 ⟨e, he, hid⟩)
  · intro h id hid
    obtain ⟨e, he, hid⟩ := mem_identifiersOf.1 hid
    exact h e he hid

@[simp] theorem identifiers_call (name : String) (form : Form) (args : List Expr) :
    (call name form args).identifiers = identifiersOf args := rfl

@[simp] theorem identifiers_identifier (id : Identifier) :
    (Expr.identifier id).identifiers = [id] := rfl

@[simp] theorem identifiers_member (name : String) : (member name).identifiers = [] := rfl

@[simp] theorem identifiers_level (name : String) : (level name).identifiers = [] := rfl

@[simp] theorem identifiers_hierarchy (name : String) : (hierarchy name).identifiers = [] := rfl

@[simp] theorem identifiers_literal (value : Literal) : (literal value).identifiers = [] := rfl

@[simp] theorem identifiers_raw (text : String) : (raw text).identifiers = [] := rfl

@[simp] theorem identifiersOf_nil : identifiersOf [] = [] := rfl

@[simp] theorem identifiersOf_cons (e : Expr) (es : List Expr) :
    identifiersOf (e :: es) = e.identifiers ++ identifiersOf es := rfl

theorem identifiersOf_append (es fs : List Expr) :
    identifiersOf (es ++ fs) = identifiersOf es ++ identifiersOf fs := by
  rw [identifiersOf_eq, identifiersOf_eq, identifiersOf_eq, List.flatMap_append]

@[simp] theorem identifiers_function (name : String) (args : List Expr) :
    (function name args).identifiers = identifiersOf args := identifiers_call _ _ _

@[simp] theorem identifiers_property (target : Expr) (name : String) :
    (property target name).identifiers = target.identifiers := by
  simp [property]

@[simp] theorem identifiers_set (items : List Expr) :
    (set items).identifiers = identifiersOf items := identifiers_call _ _ _

@[simp] theorem identifiers_operation (op : String) (operands : List Expr) :
    (operation op operands).identifiers = identifiersOf operands := identifiers_call _ _ _

@[simp] theorem identifiers_text (value : String) : (text value).identifiers = [] :=
  identifiers_literal _

/-! ## The identifiers after a replacement -/

/-- What stands for an identifier after a replacement. -/
def successors (f : Identifier → Option Expr) (id : Identifier) : List Identifier :=
  ((f id).getD (.identifier id)).identifiers

mutual

theorem identifiers_replace (f : Identifier → Option Expr) (e : Expr) :
    (e.replace f).identifiers = e.identifiers.flatMap (successors f) := by
  cases e with
  | call name form args =>
    rw [replace, identifiers_call, identifiers_call]
    exact identifiersOf_replaceAll f args
  | identifier id => simp [replace, successors]
  | member | level | hierarchy | literal | raw => simp [replace]

theorem identifiersOf_replaceAll (f : Identifier → Option Expr) (es : List Expr) :
    identifiersOf (replaceAll f es) = (identifiersOf es).flatMap (successors f) := by
  cases es with
  | nil => simp [replaceAll]
  | cons e es =>
    rw [replaceAll, identifiersOf_cons, identifiersOf_cons, List.flatMap_append,
      identifiers_replace f e, identifiersOf_replaceAll f es]

end

mutual

/-- Where no identifier has an expression, a replacement changes nothing. -/
theorem replace_eq_self {f : Identifier → Option Expr} {e : Expr}
    (h : ∀ id ∈ e.identifiers, f id = none) : e.replace f = e := by
  cases e with
  | call name form args =>
    rw [identifiers_call] at h
    rw [replace, replaceAll_eq_self h]
  | identifier id =>
    have hid : f id = none := h id (by simp)
    rw [replace, hid]
    rfl
  | member | level | hierarchy | literal | raw => rw [replace]

theorem replaceAll_eq_self {f : Identifier → Option Expr} {es : List Expr}
    (h : ∀ id ∈ identifiersOf es, f id = none) : replaceAll f es = es := by
  cases es with
  | nil => rw [replaceAll]
  | cons e es =>
    rw [identifiersOf_cons, List.forall_mem_append] at h
    rw [replaceAll, replace_eq_self h.1, replaceAll_eq_self h.2]

end

end CubeQuery.Expr
