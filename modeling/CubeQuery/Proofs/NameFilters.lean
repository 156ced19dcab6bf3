import CubeQuery.Proofs.Operations
import CubeQuery.SetFilter

/-!
# Filters by name

A name filter compares the name of the current member with each of its values, and joins the
comparisons by `OR`, nested to the left. Nothing binds less tightly than `OR`, and comparisons bind
more tightly, so the whole is written without parentheses (`emit_anyOf`). Each value stands in a
string literal, where quotes are doubled, and reads back from there (`literalValue?_emitLiteral`).

`names_filtered` says what the filter makes of a set: how its predicate is written, and of which
names it holds. What it holds of is told from the words it is written with, so a value that did not
read back would be compared as another one.
-/

namespace CubeQuery

namespace Expr

/-! ## String literals -/

/-- The value of a string literal in writing, its doubled quotes undone. -/
def literalValue? (text : String) : Option String :=
  match text.toList with
  | '"' :: cs =>
    match Text.undouble '"' cs with
    | some (value, []) => some (String.ofList value)
    | _ => none
  | _ => none

/-- Every text reads back from its literal. -/
theorem literalValue?_emitLiteral (value : String) :
    literalValue? (emitLiteral (.text value)) = some value := by
  have hread := Text.undouble_double '"' value.toList [] (by simp)
  simp [literalValue?, toList_emitLiteral_text, hread]

/-! ## Disjunctions -/

theorem value_of_leaf {α : Type} {I : Interpretation α} {e : Expr} (h : e.operator? = none) :
    e.value I = I.atom e.written := by
  cases e with
  | call name form args => cases form <;> first | rfl | cases h
  | _ => rfl

theorem emit_eq_written {e : Expr} (h : e.Writable) : e.emit = .ok e.written := by
  obtain ⟨text, htext⟩ := h
  rw [written, htext]
  rfl

/-- Nothing binds less tightly than `OR`. -/
theorem needsParens_or_first (e : Expr) : needsParens "OR" true e = false := by
  have hor : precedence "OR" = 1 := by decide +kernel
  have hleast : ∀ op, ¬precedence op < precedence "OR" := by
    intro op
    rw [hor, precedence]
    split_ifs <;> decide
  unfold needsParens
  cases e.operator? with
  | none => rfl
  | some op => simp [hleast]

/-- Two operands that need no parentheses are written as they are. -/
theorem emit_or {a b : Expr} (ha : a.Writable) (hb : b.Writable)
    (hparens : needsParens "OR" false b = false) :
    (operation "OR" [a, b]).emit = .ok (a.written ++ " OR " ++ b.written) := by
  have htrimmed : Text.trimmed "OR" = "OR" := by decide +kernel
  have hfirst := needsParens_or_first a
  rw [operation, emit, htrimmed]
  simp [emitOperands, emit_eq_written ha, emit_eq_written hb, hfirst, hparens, ok_bind, pure_eq_ok]

end Expr

open CubeQuery.Expr

namespace SetFilter

/-- Where no clause needs parentheses behind `OR`, the clauses are written as they are. -/
theorem emit_anyOf {first : Expr} {rest : List Expr} (hfirst : first.Writable)
    (hrest : ∀ e ∈ rest, e.Writable ∧ needsParens "OR" false e = false) :
    (anyOf first rest).emit = .ok (" OR ".intercalate ((first :: rest).map written)) := by
  -- The clauses joined so far are the first operand of the next `OR`.
  induction rest generalizing first with
  | nil => simpa [anyOf] using emit_eq_written hfirst
  | cons e rest ih =>
    obtain ⟨⟨he, hparens⟩, hrest⟩ := List.forall_mem_cons.1 hrest
    have hemit := emit_or hfirst he hparens
    have hpair : (operation "OR" [first, e]).written = first.written ++ " OR " ++ e.written := by
      rw [written, hemit]
      rfl
    have hjoin := ih ⟨_, hemit⟩ hrest
    rw [List.map_cons, hpair, String.intercalate_cons_append] at hjoin
    rw [List.map_cons, List.map_cons, String.intercalate_cons_cons]
    exact hjoin

end SetFilter

/-! ## Clauses -/

namespace NameOperator

/-- How the name is compared with the value at a place of several: the first one for equality. -/
def forPlace (op : NameOperator) (count i : Nat) : NameOperator :=
  if 1 < count ∧ i = 0 then .equal else op

/-- The comparison holds of two names. -/
def holds : NameOperator → String → String → Bool
  | .equal, a, b => a = b
  | .notEqual, a, b => a ≠ b

/-- One of the comparisons with the values holds of the name. -/
def accepts (op : NameOperator) (values : List String) (name : String) : Bool :=
  (values.mapIdx fun i value => (op.forPlace values.length i).holds name value).any id

theorem accepts_equal (values : List String) (name : String) :
    equal.accepts values name = decide (name ∈ values) := by
  have hequal : ∀ i, equal.forPlace values.length i = .equal := by simp [forPlace]
  have hany : equal.accepts values name = values.any (equal.holds name) := by
    rw [accepts, Bool.eq_iff_iff]
    simp [hequal, List.mem_iff_getElem]
  rw [hany, Bool.eq_iff_iff]
  simp [holds]

end NameOperator

namespace SetFilter

/-- The name of the current member of a hierarchy, in writing. -/
def currentNameText (hierarchy : String) : String := hierarchy ++ ".CurrentMember.Name"

/-- The clauses of a name filter, one for each value. -/
def clauses (hierarchy : String) (op : NameOperator) (values : List String) : List Expr :=
  values.mapIdx fun i value => nameClause hierarchy (op.forPlace values.length i) value

/-- The predicate joins the clauses. -/
theorem namePredicate_eq {hierarchy : String} {op : NameOperator} {values : List String}
    {first : Expr} {rest : List Expr} (h : clauses hierarchy op values = first :: rest) :
    namePredicate hierarchy op values = some (anyOf first rest) := by
  rcases values with _ | ⟨value, _ | ⟨second, values⟩⟩
  · cases h
  · cases h
    rfl
  · have hmany : 1 < (value :: second :: values).length := by simp
    have hlater : ∀ i, op.forPlace (value :: second :: values).length (i + 1) = op := by
      simp [NameOperator.forPlace]
    have hclauses : clauses hierarchy op (value :: second :: values) =
        nameClause hierarchy .equal value :: (second :: values).map (nameClause hierarchy op) := by
      rw [clauses, List.mapIdx_cons, NameOperator.forPlace, if_pos ⟨hmany, rfl⟩]
      congr 1
      refine List.ext_getElem? fun i => ?_
      rw [List.getElem?_mapIdx, List.getElem?_map]
      simp only [hlater]
    obtain ⟨rfl, rfl⟩ := List.cons.inj (hclauses.symm.trans h)
    rfl

theorem emit_currentName (hierarchy : String) :
    (property (property (.hierarchy hierarchy) "CurrentMember") "Name").emit =
      .ok (currentNameText hierarchy) := by
  have htext : hierarchy ++ "." ++ "CurrentMember" ++ "." ++ "Name" =
      currentNameText hierarchy := by
    simp only [currentNameText, String.append_assoc]
    rfl
  rw [← htext]
  rfl

theorem emit_nameClause (hierarchy : String) (op : NameOperator) (value : String) :
    (nameClause hierarchy op value).emit = .ok
      (currentNameText hierarchy ++ (" " ++ op.symbol ++ " ") ++ emitLiteral (.text value)) := by
  have htrimmed : Text.trimmed op.symbol = op.symbol := by cases op <;> decide +kernel
  rw [nameClause, operation, emit, htrimmed]
  simp only [emitOperands, emit_currentName, ok_bind, pure_eq_ok]
  simp [needsParens, operator?, text, property, emit]

/-- A comparison binds more tightly than `OR`. -/
theorem needsParens_nameClause (hierarchy : String) (op : NameOperator) (value : String) :
    needsParens "OR" false (nameClause hierarchy op value) = false := by
  have htight : precedence (Text.trimmed op.symbol) = 3 := by cases op <;> decide +kernel
  have hor : precedence "OR" = 1 := by decide +kernel
  simp [needsParens, nameClause, operation, operator?, htight, hor]

/-- What holds of every comparison holds of the first clause and of the others. -/
theorem forall_clauses {hierarchy : String} {op : NameOperator} {values : List String}
    {first : Expr} {rest : List Expr} (h : clauses hierarchy op values = first :: rest)
    {P : Expr → Prop} (hP : ∀ op value, P (nameClause hierarchy op value)) :
    P first ∧ ∀ e ∈ rest, P e := by
  refine List.forall_mem_cons.1 fun e he => ?_
  obtain ⟨i, hi, rfl⟩ := List.mem_mapIdx.1 (h ▸ he)
  exact hP _ _

end SetFilter

/-! ## What the clauses hold of -/

/-- Texts, and what comparing and joining them gives. -/
inductive Datum where
  | text (value : String)
  | truth (value : Bool)
  | nothing
  deriving DecidableEq, Repr

/-- What words and operators stand for where the current member of a hierarchy has a name. A string
literal stands for the text that it reads back as. -/
def currentName (hierarchy name : String) : Interpretation Datum where
  atom word :=
    if word = SetFilter.currentNameText hierarchy then .text name
    else match literalValue? word with
      | some value => .text value
      | none => .nothing
  apply op a b :=
    match a, b with
    | .text a, .text b =>
      if op = "=" then .truth (a = b) else if op = "<>" then .truth (a ≠ b) else .nothing
    | .truth a, .truth b => if op = "OR" then .truth (a || b) else .nothing
    | _, _ => .nothing

/-- Of the operators that may be regrouped, only `OR` gives anything. -/
theorem currentName_associative (hierarchy name : String) :
    (currentName hierarchy name).Associative := by
  intro op hop a b c
  have htexts : op ≠ "=" ∧ op ≠ "<>" := by
    constructor <;> rintro rfl <;> exact absurd hop (by decide)
  by_cases hor : op = "OR"
  · subst hor
    have hjoin : ∀ x y : Bool, (currentName hierarchy name).apply "OR" (.truth x) (.truth y) =
        .truth (x || y) := fun _ _ => rfl
    cases a <;> cases b <;> cases c <;> first | rfl | rw [hjoin, hjoin, hjoin, hjoin, Bool.or_assoc]
  · have hnothing : ∀ x y, (currentName hierarchy name).apply op x y = .nothing := by
      intro x y
      cases x <;> cases y <;> simp [currentName, htexts, hor]
    rw [hnothing, hnothing]

namespace SetFilter

theorem emitLiteral_ne_currentNameText (value hierarchy : String) :
    emitLiteral (.text value) ≠ currentNameText hierarchy := by
  intro h
  have hliteral : (emitLiteral (.text value)).toList.getLast? = some '"' := by
    rw [toList_emitLiteral_text, ← List.cons_append, List.getLast?_concat]
  have hname : (currentNameText hierarchy).toList.getLast? = some 'e' := by
    simp [currentNameText]
  rw [h, hname] at hliteral
  exact absurd hliteral (by decide)

theorem value_nameClause (hierarchy name : String) (op : NameOperator) (value : String) :
    (nameClause hierarchy op value).value (currentName hierarchy name) =
      .truth (op.holds name value) := by
  have hleft : (property (property (.hierarchy hierarchy) "CurrentMember") "Name").value
      (currentName hierarchy name) = .text name := by
    rw [value_of_leaf rfl, written, emit_currentName]
    exact if_pos rfl
  have hright : (text value).value (currentName hierarchy name) = .text value := by
    have hwritten : (text value).written = emitLiteral (.text value) := rfl
    -- A literal ends in a quote, so it is not taken for the name of the current member.
    rw [value_of_leaf rfl, hwritten, currentName]
    simp only [if_neg (emitLiteral_ne_currentNameText value hierarchy),
      literalValue?_emitLiteral]
  have hop : (Text.trimmed op.symbol).toUpper = op.symbol := by cases op <;> decide +kernel
  rw [nameClause, operation, Expr.value, values, values, values, hleft, hright,
    Interpretation.fold, List.foldl_cons, List.foldl_nil, hop]
  cases op <;> simp [currentName, NameOperator.holds, NameOperator.symbol]

/-- A disjunction of truth values is true if one of them is. -/
theorem value_anyOf {hierarchy name : String} {first : Expr} {rest : List Expr} {bs : List Bool}
    (h : (first :: rest).map (Expr.value (currentName hierarchy name)) = bs.map Datum.truth) :
    (anyOf first rest).value (currentName hierarchy name) = .truth (bs.any id) := by
  induction rest generalizing first bs with
  | nil =>
    obtain ⟨b, bs, rfl, hb, hbs⟩ := List.map_eq_cons_iff.1 h.symm
    obtain rfl := List.map_eq_nil_iff.1 hbs
    simpa [anyOf] using hb.symm
  | cons e rest ih =>
    obtain ⟨b, bs, rfl, hb, h⟩ := List.map_eq_cons_iff.1 h.symm
    obtain ⟨c, bs, rfl, hc, hbs⟩ := List.map_eq_cons_iff.1 h
    -- The first two clauses are one operand, whose value is their disjunction.
    have hop : (Text.trimmed "OR").toUpper = "OR" := by decide +kernel
    have hpair : (operation "OR" [first, e]).value (currentName hierarchy name) =
        .truth (b || c) := by
      rw [operation, Expr.value, values, values, values, ← hb, ← hc, Interpretation.fold,
        List.foldl_cons, List.foldl_nil, hop]
      rfl
    have hvalues :
        (operation "OR" [first, e] :: rest).map (Expr.value (currentName hierarchy name)) =
          ((b || c) :: bs).map Datum.truth := by
      rw [List.map_cons, hpair, ← hbs, List.map_cons]
    rw [anyOf, List.foldl_cons]
    refine (ih hvalues).trans ?_
    simp [Bool.or_assoc]

theorem value_namePredicate {hierarchy name : String} {op : NameOperator} {values : List String}
    {first : Expr} {rest : List Expr} (h : clauses hierarchy op values = first :: rest) :
    (anyOf first rest).value (currentName hierarchy name) = .truth (op.accepts values name) := by
  refine value_anyOf ?_
  refine List.ext_getElem? fun i => ?_
  simp only [← h, clauses, List.getElem?_map, List.getElem?_mapIdx, Option.map_map,
    Function.comp_def, value_nameClause]

/-! ## What is read -/

theorem isOperation_nameClause {hierarchy : String} (h : IsWord (currentNameText hierarchy))
    (op : NameOperator) (value : String) : (nameClause hierarchy op value).IsOperation := by
  have hop : IsWord (Text.trimmed op.symbol) := by cases op <;> decide +kernel
  exact ⟨hop, Nat.le_refl 2, ⟨_, emit_currentName hierarchy, h⟩, ⟨_, rfl, isWord_literal value⟩,
    trivial⟩

theorem isOperation_anyOf {first : Expr} {rest : List Expr} (hfirst : first.IsOperation)
    (hrest : ∀ e ∈ rest, e.IsOperation) : (anyOf first rest).IsOperation := by
  have hop : IsWord (Text.trimmed "OR") := by decide +kernel
  exact List.foldlRecOn rest _ (motive := IsOperation) hfirst fun _ ha e he =>
    ⟨hop, Nat.le_refl 2, ha, hrest e he, trivial⟩

theorem faithful_nameClause (hierarchy : String) (op : NameOperator) (value : String) :
    (nameClause hierarchy op value).Faithful :=
  ⟨trivial, .inr trivial, trivial, trivial⟩

/-- Behind `OR` a comparison keeps to itself. -/
theorem joins_nameClause (hierarchy : String) (op : NameOperator) (value : String) :
    (nameClause hierarchy op value).Joins "OR" := by
  have htight : precedence (Text.trimmed op.symbol) ≠ precedence "OR" := by
    cases op <;> decide +kernel
  exact fun h => absurd h htight

theorem faithful_anyOf {first : Expr} {rest : List Expr} (hfirst : first.Faithful)
    (hrest : ∀ e ∈ rest, e.Joins "OR" ∧ e.Faithful) : (anyOf first rest).Faithful := by
  have htrimmed : Text.trimmed "OR" = "OR" := by decide +kernel
  refine List.foldlRecOn rest _ (motive := Faithful) hfirst fun _ ha e he => ?_
  obtain ⟨hjoins, hfaithful⟩ := hrest e he
  refine ⟨ha, .inr ?_, hfaithful, trivial⟩
  rwa [htrimmed]

end SetFilter

/-! ## Filters -/

/-- The text compares the name of the current member with a value. -/
def IsComparison (hierarchy : String) (op : NameOperator) (value text : String) : Prop :=
  ∃ literal, literalValue? literal = some value ∧
    text = hierarchy ++ ".CurrentMember.Name" ++ " " ++ op.symbol ++ " " ++ literal

/-- The expression compares the name of the current member with values. -/
structure ComparesNames (hierarchy : String) (op : NameOperator) (values : List String)
    (p : Expr) : Prop where
  /-- The comparisons are written in the order of the values, and without parentheses. -/
  emits : ∃ texts, p.emit = .ok (" OR ".intercalate texts) ∧ texts.length = values.length ∧
    ∀ i value, values[i]? = some value → ∃ text, texts[i]? = some text ∧
      IsComparison hierarchy (op.forPlace values.length i) value text
  holds : ∀ name, p.value (currentName hierarchy name) = .truth (op.accepts values name)
  /-- What is written is read in one way, and it holds of the same names. -/
  reads : IsWord (SetFilter.currentNameText hierarchy) →
    ∃ text t, p.emit = .ok text ∧ (∀ t', Reads text t' ↔ t' = t) ∧
      ∀ name, t.value (currentName hierarchy name) = .truth (op.accepts values name)

namespace SetFilter

theorem comparesNames_anyOf {hierarchy : String} {op : NameOperator} {values : List String}
    {first : Expr} {rest : List Expr} (h : clauses hierarchy op values = first :: rest) :
    ComparesNames hierarchy op values (anyOf first rest) := by
  have hholds : ∀ name, (anyOf first rest).value (currentName hierarchy name) =
      .truth (op.accepts values name) := fun name => value_namePredicate h
  refine ⟨⟨(first :: rest).map written, ?_, ?_, ?_⟩, hholds, fun hword => ?_⟩
  · have hwritable : first.Writable ∧ ∀ e ∈ rest, e.Writable :=
      forall_clauses h fun op value => ⟨_, emit_nameClause hierarchy op value⟩
    have hparens := forall_clauses h (P := (needsParens "OR" false · = false))
      (needsParens_nameClause hierarchy)
    exact emit_anyOf hwritable.1 fun e he => ⟨hwritable.2 e he, hparens.2 e he⟩
  · rw [← h, List.length_map, clauses, List.length_mapIdx]
  · intro i value hvalue
    refine ⟨_, ?_, emitLiteral (.text value), literalValue?_emitLiteral value, rfl⟩
    rw [← h, List.getElem?_map, clauses, List.getElem?_mapIdx, hvalue, Option.map_some,
      Option.map_some, written, emit_nameClause]
    simp only [Except.toOption, Option.getD_some, currentNameText, String.append_assoc]
  · have hoperations := forall_clauses h (isOperation_nameClause hword)
    have hfaithful := forall_clauses h (faithful_nameClause hierarchy)
    have hjoins := forall_clauses h (joins_nameClause hierarchy)
    obtain ⟨text, htext, hreads⟩ := reads_emit (isOperation_anyOf hoperations.1 hoperations.2)
    refine ⟨text, _, htext, hreads, fun name => ?_⟩
    rw [value_term (currentName_associative hierarchy name), hholds]
    exact faithful_anyOf hfaithful.1 fun e he => ⟨hjoins.2 e he, hfaithful.2 e he⟩

/-- **Filters by name.** Without values the set stays as it is. With values it is filtered by a
predicate that compares the name of the current member with each of them in their order, the first
of several for equality, the others as the filter asks. So a filter that asks for equality keeps
exactly the names that are among its values. -/
theorem names_filtered (hierarchy : String) (op : NameOperator) (read : Reader) (set : Expr) :
    (name hierarchy [] op).apply read set = .ok set ∧
      ∀ values, values ≠ [] → ∃ p,
        (name hierarchy values op).apply read set = .ok (.function "Filter" [set, p]) ∧
          ComparesNames hierarchy op values p ∧
            (op = .equal → ∀ current, p.value (currentName hierarchy current) =
              .truth (decide (current ∈ values))) := by
  refine ⟨rfl, fun values hvalues => ?_⟩
  have hclauses : clauses hierarchy op values ≠ [] := by
    simpa [clauses] using hvalues
  obtain ⟨first, rest, hcons⟩ := List.exists_cons_of_ne_nil hclauses
  have hcompares := comparesNames_anyOf hcons
  refine ⟨anyOf first rest, ?_, hcompares, fun hop current => ?_⟩
  · rw [apply, arguments, namePredicate_eq hcons]
    rfl
  · subst hop
    rw [hcompares.holds, NameOperator.accepts_equal]

/-- A value that looks like more of the predicate is one value all the same. -/
theorem names_filtered_quotes :
    ∃ p text t, (name "[Time]" ["2020", "x\" OR \"y"] .equal).apply fragment emptySet =
        .ok (.function "Filter" [emptySet, p]) ∧
      p.emit = .ok text ∧ Reads text t ∧
        text = "[Time].CurrentMember.Name = \"2020\" OR " ++
          "[Time].CurrentMember.Name = \"x\"\" OR \"\"y\"" ∧
        p.value (currentName "[Time]" "x\" OR \"y") = .truth true ∧
          t.value (currentName "[Time]" "y") = .truth false := by
  obtain ⟨-, h⟩ := names_filtered "[Time]" .equal fragment emptySet
  obtain ⟨p, hp, hcompares, hequal⟩ := h ["2020", "x\" OR \"y"] (List.cons_ne_nil _ _)
  obtain ⟨text, t, htext, hreads, hvalue⟩ := hcompares.reads (by decide +kernel)
  refine ⟨p, text, t, hp, htext, (hreads t).2 rfl, ?_, (hequal rfl _).trans (by decide),
    (hvalue _).trans (by decide +kernel)⟩
  cases hp
  exact Except.ok.inj (htext.symm.trans (by decide +kernel))

end SetFilter
end CubeQuery
