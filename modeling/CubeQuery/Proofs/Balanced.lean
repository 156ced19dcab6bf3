import CubeQuery.Proofs.Outline
import CubeQuery.Expr.Writable
import CubeQuery.Proofs.ReadBack
import CubeQuery.SetFilter
import Mathlib.Data.List.Forall2

/-!
# Written expressions are balanced

An expression is delimited if the texts that it takes over as they are close what they open: names
of calls, references, symbols and fragments. Nothing is asked of the values of its string literals.

* `sameOutline_emit`: emptying the string literals of an expression changes the inside of literals
  in what is written, and nothing else. With and without them the text is balanced.
* `outline_emit`: so two expressions that differ in the values of literals only fail alike, or are
  written with the same outline.
* `balanced_written`: whatever is written of a delimited expression is balanced, and no value of a
  literal has a say in how the rest of the text is read.

Every spelling of a call puts whole texts between delimiters of its own. The lemmas about texts
below therefore speak of two texts at once (`SameOutline`), and go through the spellings one by one.
-/

namespace CubeQuery.Expr

/-! ## Balanced texts -/

theorem Balanced.append {s t : String} (hs : Balanced s) (ht : Balanced t) : Balanced (s ++ t) := by
  rw [Balanced, String.toList_append, checkBalance]
  exact (balanceFrom_append hs [] t.toList).trans ht

theorem outline_append {s : String} (hs : Balanced s) (t : String) :
    outline (s ++ t) = outline s ++ outline t := by
  rw [outline, String.toList_append, outlineFrom_append, place_behind hs]
  rfl

/-- The characters that open or close something. -/
def delimiters : List Char := ['"', '[', ']', '(', ')', '{', '}']

/-- The character neither opens nor closes anything. -/
def Plain (c : Char) : Prop := c ∉ delimiters

theorem plain_of {p : Char → Bool} (hp : delimiters.all (!p ·) = true) {c : Char}
    (hc : p c = true) : Plain c := by
  intro hmem
  have hnot := List.all_eq_true.1 hp c hmem
  rw [hc] at hnot
  cases hnot

theorem next_plain {c : Char} (hc : Plain c) (place : Place) : place.next c = place := by
  cases place <;> simp_all [Plain, delimiters, Place.next]

theorem openBehind_plain {c : Char} (hc : Plain c) (place : Place) (stack : List Char) :
    openBehind place stack c = .ok stack := by
  cases place <;> simp_all [Plain, delimiters, openBehind]

theorem balanceFrom_plain {c : Char} (hc : Plain c) (place : Place) (stack cs : List Char) :
    balanceFrom place stack (c :: cs) = balanceFrom place stack cs := by
  rw [balanceFrom_cons, openBehind_plain hc, ok_bind, next_plain hc]

theorem balanced_of_plain {t : String} (h : ∀ c ∈ t.toList, Plain c) : Balanced t := by
  rw [Balanced, checkBalance]
  generalize t.toList = cs at h
  induction cs with
  | nil => rfl
  | cons c cs ih =>
    obtain ⟨hc, hcs⟩ := List.forall_mem_cons.1 h
    rw [balanceFrom_plain hc, ih hcs]

/-! ### Trimmed texts -/

theorem plain_of_isBlank {c : Char} (hc : Text.isBlank c = true) : Plain c :=
  plain_of (by decide) hc

theorem balanceFrom_trimStart (place : Place) (stack cs : List Char) :
    balanceFrom place stack (Text.trimStart cs) = balanceFrom place stack cs := by
  induction cs with
  | nil => rfl
  | cons c cs ih =>
    rw [Text.trimStart, List.dropWhile_cons]
    split
    · next hc => rw [balanceFrom_plain (plain_of_isBlank hc), ← ih, Text.trimStart]
    · rfl

theorem balanceFrom_trimEnd (place : Place) (stack cs : List Char) :
    balanceFrom place stack (Text.trimEnd cs) = balanceFrom place stack cs := by
  induction cs generalizing place stack with
  | nil => rfl
  | cons c cs ih =>
    rw [Text.trimEnd]
    split
    · next hnil =>
      rw [hnil] at ih
      split
      · next hc => rw [balanceFrom_plain (plain_of_isBlank hc), ih]
      · simp only [balanceFrom_cons, ih]
    · next hcons => simp only [balanceFrom_cons _ _ c, ← hcons, ih]

theorem Balanced.trimmed {t : String} (ht : Balanced t) : Balanced (Text.trimmed t) := by
  rw [Balanced, Text.trimmed, String.toList_ofList, checkBalance, Text.trim, balanceFrom_trimEnd,
    balanceFrom_trimStart]
  exact ht

/-! ### Names, numbers and literals -/

theorem double_eq_self {q : Char} {cs : List Char} (h : q ∉ cs) : Text.double q cs = cs := by
  induction cs with
  | nil => rfl
  | cons c cs ih =>
    obtain ⟨hc, hcs⟩ := List.ne_and_not_mem_of_not_mem_cons h
    rw [Text.double, if_neg (Ne.symm hc), ih hcs]

theorem balanceFrom_bracket {cs : List Char} (h : ']' ∉ cs) (stack rest : List Char) :
    balanceFrom .bracket stack (cs ++ rest) = balanceFrom .bracket stack rest := by
  induction cs with
  | nil => rfl
  | cons c cs ih =>
    obtain ⟨hc, hcs⟩ := List.ne_and_not_mem_of_not_mem_cons h
    rw [List.cons_append, balanceFrom, if_neg (Ne.symm hc), ih hcs]

/-- A name without closing brackets stands balanced between its own. -/
theorem balanced_quote {name : String} (h : ']' ∉ name.toList) :
    Balanced (Identifier.quote name) := by
  rw [Balanced, Identifier.toList_quote, double_eq_self h, checkBalance, balanceFrom_cons]
  exact balanceFrom_bracket h [] [']']

theorem balanced_number (n : Int) : Balanced (toString n) := by
  have hdigits : ∀ m : Nat, ∀ c ∈ (toString m).toList, c.isDigit = true := by
    intro m c hc
    rw [Nat.toString_eq_repr, Nat.toList_repr] at hc
    exact Nat.isDigit_of_mem_toDigits (by decide) (by decide) hc
  have hplain : ∀ m : Nat, Balanced (toString m) := fun m =>
    balanced_of_plain fun c hc => plain_of (by decide) (hdigits m c hc)
  cases n with
  | ofNat m => exact hplain m
  | negSucc m => exact Balanced.append (s := "-") (by decide) (hplain (m + 1))

/-- A string literal is balanced, whatever its value. -/
theorem balanced_literal (value : String) : Balanced (emitLiteral (.text value)) := by
  have h := balanceFrom_literal value [] []
  rwa [List.append_nil] at h

theorem outline_literal (value : String) : outline (emitLiteral (.text value)) = [] := by
  have h := outlineFrom_literal value []
  rwa [List.append_nil] at h

/-! ## Texts with the same outline -/

/-- Two balanced texts that differ inside of string literals only. -/
structure SameOutline (s t : String) : Prop where
  left : Balanced s
  right : Balanced t
  outline_eq : outline s = outline t

theorem Balanced.sameOutline {t : String} (h : Balanced t) : SameOutline t t := ⟨h, h, rfl⟩

namespace SameOutline

variable {s t s' t' : String}

theorem append (h : SameOutline s t) (h' : SameOutline s' t') :
    SameOutline (s ++ s') (t ++ t') where
  left := h.left.append h'.left
  right := h.right.append h'.right
  outline_eq := by
    rw [outline_append h.left, outline_append h.right, h.outline_eq, h'.outline_eq]

/-- A text between a delimiter and its answer. -/
theorem enclosed (h : SameOutline s t) {o c : Char} (hoc : (o, c) ∈ [('(', ')'), ('{', '}')]) :
    SameOutline (o.toString ++ s ++ c.toString) (o.toString ++ t ++ c.toString) := by
  have hbalanced : ∀ t, Balanced t → Balanced (o.toString ++ t ++ c.toString) := by
    intro t ht
    have hinside : balanceFrom .code [o] (t.toList ++ [c]) = balanceFrom .code [o] [c] :=
      balanceFrom_append ht [o] [c]
    have hchars : (o.toString ++ t ++ c.toString).toList = o :: (t.toList ++ [c]) := by simp
    rw [Balanced, hchars, checkBalance]
    simp only [List.mem_cons, Prod.mk.injEq, List.not_mem_nil, or_false] at hoc
    rcases hoc with ⟨rfl, rfl⟩ | ⟨rfl, rfl⟩ <;> exact hinside
  have houtline : ∀ t, Balanced t →
      outline (o.toString ++ t ++ c.toString) = o :: (outline t ++ [c]) := by
    intro t ht
    have hchars : (o.toString ++ t ++ c.toString).toList = o :: (t.toList ++ [c]) := by simp
    have hinside : outlineFrom .code (t.toList ++ [c]) = outline t ++ outlineFrom .code [c] := by
      rw [outlineFrom_append, place_behind ht, outline]
    rw [outline, hchars]
    simp only [List.mem_cons, Prod.mk.injEq, List.not_mem_nil, or_false] at hoc
    rcases hoc with ⟨rfl, rfl⟩ | ⟨rfl, rfl⟩ <;> exact congrArg (List.cons _) hinside
  exact ⟨hbalanced s h.left, hbalanced t h.right,
    by rw [houtline s h.left, houtline t h.right, h.outline_eq]⟩

theorem parenthesized (h : SameOutline s t) :
    SameOutline (parenthesized s) (parenthesized t) := h.enclosed (o := '(') (c := ')') (by decide)

/-- Texts in a row, with the same text between neighbours. -/
theorem intercalate {separator : String} (hsep : Balanced separator) {ss ts : List String}
    (h : List.Forall₂ SameOutline ss ts) :
    SameOutline (separator.intercalate ss) (separator.intercalate ts) := by
  induction h with
  | nil => exact Balanced.sameOutline (by rw [String.intercalate_nil]; decide)
  | @cons s t ss ts hst hrest ih =>
    cases hrest with
    | nil => simpa using hst
    | cons =>
      rw [String.intercalate_cons_cons, String.intercalate_cons_cons]
      exact (hst.append hsep.sameOutline).append ih

end SameOutline

/-! ## Expressions with the same skeleton -/

mutual

/-- The expression with every string literal emptied. -/
def skeleton : Expr → Expr
  | .call name form args => .call name form (skeletons args)
  | .literal (.text _) => .literal (.text "")
  | .literal (.number n) => .literal (.number n)
  | .literal (.symbol s) => .literal (.symbol s)
  | .identifier id => .identifier id
  | .member name => .member name
  | .level name => .level name
  | .hierarchy name => .hierarchy name
  | .raw text => .raw text

def skeletons : List Expr → List Expr
  | [] => []
  | e :: es => skeleton e :: skeletons es

end

mutual

/-- The texts that the expression takes over as they are close what they open, and no name in
brackets holds a closing one. String literals may have any value. -/
def Delimited : Expr → Prop
  | .call name _ args => Balanced name ∧ DelimitedAll args
  | .identifier id => ∀ name ∈ id.segments, ']' ∉ name.toList
  | .member name => Balanced name
  | .level name => Balanced name
  | .hierarchy name => Balanced name
  | .literal (.text _) => True
  | .literal (.number _) => True
  | .literal (.symbol s) => Balanced s
  | .raw text => Balanced text

def DelimitedAll : List Expr → Prop
  | [] => True
  | e :: es => Delimited e ∧ DelimitedAll es

end

mutual

theorem delimited_skeleton (e : Expr) : e.skeleton.Delimited ↔ e.Delimited := by
  cases e with
  | call name form args => rw [skeleton, Delimited, Delimited, delimitedAll_skeletons args]
  | literal value => cases value <;> simp only [skeleton, Delimited]
  | identifier | member | level | hierarchy | raw => rw [skeleton]

theorem delimitedAll_skeletons (es : List Expr) :
    DelimitedAll (skeletons es) ↔ DelimitedAll es := by
  cases es with
  | nil => rw [skeletons]
  | cons e es =>
    rw [skeletons, DelimitedAll, DelimitedAll, delimited_skeleton e, delimitedAll_skeletons es]

end

@[simp] theorem length_skeletons (es : List Expr) : (skeletons es).length = es.length := by
  induction es with
  | nil => rfl
  | cons e es ih => rw [skeletons, List.length_cons, List.length_cons, ih]

/-- Whether an operand stands in parentheses does not depend on literals. -/
theorem needsParens_skeleton (op : String) (isFirst : Bool) (e : Expr) :
    needsParens op isFirst e.skeleton = needsParens op isFirst e := by
  cases e with
  | call name form args => cases form <;> rfl
  | literal value => cases value <;> rfl
  | identifier | member | level | hierarchy | raw => rfl

/-! ## Writing -/

theorem balanced_quoted {id : Identifier} (h : ∀ name ∈ id.segments, ']' ∉ name.toList) :
    Balanced id.quoted := by
  have hnames : List.Forall₂ SameOutline (id.segments.map Identifier.quote)
      (id.segments.map Identifier.quote) :=
    List.forall₂_same.2 (List.forall_mem_map.2 fun name hname =>
      (balanced_quote (h name hname)).sameOutline)
  exact (SameOutline.intercalate (by decide) hnames).left

/-- Texts made of the parts have the same outline if their parts have. -/
theorem agree_parts {x y : Except EmitError (List String)} {f g : List String → String}
    (h : Agree (List.Forall₂ SameOutline) x y)
    (hfg : ∀ ss ts, List.Forall₂ SameOutline ss ts → SameOutline (f ss) (g ts)) :
    Agree SameOutline (x >>= fun parts => pure (f parts))
      (y >>= fun parts => pure (g parts)) :=
  h.bind fun ss ts _ hst => .made (hfg ss ts hst)

/-- Arguments of a call, with commas between them. -/
theorem SameOutline.arguments {ss ts : List String} (h : List.Forall₂ SameOutline ss ts) :
    SameOutline (", ".intercalate ss) (", ".intercalate ts) :=
  SameOutline.intercalate (by decide) h

mutual

/-- Emptying the string literals changes nothing in how an expression is written but the inside of
these literals. -/
theorem sameOutline_emit {e : Expr} (h : e.Delimited) :
    Agree SameOutline e.skeleton.emit e.emit := by
  cases e with
  | call name form args =>
    obtain ⟨hname, hargs⟩ := h
    rw [skeleton]
    cases form with
    | function =>
      rw [emit, emit]
      refine agree_parts (sameOutline_emitAll hargs) fun ss ts hst => ?_
      have hcall := hname.sameOutline.append (SameOutline.arguments hst).parenthesized
      simpa only [parenthesized, String.append_assoc] using hcall
    | braces =>
      rw [emit, emit]
      exact agree_parts (sameOutline_emitAll hargs) fun ss ts hst =>
        (SameOutline.arguments hst).enclosed (o := '{') (c := '}') (by decide)
    | parentheses =>
      rw [emit, emit]
      exact agree_parts (sameOutline_emitAll hargs) fun ss ts hst =>
        (SameOutline.arguments hst).parenthesized
    | property =>
      cases args with
      | nil => rw [skeletons, emit]; exact .failed _
      | cons target rest =>
        rw [skeletons, emit, emit]
        refine (sameOutline_emit hargs.1).bind fun s t _ hst => .made ?_
        exact (hst.append (Balanced.sameOutline (by decide))).append hname.sameOutline
    | method =>
      cases args with
      | nil => rw [skeletons, emit]; exact .failed _
      | cons target rest =>
        rw [skeletons, emit, emit]
        refine (sameOutline_emit hargs.1).bind fun s t _ hst => ?_
        refine agree_parts (sameOutline_emitAll hargs.2) fun ss ts hparts => ?_
        exact ((hst.append (Balanced.sameOutline (by decide))).append hname.sameOutline).append
          (SameOutline.arguments hparts).parenthesized
    | infixOp =>
      rw [emit, emit, length_skeletons]
      have hseparator : Balanced (" " ++ Text.trimmed name ++ " ") :=
        (Balanced.append (by decide) hname.trimmed).append (by decide)
      by_cases hlength : args.length < 2
      · rw [if_pos hlength, if_pos hlength]
        exact .failed _
      · rw [if_neg hlength, if_neg hlength]
        exact agree_parts (sameOutline_emitOperands _ true hargs) fun ss ts hst =>
          SameOutline.intercalate hseparator hst
  | literal value =>
    cases value with
    | text value =>
      rw [skeleton, emit, emit]
      exact .made ⟨balanced_literal _, balanced_literal _, by rw [outline_literal, outline_literal]⟩
    | number n =>
      rw [skeleton, emit]
      exact .made (balanced_number n).sameOutline
    | symbol s =>
      rw [skeleton, emit]
      exact .made (Balanced.sameOutline h)
  | identifier id =>
    rw [skeleton, emit]
    exact .made (balanced_quoted h).sameOutline
  | member | level | hierarchy | raw =>
    rw [skeleton, emit]
    exact .made (Balanced.sameOutline h)

theorem sameOutline_emitAll {es : List Expr} (h : DelimitedAll es) :
    Agree (List.Forall₂ SameOutline) (emitAll (skeletons es)) (emitAll es) := by
  cases es with
  | nil =>
    rw [skeletons, emitAll]
    exact .made .nil
  | cons e es =>
    rw [skeletons, emitAll, emitAll]
    refine (sameOutline_emit h.1).bind fun s t _ hst => ?_
    exact (sameOutline_emitAll h.2).bind fun ss ts _ hrest => .made (.cons hst hrest)

theorem sameOutline_emitOperands (op : String) (isFirst : Bool) {es : List Expr}
    (h : DelimitedAll es) :
    Agree (List.Forall₂ SameOutline) (emitOperands op isFirst (skeletons es))
      (emitOperands op isFirst es) := by
  cases es with
  | nil =>
    rw [skeletons, emitOperands]
    exact .made .nil
  | cons e es =>
    rw [skeletons, emitOperands, emitOperands, needsParens_skeleton]
    refine (sameOutline_emit h.1).bind fun s t _ hst => ?_
    refine (sameOutline_emitOperands op false h.2).bind fun ss ts _ hrest => .made (.cons ?_ hrest)
    cases needsParens op isFirst e with
    | true => exact hst.parenthesized
    | false => exact hst

end

/-- What is written of a delimited expression shows nothing of the values of its literals. -/
theorem outline_emit {e e' : Expr} (h : e.Delimited) (heq : e'.skeleton = e.skeleton) :
    Agree SameOutline e.emit e'.emit := by
  have h' : e'.Delimited := by rwa [← delimited_skeleton, heq, delimited_skeleton]
  have hsame := sameOutline_emit h
  have hsame' := sameOutline_emit h'
  rw [heq] at hsame'
  generalize e.skeleton.emit = x at hsame hsame'
  generalize e.emit = y at hsame
  generalize e'.emit = z at hsame'
  cases hsame with
  | failed error =>
    cases hsame'
    exact .failed error
  | made hs =>
    cases hsame' with
    | made hs' => exact .made ⟨hs.right, hs'.right, hs.outline_eq.symm.trans hs'.outline_eq⟩

/-- **Written expressions are balanced.** Whatever is written of an expression whose names,
references, symbols and fragments close what they open, closes what it opens too. The values of its
string literals are free: with other values in their place the expression is written as well, and
outside of the literals it is the same text, character for character. In whatever surroundings a
literal stands, it is read past: it ends at its own last quote. -/
theorem balanced_written :
    (∀ (e : Expr) (text : String), e.Delimited → e.emit = .ok text →
      Balanced text ∧
        ∀ e' : Expr, e'.skeleton = e.skeleton →
          ∃ text', e'.emit = .ok text' ∧ Balanced text' ∧ outline text' = outline text) ∧
    ∀ (value : String) (stack rest : List Char),
      balanceFrom .code stack ((emitLiteral (.text value)).toList ++ rest) =
          balanceFrom .code stack rest ∧
        outlineFrom .code ((emitLiteral (.text value)).toList ++ rest) =
          outlineFrom .code rest := by
  refine ⟨fun e text h he => ⟨?_, fun e' heq => ?_⟩,
    fun value stack rest => ⟨balanceFrom_literal value stack rest, outlineFrom_literal value rest⟩⟩
  · have hself := outline_emit h rfl
    rw [he] at hself
    cases hself with
    | made hs => exact hs.left
  · have hother := outline_emit h heq
    rw [he] at hother
    generalize e'.emit = y at hother
    cases hother with
    | made hs => exact ⟨_, rfl, hs.right, hs.outline_eq.symm⟩

/-- The years with one name or without another. -/
def namedYears (wanted unwanted : String) : Expr :=
  .function "Filter" [.property (.level "[Time].[Year]") "Members",
    SetFilter.anyOf (SetFilter.nameClause "[Time]" .equal wanted)
      [SetFilter.nameClause "[Time]" .notEqual unwanted]]

theorem delimited_namedYears (wanted unwanted : String) :
    (namedYears wanted unwanted).Delimited := by
  have hnames : ∀ name ∈ ["Filter", "Members", "[Time].[Year]", "[Time]", "OR", "=", "<>",
      "CurrentMember", "Name"], Balanced name := by decide
  simp only [List.forall_mem_cons] at hnames
  simp only [namedYears, function, property, operation, Expr.text, SetFilter.anyOf,
    SetFilter.nameClause, NameOperator.symbol, List.foldl, Delimited, DelimitedAll]
  tauto

/-- Names that try to close their literal and the call around it, in the place of plain ones. -/
theorem balanced_written_namedYears :
    ∃ text, (namedYears "\"\x7d) ON ROWS, \x7b[x" "\"\"))").emit = .ok text ∧ Balanced text ∧
      (∃ plain, (namedYears "2020" "2021").emit = .ok plain ∧ outline plain = outline text) ∧
        balanceFrom .code ['('] ((emitLiteral (.text "\")")).toList ++ [')']) = .ok () := by
  obtain ⟨hwritten, hliteral⟩ := balanced_written
  obtain ⟨text, htext⟩ := isOk_eq_true.1
    (by decide +kernel : (namedYears "\"\x7d) ON ROWS, \x7b[x" "\"\"))").emit.isOk = true)
  obtain ⟨hbalanced, hothers⟩ := hwritten _ text (delimited_namedYears _ _) htext
  obtain ⟨plain, hplain, -, houtline⟩ := hothers (namedYears "2020" "2021") rfl
  exact ⟨text, htext, hbalanced, ⟨plain, hplain, houtline⟩, (hliteral "\")" ['('] [')']).1⟩

end CubeQuery.Expr
