import CubeQuery.Expr.Writable
import CubeQuery.Proofs.Reading
import Mathlib.Data.List.Forall2

/-!
# Written operations and what they mean

Operations over words are written so that the text can be read, and in one way only
(`operations_read`). The term that it is read as is `Expr.term`: an operand in parentheses is read
as it is, and an operand without them is grafted on what stands to its left.

The reading has the value of the tree if the operands are faithful: an operand behind the first one
that stands without parentheses meets its operator only in operators that associate with it
(`Expr.Faithful`). Writing takes less care than that. It leaves out the parentheses of an operand
with the operator around it, whether that operator associates or not
(`operations_read_nestedDifference`).
-/

namespace CubeQuery.Expr

/-! ## Values -/

/-- What words and operators stand for. Operators are known by their capitals. -/
structure Interpretation (α : Type) where
  atom : String → α
  apply : String → α → α → α

/-- The operators that may be regrouped. -/
def associativeOperators : List String := ["OR", "XOR", "AND", "+", "*", "||"]

def IsAssociative (op : String) : Prop := op.toUpper ∈ associativeOperators

instance (op : String) : Decidable (IsAssociative op) := by unfold IsAssociative; infer_instance

namespace Interpretation
variable {α : Type} (I : Interpretation α)

/-- The operators that may be regrouped are associative. -/
def Associative : Prop :=
  ∀ op ∈ associativeOperators, ∀ a b c,
    I.apply op (I.apply op a b) c = I.apply op a (I.apply op b c)

/-- The operands of an operator, taken together from the left. -/
def fold (op : String) : List α → α
  | [] => I.atom ""
  | a :: as => as.foldl (I.apply op.toUpper) a

end Interpretation

/-- The value of a term. -/
def Term.value {α : Type} (I : Interpretation α) : Term → α
  | .word text => I.atom text
  | .group t => t.value I
  | .node op l r => I.apply op.toUpper (l.value I) (r.value I)

/-- The text of an expression that can be written. -/
def written (e : Expr) : String := e.emit.toOption.getD ""

mutual

/-- The value of an operation. Everything else is known by its text. -/
def value {α : Type} (I : Interpretation α) : Expr → α
  | .call name .infixOp args => I.fold (Text.trimmed name) (values I args)
  | e => I.atom e.written

def values {α : Type} (I : Interpretation α) : List Expr → List α
  | [] => []
  | e :: es => value I e :: values I es

end

/-! ## Operations over words -/

mutual

/-- Operations with two operands at least over expressions that are written as words. -/
def IsOperation : Expr → Prop
  | .call name .infixOp args =>
    IsWord (Text.trimmed name) ∧ 2 ≤ args.length ∧ AreOperations args
  | e => ∃ text, e.emit = .ok text ∧ IsWord text

def AreOperations : List Expr → Prop
  | [] => True
  | e :: es => IsOperation e ∧ AreOperations es

end

theorem isOperation_of_leaf {e : Expr} (h : e.operator? = none) :
    e.IsOperation ↔ ∃ text, e.emit = .ok text ∧ IsWord text := by
  cases e with
  | call name form args => cases form <;> first | exact Iff.rfl | cases h
  | _ => exact Iff.rfl

/-! ## Terms of operations -/

/-- Puts a term and an operator ahead of a term. Where the operators of the term are no tighter,
they come to stand around them. -/
def Term.graft (op : String) (left : Term) : Term → Term
  | .node q x y =>
    if precedence q ≤ precedence op then .node q (graft op left x) y
    else .node op left (.node q x y)
  | t => .node op left t

/-- Operands of an operator, grafted one on the other. -/
def Term.chain (op : String) : List Term → Term
  | [] => .word ""
  | t :: ts => ts.foldl (Term.graft op) t

mutual

/-- What an operation is read as, once it is written. -/
def term : Expr → Term
  | .call name .infixOp args =>
    Term.chain (Text.trimmed name) (operandTerms (Text.trimmed name) true args)
  | e => .word e.written

/-- What the operands of `op` are read as, in parentheses where they need them. -/
def operandTerms (op : String) (isFirst : Bool) : List Expr → List Term
  | [] => []
  | e :: es =>
    (if needsParens op isFirst e then .group (term e) else term e) :: operandTerms op false es

end

theorem term_of_leaf {e : Expr} (h : e.operator? = none) : e.term = .word e.written := by
  cases e with
  | call name form args => cases form <;> first | rfl | cases h
  | _ => rfl

/-! ## Writing -/

/-- A text with the words of a term, whatever stands apart from it. -/
def Spells (text : String) (t : Term) : Prop :=
  ∀ rest, Apart rest →
    wordsFrom .start (text.toList ++ rest) = t.tokens ++ wordsFrom .start rest

theorem spells_word {text : String} (h : IsWord text) : Spells text (.word text) :=
  fun _ hrest => wordsFrom_word h hrest

theorem tokens_graft (op : String) (l r : Term) :
    (Term.graft op l r).tokens = l.tokens ++ .word op :: r.tokens := by
  induction r with
  | word | group => rfl
  | node q x y ihx =>
    rw [Term.graft]
    split
    · rw [Term.tokens, ihx, Term.tokens, List.append_assoc, List.cons_append]
    · rfl

namespace Spells

variable {s t op : String} {l r : Term}

theorem parenthesized (h : Spells s l) : Spells (parenthesized s) (.group l) := by
  intro rest hrest
  have hopen : ∀ cs, wordsFrom .start ('(' :: cs) = .open :: wordsFrom .start cs := fun _ => rfl
  have hclose : wordsFrom .start (')' :: rest) = .close :: wordsFrom .start rest := rfl
  have hchars : (Expr.parenthesized s).toList ++ rest = '(' :: (s.toList ++ ')' :: rest) := by
    simp [Expr.parenthesized]
  rw [hchars, hopen, h _ (by simp [Apart]), hclose, Term.tokens]
  simp

/-- Two texts with an operator between them. -/
theorem graft (hop : IsWord op) (h : Spells s l) (h' : Spells t r) :
    Spells (s ++ (" " ++ op ++ " ") ++ t) (Term.graft op l r) := by
  intro rest hrest
  have hblank : ∀ cs, wordsFrom .start (' ' :: cs) = wordsFrom .start cs := fun _ => rfl
  have hapart : ∀ cs, Apart (' ' :: cs) := fun _ c hc => .inl (by cases hc; rfl)
  have hchars : (s ++ (" " ++ op ++ " ") ++ t).toList ++ rest =
      s.toList ++ ' ' :: (op.toList ++ ' ' :: (t.toList ++ rest)) := by simp
  rw [hchars, h _ (hapart _), hblank, wordsFrom_word hop (hapart _), hblank, h' rest hrest,
    tokens_graft]
  simp

theorem chain (hop : IsWord op) {ss : List String} {ts : List Term}
    (h : List.Forall₂ Spells (s :: ss) (l :: ts)) :
    Spells ((" " ++ op ++ " ").intercalate (s :: ss)) (Term.chain op (l :: ts)) := by
  obtain ⟨hs, hrest⟩ := List.forall₂_cons.1 h
  rw [Term.chain]
  induction hrest generalizing s l with
  | nil => simpa using hs
  | @cons t r ss ts ht hrest ih =>
    have hnext := hs.graft hop ht
    have hjoin := ih (.cons hnext hrest) hnext
    rw [String.intercalate_cons_append] at hjoin
    rw [String.intercalate_cons_cons]
    exact hjoin

end Spells

theorem spells_leaf {e : Expr} (hleaf : e.operator? = none) (h : e.IsOperation) :
    ∃ text, e.emit = .ok text ∧ Spells text e.term := by
  obtain ⟨text, htext, hword⟩ := (isOperation_of_leaf hleaf).1 h
  have hwritten : e.written = text := by rw [written, htext]; rfl
  refine ⟨text, htext, ?_⟩
  rw [term_of_leaf hleaf, hwritten]
  exact spells_word hword

mutual

/-- An operation over words is written, with the words of its term. -/
theorem spells_emit {e : Expr} (h : e.IsOperation) :
    ∃ text, e.emit = .ok text ∧ Spells text e.term := by
  cases e with
  | call name form args =>
    cases form with
    | infixOp =>
      obtain ⟨hop, hlength, hargs⟩ := h
      obtain ⟨parts, hparts, hspells⟩ := spells_emitOperands (Text.trimmed name) true hargs
      rw [emit, if_neg (Nat.not_lt.2 hlength), hparts, ok_bind, pure_eq_ok]
      refine ⟨_, rfl, ?_⟩
      cases args with
      | nil => cases hlength
      | cons e es =>
        cases hspells with
        | cons hfirst hrest => exact Spells.chain hop (.cons hfirst hrest)
    | function | property | method | braces | parentheses => exact spells_leaf rfl h
  | identifier | member | level | hierarchy | literal | raw => exact spells_leaf rfl h

theorem spells_emitOperands (op : String) (isFirst : Bool) {es : List Expr}
    (h : AreOperations es) :
    ∃ parts, emitOperands op isFirst es = .ok parts ∧
      List.Forall₂ Spells parts (operandTerms op isFirst es) := by
  cases es with
  | nil => exact ⟨[], by rw [emitOperands, pure_eq_ok], .nil⟩
  | cons e es =>
    obtain ⟨text, htext, hspells⟩ := spells_emit h.1
    obtain ⟨parts, hparts, hrest⟩ := spells_emitOperands op false h.2
    rw [emitOperands, htext, ok_bind, hparts, ok_bind, pure_eq_ok, operandTerms]
    refine ⟨_, rfl, .cons ?_ hrest⟩
    cases needsParens op isFirst e with
    | true => exact hspells.parenthesized
    | false => exact hspells

end

/-! ## Reading -/

theorem Term.Level.graft {op : String} {l r : Term} (hl : l.Level (precedence op))
    (hr : r.Level (precedence op)) : (Term.graft op l r).Level (precedence op) := by
  induction r with
  | word | group => exact ⟨Nat.le_refl _, hl, hr⟩
  | node q x y ihx =>
    obtain ⟨hq, hx, hy⟩ := hr
    rw [Term.graft]
    split
    · next hle =>
      have heq : precedence q = precedence op := Nat.le_antisymm hle hq
      exact ⟨hq, by rw [heq]; exact ihx (heq ▸ hx), hy⟩
    · next hlt => exact ⟨Nat.le_refl _, hl, Nat.lt_of_not_le hlt, hx, hy⟩

theorem Term.Level.chain {op : String} {ts : List Term}
    (h : ∀ t ∈ ts, t.Level (precedence op)) : (Term.chain op ts).Level (precedence op) := by
  cases ts with
  | nil => trivial
  | cons t ts =>
    obtain ⟨ht, hts⟩ := List.forall_mem_cons.1 h
    rw [Term.chain]
    induction ts generalizing t with
    | nil => exact ht
    | cons r ts ih =>
      obtain ⟨hr, hts⟩ := List.forall_mem_cons.1 hts
      exact ih _ (List.forall_mem_cons.2 ⟨ht.graft hr, hts⟩) (ht.graft hr) hts

/-- The operator of the expression, if it has one, is at least as tight as a precedence. -/
def Tight (p : Nat) (e : Expr) : Prop :=
  ∀ op ∈ e.operator?, p ≤ precedence (Text.trimmed op)

/-- An operand that stands without parentheses is no looser than the operator. -/
theorem tight_of_needsParens {op : String} {isFirst : Bool} {e : Expr}
    (h : needsParens op isFirst e = false) : e.Tight (precedence op) := by
  intro q hq
  simp only [needsParens, Option.mem_def.1 hq, Bool.or_eq_false_iff, decide_eq_false_iff_not] at h
  exact Nat.le_of_not_lt h.1

mutual

/-- What an operation is read as is a term of the grammar, as tight as its operator. -/
theorem level_term {p : Nat} {e : Expr} (h : e.Tight p) : e.term.Level p := by
  cases e with
  | call name form args =>
    cases form with
    | infixOp =>
      exact (Term.Level.chain (level_operandTerms (Text.trimmed name) true args)).mono (h name rfl)
    | function | property | method | braces | parentheses => trivial
  | identifier | member | level | hierarchy | literal | raw => trivial

theorem level_operandTerms (op : String) (isFirst : Bool) (es : List Expr) :
    ∀ t ∈ operandTerms op isFirst es, t.Level (precedence op) := by
  cases es with
  | nil => exact List.forall_mem_nil _
  | cons e es =>
    refine List.forall_mem_cons.2 ⟨?_, level_operandTerms op false es⟩
    cases hparens : needsParens op isFirst e with
    | true => exact level_term fun _ _ => Nat.zero_le _
    | false => exact level_term (tight_of_needsParens hparens)

end

/-- What is written of an operation is read as its term, and as nothing else. -/
theorem reads_emit {e : Expr} (h : e.IsOperation) :
    ∃ text, e.emit = .ok text ∧ ∀ t, Reads text t ↔ t = e.term := by
  obtain ⟨text, htext, hspells⟩ := spells_emit h
  have htokens : e.term.tokens = words text := by
    have hend := hspells [] (by simp [Apart])
    rw [List.append_nil] at hend
    exact (hend.trans (List.append_nil _)).symm
  have hreads : Reads text e.term := ⟨level_term fun _ _ => Nat.zero_le _, htokens⟩
  exact ⟨text, htext, fun t => ⟨fun ht => reads_unique ht hreads, fun ht => ht ▸ hreads⟩⟩

/-! ## Faithful operands -/

/-- Where an operand comes to stand behind `op` without parentheses, `op` meets the operators down
its left edge that are as tight. Each of them is `op` itself, and may be regrouped. -/
def Joins (op : String) : Expr → Prop
  | .call name .infixOp (first :: _) =>
    precedence (Text.trimmed name) = precedence op →
      (Text.trimmed name).toUpper = op.toUpper ∧ IsAssociative op ∧ Joins op first
  | _ => True

mutual

/-- Every operand behind the first one of an operation stands in parentheses, or joins the operator
in front of it. -/
def Faithful : Expr → Prop
  | .call name .infixOp (first :: rest) =>
    Faithful first ∧ FaithfulBehind (Text.trimmed name) rest
  | _ => True

def FaithfulBehind (op : String) : List Expr → Prop
  | [] => True
  | e :: es =>
    (needsParens op false e = true ∨ Joins op e) ∧ Faithful e ∧ FaithfulBehind op es

end

/-- Down the left edge of the term, `op` meets itself only, and may be regrouped. -/
def Term.Joins (op : String) : Term → Prop
  | .node q l _ =>
    precedence q ≤ precedence op → q.toUpper = op.toUpper ∧ IsAssociative op ∧ Term.Joins op l
  | _ => True

/-- A term of tighter operators joins any operator. -/
theorem Term.Level.joins {op : String} {p : Nat} {t : Term} (ht : t.Level p)
    (hp : precedence op < p) : t.Joins op := by
  cases t with
  | word | group => trivial
  | node q l r =>
    intro hle
    have hq := ht.1
    omega

theorem Term.Joins.graft {op q : String} {l r : Term} (hq : q.toUpper = op.toUpper)
    (hassociative : IsAssociative op) (hl : l.Joins op) (hr : r.Joins q) :
    (Term.graft q l r).Joins op := by
  induction r with
  | word | group => exact fun _ => ⟨hq, hassociative, hl⟩
  | node o x y ihx =>
    rw [Term.graft]
    split
    · next hle =>
      obtain ⟨ho, -, hx⟩ := hr hle
      exact fun _ => ⟨ho.trans hq, hassociative, ihx hx⟩
    · exact fun _ => ⟨hq, hassociative, hl⟩

theorem Term.Joins.chain {op q : String} {t : Term} {ts : List Term} (hq : q.toUpper = op.toUpper)
    (hassociative : IsAssociative op) (ht : t.Joins op) (hts : ∀ t ∈ ts, t.Joins q) :
    (Term.chain q (t :: ts)).Joins op := by
  rw [Term.chain]
  induction ts generalizing t with
  | nil => exact ht
  | cons r ts ih =>
    obtain ⟨hr, hts⟩ := List.forall_mem_cons.1 hts
    exact ih (Term.Joins.graft hq hassociative ht hr) hts

mutual

theorem joins_term {op : String} {e : Expr} (he : e.Faithful) (htight : e.Tight (precedence op))
    (h : e.Joins op) : e.term.Joins op := by
  cases e with
  | call name form args =>
    cases form with
    | infixOp =>
      cases args with
      | nil => trivial
      | cons first rest =>
        rcases Nat.eq_or_lt_of_le (htight name rfl) with heq | hlt
        · obtain ⟨hname, hassociative, hfirst⟩ := h heq.symm
          refine Term.Joins.chain hname hassociative ?_ (joins_operandTerms he.2)
          cases hparens : needsParens (Text.trimmed name) true first with
          | true => trivial
          | false => exact joins_term he.1 (heq ▸ tight_of_needsParens hparens) hfirst
        · have hlevel : (Expr.call name .infixOp (first :: rest)).term.Level
              (precedence (Text.trimmed name)) :=
            level_term fun op hop => by cases hop; exact Nat.le_refl _
          exact hlevel.joins hlt
    | function | property | method | braces | parentheses => trivial
  | identifier | member | level | hierarchy | literal | raw => trivial

theorem joins_operandTerms {op : String} {es : List Expr} (h : FaithfulBehind op es) :
    ∀ t ∈ operandTerms op false es, t.Joins op := by
  cases es with
  | nil => exact List.forall_mem_nil _
  | cons e es =>
    obtain ⟨hjoins, he, hes⟩ := h
    refine List.forall_mem_cons.2 ⟨?_, joins_operandTerms hes⟩
    cases hparens : needsParens op false e with
    | true => trivial
    | false =>
      exact joins_term he (tight_of_needsParens hparens) (hjoins.resolve_left (by simp [hparens]))

end

/-! ## Values of readings -/

section
variable {α : Type} {I : Interpretation α} (hI : I.Associative)

include hI in
/-- Where a term joins the operator in front of it, grafting keeps the value. -/
theorem value_graft {op : String} {l r : Term} (hr : r.Joins op) :
    (Term.graft op l r).value I = I.apply op.toUpper (l.value I) (r.value I) := by
  induction r with
  | word | group => rfl
  | node q x y ihx =>
    rw [Term.graft]
    split
    · next hle =>
      obtain ⟨hq, hassociative, hx⟩ := hr hle
      rw [Term.value, ihx hx, Term.value, hq]
      exact hI _ hassociative _ _ _
    · rfl

include hI in
theorem value_chain {op : String} {ts : List Term} (h : ∀ t ∈ ts.tail, t.Joins op) :
    (Term.chain op ts).value I = I.fold op (ts.map (Term.value I)) := by
  cases ts with
  | nil => rfl
  | cons t ts =>
    rw [Term.chain, List.map_cons, Interpretation.fold]
    rw [List.tail_cons] at h
    induction ts generalizing t with
    | nil => rfl
    | cons r ts ih =>
      obtain ⟨hr, hts⟩ := List.forall_mem_cons.1 h
      rw [List.foldl_cons, ih _ hts, value_graft hI hr, List.map_cons, List.foldl_cons]

end

theorem faithful_of_behind {op : String} {es : List Expr} (h : FaithfulBehind op es) :
    ∀ e ∈ es, e.Faithful := by
  induction es with
  | nil => exact List.forall_mem_nil _
  | cons e es ih => exact List.forall_mem_cons.2 ⟨h.2.1, ih h.2.2⟩

mutual

/-- The term of an operation with faithful operands has the value of the operation. -/
theorem value_term {α : Type} {I : Interpretation α} (hI : I.Associative) {e : Expr}
    (h : e.Faithful) : e.term.value I = e.value I := by
  cases e with
  | call name form args =>
    cases form with
    | infixOp =>
      cases args with
      | nil => rfl
      | cons first rest =>
        have hvalues := value_operandTerms hI (Text.trimmed name) true
          (List.forall_mem_cons.2 ⟨h.1, faithful_of_behind h.2⟩)
        have hjoins : ∀ t ∈ (operandTerms (Text.trimmed name) true (first :: rest)).tail,
            t.Joins (Text.trimmed name) := joins_operandTerms h.2
        rw [term, value, value_chain hI hjoins, hvalues]
    | function | property | method | braces | parentheses => rfl
  | identifier | member | level | hierarchy | literal | raw => rfl

theorem value_operandTerms {α : Type} {I : Interpretation α} (hI : I.Associative) (op : String)
    (isFirst : Bool) {es : List Expr} (h : ∀ e ∈ es, e.Faithful) :
    (operandTerms op isFirst es).map (Term.value I) = values I es := by
  cases es with
  | nil => rfl
  | cons e es =>
    obtain ⟨he, hes⟩ := List.forall_mem_cons.1 h
    rw [operandTerms, List.map_cons, values, value_operandTerms hI op false hes,
      ← value_term hI he]
    cases needsParens op isFirst e <;> rfl

end

/-- **Operations in writing.** Every operation over words is written, and its text is read in
exactly one way by the precedence of its operators, the left one first among equally tight ones. If
its operands are faithful, the reading has the value of the operation, whatever words and operators
stand for, as long as the operators that may be regrouped are associative. -/
theorem operations_read (e : Expr) (h : e.IsOperation) :
    ∃ text t, e.emit = .ok text ∧ (∀ t', Reads text t' ↔ t' = t) ∧
      (e.Faithful → ∀ {α : Type} (I : Interpretation α), I.Associative →
        t.value I = e.value I) := by
  obtain ⟨text, htext, hreads⟩ := reads_emit h
  exact ⟨text, e.term, htext, hreads, fun hfaithful α I hI => value_term hI hfaithful⟩

theorem isOperation_raw {name : String} (h : IsWord name) : (raw name).IsOperation :=
  ⟨name, rfl, h⟩

/-- Words count by their length. All operators add up, but for the difference. -/
def lengths : Interpretation Int where
  atom text := text.length
  apply op a b := if op = "-" then a - b else a + b

theorem lengths_associative : lengths.Associative := by
  intro op hop a b c
  have hdifference : op ≠ "-" := by
    rintro rfl
    exact absurd hop (by decide)
  simp only [lengths, if_neg hdifference]
  omega

/-- A measure with blanks and parentheses in its name, less a sum that is nested to the right, less
a literal that looks like more of the sum. -/
def differenceOfSum : Expr :=
  .operation " - " [.identifier ⟨["Measures", "Total (net)"]⟩,
    .operation "+" [.raw "a", .operation "+" [.raw "b", .raw "c"]], .text "x - (y"]

theorem operations_read_differenceOfSum :
    ∃ text t, differenceOfSum.emit = .ok text ∧ Reads text t ∧
      text = "[Measures].[Total (net)] - (a + b + c) - \"x - (y\"" ∧
        t.value lengths = differenceOfSum.value lengths := by
  have htotal : (identifier ⟨["Measures", "Total (net)"]⟩).IsOperation :=
    ⟨_, rfl, isWord_uniqueName (List.cons_ne_nil _ _)⟩
  have hliteral : (Expr.text "x - (y").IsOperation := ⟨_, rfl, isWord_literal _⟩
  have hb : (raw "b").IsOperation := isOperation_raw (by decide)
  have hc : (raw "c").IsOperation := isOperation_raw (by decide)
  have hsum : (Expr.operation "+" [.raw "b", .raw "c"]).IsOperation :=
    ⟨by decide, by decide, hb, hc, trivial⟩
  have hsums : (Expr.operation "+" [.raw "a", .operation "+" [.raw "b", .raw "c"]]).IsOperation :=
    ⟨by decide, by decide, isOperation_raw (by decide), hsum, trivial⟩
  have hoperation : differenceOfSum.IsOperation :=
    ⟨by decide, by decide, htotal, hsums, hliteral, trivial⟩
  have hjoins : (Expr.operation "+" [.raw "b", .raw "c"]).Joins "+" :=
    fun _ => ⟨rfl, by decide +kernel, trivial⟩
  have hfaithful : differenceOfSum.Faithful :=
    ⟨trivial, ⟨.inl (by decide +kernel), ⟨trivial, .inr hjoins,
      ⟨trivial, .inr trivial, trivial, trivial⟩, trivial⟩, .inr trivial, trivial, trivial⟩⟩
  obtain ⟨text, t, htext, hreads, hvalue⟩ := operations_read differenceOfSum hoperation
  obtain ⟨text', htext', heq⟩ := any_toOption_eq_true.1 (by decide +kernel :
    differenceOfSum.emit.toOption.any
      (· == "[Measures].[Total (net)] - (a + b + c) - \"x - (y\"") = true)
  rw [htext] at htext'
  cases htext'
  exact ⟨text, t, htext, (hreads t).2 rfl, beq_iff_eq.1 heq,
    hvalue hfaithful lengths lengths_associative⟩

/-- The difference of a difference. -/
def nestedDifference : Expr :=
  .operation "-" [.raw "a", .operation "-" [.raw "b", .raw "c"]]

/-- The operand in the second place loses its parentheses, and with them its value. -/
theorem operations_read_nestedDifference :
    nestedDifference.IsOperation ∧ nestedDifference.emit = .ok "a - b - c" ∧
      lengths.Associative ∧ nestedDifference.value lengths = 1 ∧
        ∀ t, Reads "a - b - c" t → t.value lengths = -1 := by
  have hb : (raw "b").IsOperation := isOperation_raw (by decide)
  have hc : (raw "c").IsOperation := isOperation_raw (by decide)
  have hoperation : nestedDifference.IsOperation :=
    ⟨by decide, by decide, isOperation_raw (by decide), ⟨by decide, by decide, hb, hc, trivial⟩,
      trivial⟩
  obtain ⟨text, htext, heq⟩ := any_toOption_eq_true.1 (by decide +kernel :
    nestedDifference.emit.toOption.any (· == "a - b - c") = true)
  obtain rfl : text = "a - b - c" := beq_iff_eq.1 heq
  obtain ⟨text, htext', hreads⟩ := reads_emit hoperation
  rw [htext] at htext'
  cases htext'
  refine ⟨hoperation, htext, lengths_associative, by decide +kernel, fun t ht => ?_⟩
  rw [(hreads t).1 ht]
  decide +kernel

end CubeQuery.Expr
