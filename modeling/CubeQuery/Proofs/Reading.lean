import CubeQuery.Proofs.Words

/-!
# Reading operations

Operations in writing, read by the precedence of their operators: the tighter operator takes the
operand between two, and of two equally tight ones the left one does. `Term.Level` says so as a
grammar, with one level for each precedence, and `Reads` says that a term of the grammar is written
with the words of a text.

The grammar is unambiguous (`reads_unique`). A reader that goes through the words once, and inserts
each operator with its operand into what it has read so far, gives back every term of the grammar
from its tokens (`read_tokens`).
-/

namespace CubeQuery.Expr

/-- An operation as it is read. -/
inductive Term where
  | word (text : String)
  /-- What stands in parentheses. -/
  | group (inner : Term)
  | node (op : String) (left right : Term)
  deriving DecidableEq, Repr

namespace Term

def tokens : Term → List Token
  | .word text => [.word text]
  | .group t => .open :: (t.tokens ++ [.close])
  | .node op l r => l.tokens ++ .word op :: r.tokens

/-- A term whose operators are all at least as tight as a precedence, and nest as the grammar has
it: to the left of an operator stand equally tight ones, to its right tighter ones only. In
parentheses anything may stand. -/
def Level : Nat → Term → Prop
  | _, .word _ => True
  | _, .group t => Level 0 t
  | p, .node op l r => p ≤ precedence op ∧ Level (precedence op) l ∧ Level (precedence op + 1) r

theorem Level.mono {p p' : Nat} {t : Term} (h : t.Level p) (hp : p' ≤ p) : t.Level p' := by
  cases t with
  | word text => trivial
  | group t => exact h
  | node op l r => exact ⟨Nat.le_trans hp h.1, h.2⟩

/-! ## The reader -/

/-- Puts an operator and its right operand behind a term. Looser operators of the term keep their
right side open for it. -/
def insert : Term → String → Term → Term
  | .node q l r, op, x =>
    if precedence q < precedence op then .node q l (insert r op x) else .node op (.node q l r) x
  | t, op, x => .node op t x

end Term

/-- What stands to the left of an operand: nothing, or a term and an operator. -/
abbrev Context := Option (Term × String)

/-- An atomic operand in its context. -/
def Context.join : Context → Term → Term
  | none, t => t
  | some (left, op), t => left.insert op t

mutual

/-- Reads on where an operand is due. Each open parenthesis has its context. -/
def readOperand : Context → List Context → List Token → Option Term
  | left, outer, .word text :: ts => readOperator (Context.join left (.word text)) outer ts
  | left, outer, .open :: ts => readOperand none (left :: outer) ts
  | _, _, .close :: _ => none
  | _, _, [] => none

/-- Reads on behind an operand. -/
def readOperator : Term → List Context → List Token → Option Term
  | t, outer, .word op :: ts => readOperand (some (t, op)) outer ts
  | t, left :: outer, .close :: ts => readOperator (Context.join left (.group t)) outer ts
  | _, [], .close :: _ => none
  | _, _, .open :: _ => none
  | t, [], [] => some t
  | _, _ :: _, [] => none

end

/-- The term that words are read as. -/
def read (ts : List Token) : Option Term := readOperand none [] ts

/-- What becomes of a term in a context, when it is read word by word. -/
def Context.place : Context → Term → Term
  | left, .word text => left.join (.word text)
  | left, .group t => left.join (.group t)
  | left, .node q l r => Context.place (some (Context.place left l, q)) r

/-- Behind a looser operator, reading goes on in its right operand. -/
theorem place_under {p q : String} {s x t : Term} (hpq : precedence p < precedence q)
    (ht : t.Level (precedence p + 1)) :
    Context.place (some (.node p s x, q)) t = .node p s (Context.place (some (x, q)) t) := by
  induction t generalizing q x with
  | word | group => simp only [Context.place, Context.join, Term.insert, if_pos hpq]
  | node o l r ihl ihr =>
    obtain ⟨hpo, hl, hr⟩ := ht
    have hr' : r.Level (precedence p + 1) := hr.mono (by omega)
    rw [Context.place, ihl hpq (hl.mono hpo), ihr hpo hr', Context.place]

/-- A term of tighter operators becomes the right operand of the one before it. -/
theorem place_right {p : String} {s t : Term} (hs : s.Level (precedence p))
    (ht : t.Level (precedence p + 1)) :
    Context.place (some (s, p)) t = .node p s t := by
  induction t generalizing p s with
  | word | group =>
    have hinsert : ∀ x, s.insert p x = .node p s x := by
      intro x
      cases s with
      | word | group => rfl
      | node q l r => rw [Term.insert, if_neg (Nat.not_lt.2 hs.1)]
    simp only [Context.place, Context.join, hinsert]
  | node o l r ihl ihr =>
    obtain ⟨hpo, hl, hr⟩ := ht
    rw [Context.place, ihl hs (hl.mono hpo), place_under hpo (hr.mono (by omega)), ihr hl hr]

theorem place_none {p : Nat} {t : Term} (ht : t.Level p) : Context.place none t = t := by
  induction t generalizing p with
  | word | group => rfl
  | node o l r ihl =>
    obtain ⟨-, hl, hr⟩ := ht
    rw [Context.place, ihl hl, place_right hl hr]

/-- The tokens of a term are read as the term, in its context. -/
theorem readOperand_tokens {p : Nat} {t : Term} (ht : t.Level p) (left : Context)
    (outer : List Context) (rest : List Token) :
    readOperand left outer (t.tokens ++ rest) = readOperator (left.place t) outer rest := by
  induction t generalizing p left outer rest with
  | word text => rfl
  | group t ih =>
    have ht : t.Level 0 := ht
    rw [Term.tokens, List.cons_append, List.append_assoc, readOperand, ih ht, place_none ht]
    rfl
  | node op l r ihl ihr =>
    obtain ⟨-, hl, hr⟩ := ht
    rw [Term.tokens, List.append_assoc, ihl hl, List.cons_append, readOperator, ihr hr]
    rfl

/-- The reader gives back every term of the grammar. -/
theorem read_tokens {t : Term} (ht : t.Level 0) : read t.tokens = some t := by
  have h := readOperand_tokens ht none [] []
  rw [List.append_nil, place_none ht] at h
  exact h

/-! ## Readings of texts -/

/-- The text is read as a term: a term of the grammar, written with the same words. -/
def Reads (text : String) (t : Term) : Prop := t.Level 0 ∧ t.tokens = words text

/-- A text is read in one way at most. -/
theorem reads_unique {text : String} {t t' : Term} (h : Reads text t) (h' : Reads text t') :
    t = t' := by
  have ht := read_tokens h.1
  rw [h.2, ← h'.2, read_tokens h'.1] at ht
  exact (Option.some.inj ht).symm

end CubeQuery.Expr
