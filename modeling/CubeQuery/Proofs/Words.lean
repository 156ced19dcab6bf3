import CubeQuery.Expr.Emit
import CubeQuery.Expr.Balance
import CubeQuery.Proofs.ReadBack

/-!
# Words

The text of an operation as its words: blanks part them, and a parenthesis stands for itself where
no word has begun. Inside a word, blanks and parentheses belong to it as long as a literal, a name
in brackets, or a parenthesis or brace that the word has opened is not closed.

A text is a word (`IsWord`) if it is read as one word in any surroundings (`wordsFrom_word`).
String literals and paths of names are words, whatever characters they hold.
-/

namespace CubeQuery.Expr

/-- A part of an operation in writing. -/
inductive Token where
  | open
  | close
  | word (text : String)
  deriving DecidableEq, Repr

/-- Where the reading of a word stands. -/
structure Scan where
  /-- What has been read of the word. -/
  text : List Char
  place : Place
  /-- How many of the parentheses and braces that the word has opened are open. -/
  depth : Nat
  deriving DecidableEq, Repr

namespace Scan

/-- No word has begun. -/
def start : Scan := ⟨[], .code, 0⟩

/-- The word that ends here. -/
def ended (s : Scan) : List Token :=
  if s.text.isEmpty then [] else [.word (String.ofList s.text)]

/-- The place behind a character of a word. A closing bracket behind a closing one stands for
itself, so it leads back into the name. -/
def placeBehind : Place → Char → Place
  | .string, c => if c = '"' then .code else .string
  | .bracket, c => if c = ']' then .code else .bracket
  | .code, c => if c = '"' then .string else if c = '[' ∨ c = ']' then .bracket else .code

/-- What is open behind a character of a word. -/
def depthBehind : Place → Nat → Char → Nat
  | .code, n, c =>
    if c = '(' ∨ c = '{' then n + 1 else if c = ')' ∨ c = '}' then n - 1 else n
  | _, n, _ => n

/-- Takes a character into the word. -/
def take (s : Scan) (c : Char) : Scan :=
  ⟨s.text ++ [c], placeBehind s.place c, depthBehind s.place s.depth c⟩

/-- The character ends the word. -/
def isEnd (s : Scan) (c : Char) : Bool :=
  s.place = .code && s.depth = 0 && (Text.isBlank c || c = ')' || (s.text.isEmpty && c = '('))

/-- The part that a character is, where it does not belong to a word. -/
def mark (c : Char) : List Token :=
  if c = '(' then [.open] else if c = ')' then [.close] else []

end Scan

/-- The words of a text, read on from where a word stands. -/
def wordsFrom : Scan → List Char → List Token
  | s, [] => s.ended
  | s, c :: cs =>
    if s.isEnd c then s.ended ++ Scan.mark c ++ wordsFrom .start cs else wordsFrom (s.take c) cs

/-- The words of a text. -/
def words (text : String) : List Token := wordsFrom .start text.toList

/-- Takes a text into the word, unless the word ends in it. -/
def Scan.takeAll? (s : Scan) : List Char → Option Scan
  | [] => some s
  | c :: cs => if s.isEnd c then none else (s.take c).takeAll? cs

/-- The text is one word, in any surroundings. -/
def IsWord (text : String) : Prop :=
  text.toList ≠ [] ∧ Scan.start.takeAll? text.toList = some ⟨text.toList, .code, 0⟩

instance (text : String) : Decidable (IsWord text) := by unfold IsWord; infer_instance

/-! ## Reading words -/

theorem wordsFrom_append {s s' : Scan} {cs : List Char} (h : s.takeAll? cs = some s')
    (rest : List Char) : wordsFrom s (cs ++ rest) = wordsFrom s' rest := by
  induction cs generalizing s with
  | nil =>
    cases h
    rfl
  | cons c cs ih =>
    rw [Scan.takeAll?] at h
    split at h
    · cases h
    · next hc => rw [List.cons_append, wordsFrom, if_neg hc, ih h]

/-- Nothing follows that could belong to a word: the end, a blank or a closing parenthesis. -/
def Apart (rest : List Char) : Prop := ∀ c ∈ rest.head?, Text.isBlank c = true ∨ c = ')'

theorem wordsFrom_ended {text : List Char} (rest : List Char) (h : Apart rest) :
    wordsFrom ⟨text, .code, 0⟩ rest =
      Scan.ended ⟨text, .code, 0⟩ ++ wordsFrom .start rest := by
  cases rest with
  | nil => simp [wordsFrom, Scan.ended, Scan.start]
  | cons c cs =>
    have hend : ∀ text, Scan.isEnd ⟨text, .code, 0⟩ c = true := by
      intro text
      rcases h c rfl with hc | hc <;> simp [Scan.isEnd, hc]
    rw [wordsFrom, if_pos (hend text), wordsFrom, Scan.start, if_pos (hend [])]
    simp [Scan.ended]

/-- A word is read as such, whatever stands apart from it. -/
theorem wordsFrom_word {text : String} (h : IsWord text) {rest : List Char} (hrest : Apart rest) :
    wordsFrom .start (text.toList ++ rest) = .word text :: wordsFrom .start rest := by
  rw [wordsFrom_append h.2, wordsFrom_ended rest hrest, Scan.ended, if_neg (by simpa using h.1),
    String.ofList_toList]
  rfl

example : ∀ op ∈ ["OR", "XOR", "AND", "=", "<>", "<", ">", "<=", ">=", "+", "-", "||", "*", "/",
    ":"], IsWord op := by decide

/-! ## Literals and names -/

theorem takeAll?_append {s s' : Scan} {cs : List Char} (h : s.takeAll? cs = some s')
    (rest : List Char) : s.takeAll? (cs ++ rest) = s'.takeAll? rest := by
  induction cs generalizing s with
  | nil =>
    cases h
    rfl
  | cons c cs ih =>
    rw [Scan.takeAll?] at h
    split at h
    · cases h
    · next hc => rw [List.cons_append, Scan.takeAll?, if_neg hc, ih h]

/-- Inside a literal or a name, a doubled text is taken as it is: the first of two delimiters leaves
the inside, and the second one leads back. -/
theorem takeAll?_double {p : Place} {q : Char}
    (hq : (p, q) ∈ [(Place.string, '"'), (.bracket, ']')]) (cs : List Char) :
    ∀ text, Scan.takeAll? ⟨text, p, 0⟩ (Text.double q cs) =
      some ⟨text ++ Text.double q cs, p, 0⟩ := by
  induction cs with
  | nil => simp [Text.double, Scan.takeAll?]
  | cons c cs ih =>
    intro text
    simp only [List.mem_cons, Prod.mk.injEq, List.not_mem_nil, or_false] at hq
    by_cases hc : c = q
    · rcases hq with ⟨rfl, rfl⟩ | ⟨rfl, rfl⟩ <;>
        simp [Text.double, hc, Scan.takeAll?, Scan.isEnd, Scan.take, Scan.placeBehind,
          Scan.depthBehind, ih, Text.isBlank]
    · rcases hq with ⟨rfl, rfl⟩ | ⟨rfl, rfl⟩ <;>
        simp [Text.double, hc, Scan.takeAll?, Scan.isEnd, Scan.take, Scan.placeBehind,
          Scan.depthBehind, ih]

/-- A text between delimiters, with those inside doubled, is taken as it is. -/
theorem takeAll?_delimited {o q : Char} {p : Place}
    (hq : (o, p, q) ∈ [('"', Place.string, '"'), ('[', .bracket, ']')]) (text cs : List Char) :
    Scan.takeAll? ⟨text, .code, 0⟩ (o :: (Text.double q cs ++ [q])) =
      some ⟨text ++ o :: (Text.double q cs ++ [q]), .code, 0⟩ := by
  simp only [List.mem_cons, Prod.mk.injEq, List.not_mem_nil, or_false] at hq
  rcases hq with ⟨rfl, rfl, rfl⟩ | ⟨rfl, rfl, rfl⟩
  · have hinside := takeAll?_append (takeAll?_double (p := .string) (q := '"') (by decide) cs
      (text ++ ['"'])) ['"']
    simpa [Scan.takeAll?, Scan.isEnd, Scan.take, Scan.placeBehind, Scan.depthBehind,
      Text.isBlank] using hinside
  · have hinside := takeAll?_append (takeAll?_double (p := .bracket) (q := ']') (by decide) cs
      (text ++ ['['])) [']']
    simpa [Scan.takeAll?, Scan.isEnd, Scan.take, Scan.placeBehind, Scan.depthBehind,
      Text.isBlank] using hinside

/-- A string literal is a word, whatever its value. -/
theorem isWord_literal (value : String) : IsWord (emitLiteral (.text value)) := by
  rw [IsWord, toList_emitLiteral_text]
  exact ⟨List.cons_ne_nil _ _, takeAll?_delimited (p := .string) (by decide) [] value.toList⟩

theorem takeAll?_uniqueName (names : List String) :
    ∀ text, Scan.takeAll? ⟨text, .code, 0⟩ (Identifier.uniqueName names).toList =
      some ⟨text ++ (Identifier.uniqueName names).toList, .code, 0⟩ := by
  induction names with
  | nil => simp [Identifier.uniqueName, Scan.takeAll?]
  | cons name names ih =>
    intro text
    have hname := takeAll?_delimited (o := '[') (q := ']') (p := .bracket) (by decide) text
      name.toList
    rw [← Identifier.toList_quote] at hname
    cases names with
    | nil => rw [Identifier.uniqueName_singleton, hname]
    | cons second names =>
      have hdot : Scan.isEnd ⟨text ++ (Identifier.quote name).toList, .code, 0⟩ '.' = false := by
        simp [Scan.isEnd, Text.isBlank]
      rw [Identifier.toList_uniqueName_cons, takeAll?_append hname, Scan.takeAll?,
        if_neg (by simp [hdot]), Scan.take, Scan.placeBehind, Scan.depthBehind]
      simpa using ih (text ++ (Identifier.quote name).toList ++ ['.'])

/-- A path of names is a word, whatever the names. -/
theorem isWord_uniqueName {names : List String} (h : names ≠ []) :
    IsWord (Identifier.uniqueName names) := by
  obtain ⟨name, names, rfl⟩ := List.exists_cons_of_ne_nil h
  obtain ⟨cs, hcs⟩ := Identifier.bracketed_uniqueName name names
  refine ⟨?_, takeAll?_uniqueName _ []⟩
  rw [hcs]
  exact List.cons_ne_nil _ _

end CubeQuery.Expr
