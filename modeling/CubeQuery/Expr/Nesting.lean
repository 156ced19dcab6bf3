import CubeQuery.Text.Doubled

/-!
# Nesting

As far as nesting goes, a text is the row of the parentheses and braces that it shows outside of its
string literals and its names in brackets (`Marks`). It is well nested if its literals and names all
end, and if in that row each closing character answers the innermost open one (`WellNested`).

In a literal a quote is doubled. Names are written with their closing brackets doubled too; a
plainer account of names knows of no doubling, and lets each end at its first closing bracket.
-/

namespace CubeQuery.Expr

/-- The characters that nest. -/
def marks : List Char := ['(', ')', '{', '}']

/-- Opening characters with the closing ones that answer them. -/
def pairs : List (Char × Char) := [('(', ')'), ('{', '}')]

/-- Says what can stand in the brackets of a name, given the text behind them. -/
def NameRule : Type := List Char → List Char → Prop

namespace NameRule

/-- A name ends at its first closing bracket. -/
def first : NameRule := fun inside _ => ']' ∉ inside

/-- A name ends at its first closing bracket that is not doubled. -/
def undoubled : NameRule := fun inside rest =>
  (∃ name, inside = Text.double ']' name) ∧ rest.head? ≠ some ']'

/-- Besides, from the first closing bracket in a name on, nothing in it opens or closes. -/
def plainly : NameRule := fun inside rest =>
  undoubled inside rest ∧ ∀ c ∈ inside.dropWhile (· ≠ ']'), c ∉ '"' :: '[' :: marks

end NameRule

/-- The parentheses and braces of a text outside of its literals and names, all of which end. -/
inductive Marks (P : NameRule) : List Char → List Char → Prop where
  | nil : Marks P [] []
  | mark {c : Char} {cs ms : List Char} (hc : c ∈ marks) (h : Marks P cs ms) :
    Marks P (c :: cs) (c :: ms)
  | other {c : Char} {cs ms : List Char} (hc : c ∉ '"' :: '[' :: marks) (h : Marks P cs ms) :
    Marks P (c :: cs) ms
  | literal (value : List Char) {cs ms : List Char} (h : Marks P cs ms) :
    Marks P ('"' :: (Text.double '"' value ++ '"' :: cs)) ms
  | name {inside cs ms : List Char} (hn : P inside cs) (h : Marks P cs ms) :
    Marks P ('[' :: (inside ++ ']' :: cs)) ms

/-- In a row of parentheses and braces, each closing one answers the innermost open one. -/
inductive Nested : List Char → Prop where
  | nil : Nested []
  | pair {o c : Char} {inner rest : List Char} (hoc : (o, c) ∈ pairs) (hi : Nested inner)
    (hr : Nested rest) : Nested (o :: (inner ++ c :: rest))

/-- The literals and names of the text end, and what stands outside of them is nested. -/
def WellNested (P : NameRule) (text : String) : Prop :=
  ∃ ms, Marks P text.toList ms ∧ Nested ms

theorem Nested.append {ms ns : List Char} (hm : Nested ms) (hn : Nested ns) :
    Nested (ms ++ ns) := by
  induction hm with
  | nil => exact hn
  | pair hoc hi _ _ ihr =>
    rw [List.cons_append, List.append_assoc, List.cons_append]
    exact .pair hoc hi ihr

namespace Marks

variable {P : NameRule} {cs ds ms ns : List Char}

/-- Only characters that nest are shown. -/
theorem subset (h : Marks P cs ms) : ms ⊆ marks := by
  induction h with
  | nil => exact List.nil_subset _
  | mark hc _ ih => exact List.cons_subset.2 ⟨hc, ih⟩
  | other _ _ ih => exact ih
  | literal _ _ ih => exact ih
  | name _ _ ih => exact ih

/-- Two texts one behind the other show what both show. -/
theorem append (hc : Marks .first cs ms) (hd : Marks .first ds ns) :
    Marks .first (cs ++ ds) (ms ++ ns) := by
  induction hc with
  | nil => exact hd
  | mark hc _ ih => exact .mark hc ih
  | other hc _ ih => exact .other hc ih
  | literal value _ ih =>
    rw [List.cons_append, List.append_assoc, List.cons_append]
    exact .literal value ih
  | name hn _ ih =>
    rw [List.cons_append, List.append_assoc, List.cons_append]
    exact .name hn ih

/-- A text without quotes, opening brackets, parentheses and braces shows nothing. -/
theorem of_other (h : ∀ c ∈ cs, c ∉ '"' :: '[' :: marks) : Marks P cs [] := by
  induction cs with
  | nil => exact .nil
  | cons c cs ih =>
    obtain ⟨hc, hcs⟩ := List.forall_mem_cons.1 h
    exact .other hc (ih hcs)

end Marks
end CubeQuery.Expr
