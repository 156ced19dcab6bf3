import CubeQuery.Text.Blank
import CubeQuery.Text.Doubled

/-!
# Identifiers

An identifier is a path of names such as `[Time].[2020].[Q1]`. Written out, each name stands in
brackets with every closing bracket doubled. Read back, a name may also stand bare: then it runs
to the next dot, is trimmed and must not be blank.
-/

namespace CubeQuery

/-- A path of names.
mirrors mdx/expr:42-44 -/
structure Identifier where
  segments : List String
  deriving DecidableEq, Repr, Inhabited

namespace Identifier

/-! ## Writing -/

/-- One name in brackets.
mirrors metadata/identifier:62-64 -/
def quote (name : String) : String :=
  String.ofList ('[' :: Text.double ']' name.toList ++ [']'])

/-- The written path of the given names.
mirrors metadata/identifier:67-73 -/
def uniqueName (segments : List String) : String :=
  ".".intercalate (segments.map quote)

/-- The identifier in writing. -/
def quoted (id : Identifier) : String := uniqueName id.segments

/-- The identifier of one name. -/
def named (name : String) : Identifier := ⟨[name]⟩

/-! ## Reading -/

/-- Reads one name from its first character on, and gives the text that follows it. -/
def readName (cs : List Char) : Option (List Char × List Char) :=
  match Text.trimStart cs with
  | '[' :: body => (Text.undouble ']' body).map fun (name, rest) => (name, Text.trimStart rest)
  | text =>
    let name := Text.trimEnd (text.takeWhile (· != '.'))
    if name.isEmpty then none else some (name, text.dropWhile (· != '.'))

theorem length_dropWhile_le {α : Type} (p : α → Bool) (xs : List α) :
    (xs.dropWhile p).length ≤ xs.length := (List.dropWhile_sublist p).length_le

/-- A name was read from brackets, or from the characters in front of a dot. -/
theorem readName_eq_some {cs name rest : List Char} (h : readName cs = some (name, rest)) :
    (∃ behind, Text.trimStart cs = '[' :: (Text.double ']' name ++ ']' :: behind) ∧
        rest = Text.trimStart behind) ∨
      ((∀ body, Text.trimStart cs ≠ '[' :: body) ∧ name ≠ [] ∧
        name = Text.trimEnd ((Text.trimStart cs).takeWhile (· != '.')) ∧
          rest = (Text.trimStart cs).dropWhile (· != '.')) := by
  rw [readName] at h
  split at h
  · next body hbody =>
    obtain ⟨⟨text, behind⟩, hread, heq⟩ := Option.map_eq_some_iff.1 h
    cases heq
    exact .inl ⟨behind, by rw [hbody, (Text.undouble_eq_some_iff.1 hread).1], rfl⟩
  · next hopen =>
    dsimp only at h
    split at h
    · cases h
    · next hne =>
      cases h
      exact .inr ⟨hopen, by simpa using hne, rfl, rfl⟩

theorem length_readName {cs name rest : List Char} (h : readName cs = some (name, rest)) :
    rest.length ≤ cs.length := by
  have hcs : (Text.trimStart cs).length ≤ cs.length := length_dropWhile_le _ _
  rcases readName_eq_some h with ⟨behind, hbody, rfl⟩ | ⟨-, -, -, rfl⟩
  · have hrest : (Text.trimStart behind).length ≤ behind.length := length_dropWhile_le _ _
    simp only [hbody, List.length_cons, List.length_append] at hcs
    omega
  · exact Nat.le_trans (length_dropWhile_le _ _) hcs

/-- The names of a path, each read by `readName`, with one dot between neighbours. -/
def readPath (cs : List Char) : Option (List (List Char)) :=
  match _h : readName cs with
  | none => none
  | some (name, []) => some [name]
  | some (name, c :: rest) =>
    if c = '.' then (readPath rest).map (name :: ·) else none
termination_by cs.length
decreasing_by exact length_readName _h

/-- The names of a written path.
mirrors metadata/identifier:8-59 -/
def segments? (text : String) : Option (List String) :=
  (readPath (Text.trim text.toList)).map (·.map String.ofList)

/-- Reads an identifier.
mirrors mdx/expr:53-55 -/
def parse? (text : String) : Option Identifier := (segments? text).map Identifier.mk

end Identifier
end CubeQuery
