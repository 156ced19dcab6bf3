import CubeQuery.Text.Blank

/-!
# Fields and fragments of a text

A text cut at a separator, and a text searched for a word.
-/

namespace CubeQuery.Text

/-- The parts between the separators, one more than there are separators. -/
def fields (sep : Char) : List Char → List (List Char)
  | [] => [[]]
  | c :: cs =>
    if c = sep then [] :: fields sep cs
    else match fields sep cs with
      | [] => [[c]]
      | f :: fs => (c :: f) :: fs

/-- The entries of a comma-separated list, trimmed. Blank entries are left out. -/
def commaList (s : String) : List String :=
  ((fields ',' s.toList).map trim).filterMap fun f =>
    if f.isEmpty then none else some (String.ofList f)

/-- The word occurs in the text. -/
def occursIn (word : List Char) : List Char → Bool
  | [] => word.isEmpty
  | c :: cs => word.isPrefixOf (c :: cs) || occursIn word cs

end CubeQuery.Text
