import CubeQuery.Text.Blank

/-!
# Placeholders

A text refers to parameters by `${name}`. A name runs to the next closing brace, so it may itself
hold `${`. An opening without a closing brace ends the search: nothing after it can be a
placeholder.
-/

namespace CubeQuery.Text

/-- The text before the first closing brace and the text after it. -/
def splitAtBrace : List Char → Option (List Char × List Char)
  | [] => none
  | c :: cs =>
    if c = '}' then some ([], cs)
    else (splitAtBrace cs).map fun (name, rest) => (c :: name, rest)

theorem splitAtBrace_eq {cs name rest : List Char} (h : splitAtBrace cs = some (name, rest)) :
    cs = name ++ '}' :: rest := by
  induction cs generalizing name rest with
  | nil => simp [splitAtBrace] at h
  | cons c cs ih =>
    by_cases hc : c = '}'
    · simp [splitAtBrace, hc] at h; obtain ⟨rfl, rfl⟩ := h; simp [hc]
    · simp only [splitAtBrace, if_neg hc, Option.map_eq_some_iff, Prod.exists] at h
      obtain ⟨n, r, hnr, he⟩ := h
      obtain ⟨rfl, rfl⟩ := Prod.mk.inj he
      simp [ih hnr]

/-- The texts between `${` and the next closing brace, from left to right. -/
def placeholderTexts : List Char → List (List Char)
  | [] => []
  | [_] => []
  | c :: d :: cs =>
    if c = '$' ∧ d = '{' then
      match _h : splitAtBrace cs with
      | none => []
      | some (name, rest) => name :: placeholderTexts rest
    else placeholderTexts (d :: cs)
termination_by cs => cs.length
decreasing_by
  · have := congrArg List.length (splitAtBrace_eq _h)
    simp only [List.length_append, List.length_cons] at this ⊢
    omega
  · simp

/-- The names of the placeholders in a text, from left to right, as written. Blank names are left
out.
mirrors params:6-23 -/
def placeholders (s : String) : List String :=
  (placeholderTexts s.toList).filterMap fun name =>
    if name.all isBlank then none else some (String.ofList name)

end CubeQuery.Text
