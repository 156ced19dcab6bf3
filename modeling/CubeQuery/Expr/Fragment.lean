import CubeQuery.Expr
import CubeQuery.Expr.Balance

/-!
# Reading fragments

Overrides, filter predicates, formulas and range bounds are written as text. A reader turns such a
text into an expression. The plainest reader keeps the text as it is, once it is balanced.
-/

namespace CubeQuery.Expr

/-- Why a reader refuses a text. -/
inductive Refusal where
  | blank
  | imbalance (fault : Imbalance)
  | other (why : String)
  deriving DecidableEq, Repr

def Refusal.message : Refusal → String
  | .blank => "empty expression"
  | .imbalance fault => fault.message
  | .other why => why

/-- A text that was refused. -/
structure ReadError where
  text : String
  refusal : Refusal
  deriving DecidableEq, Repr

def ReadError.message (e : ReadError) : String :=
  "Cannot parse expression '" ++ e.text ++ "': " ++ e.refusal.message

/-- Turns a text into an expression. -/
abbrev Reader := String → Except ReadError Expr

/-- Keeps the trimmed text as a fragment. Blank and unbalanced texts are refused.
mirrors mdx/parser:37-52 -/
def fragment : Reader := fun text =>
  let body := Text.trim text.toList
  if body.isEmpty then .error ⟨text, .blank⟩
  else match checkBalance body with
    | .ok () => .ok (.raw (String.ofList body))
    | .error fault => .error ⟨text, .imbalance fault⟩

/-- All that the plainest reader gives is text. -/
theorem exists_of_fragment {text : String} {e : Expr} (h : fragment text = .ok e) :
    ∃ body, e = .raw body := by
  unfold fragment at h
  simp only at h
  split at h
  · cases h
  · split at h
    · cases h
      exact ⟨_, rfl⟩
    · cases h

end CubeQuery.Expr
