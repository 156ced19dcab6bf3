import CubeQuery.Expr.Emit
import CubeQuery.Expr.Balance
import CubeQuery.Outcome

/-!
# Texts outside their string literals

A balanced text closes what it opens (`Balanced`). Its outline is what stands outside of its string
literals: the part of a statement that decides how the rest of it is read. Both are read character
by character from a place, so what is read of a text inside a longer one is told by the place where
it begins.

* `balanceFrom_append`: a text that closes what it opens can be read past.
* `outlineFrom_append`: what follows it is shown as if it stood alone.
* `balanceFrom_literal`, `outlineFrom_literal`: a string literal is read past in any surroundings,
  whatever the characters of its value.
-/

namespace CubeQuery.Expr

/-- The text closes what it opens. -/
def Balanced (text : String) : Prop := checkBalance text.toList = .ok ()

theorem balanced_iff {text : String} :
    Balanced text ↔ failure? (checkBalance text.toList) = none := by
  rw [failure?_eq_none, Balanced]
  exact ⟨fun h => ⟨(), h⟩, fun ⟨_, h⟩ => h⟩

instance (text : String) : Decidable (Balanced text) := decidable_of_iff' _ balanced_iff

/-! ## Steps -/

/-- The place behind a character. -/
def Place.next : Place → Char → Place
  | .string, c => if c = '"' then .code else .string
  | .bracket, c => if c = ']' then .code else .bracket
  | .code, c => if c = '"' then .string else if c = '[' then .bracket else .code

/-- The character stands outside of the string literals. Their quotes belong to them. -/
def Place.shows : Place → Char → Bool
  | .string, _ => false
  | .bracket, _ => true
  | .code, c => c != '"'

/-- What is open behind a character, innermost first. -/
def openBehind : Place → List Char → Char → Except Imbalance (List Char)
  | .code, stack, c =>
    if c = '(' ∨ c = '{' then .ok (c :: stack)
    else if c = ')' ∨ c = '}' then
      match stack with
      | o :: outer => if o = opener c then .ok outer else .error (.unexpected c)
      | [] => .error (.unexpected c)
    else .ok stack
  | _, stack, _ => .ok stack

theorem balanceFrom_cons (place : Place) (stack : List Char) (c : Char) (cs : List Char) :
    balanceFrom place stack (c :: cs) =
      openBehind place stack c >>= fun stack => balanceFrom (place.next c) stack cs := by
  cases place with
  | string | bracket => rw [balanceFrom]; rfl
  | code =>
    have hcode : balanceFrom .code stack (c :: cs) =
        if c = '"' then balanceFrom .string stack cs
        else if c = '[' then balanceFrom .bracket stack cs
        else openBehind .code stack c >>= fun stack => balanceFrom .code stack cs := by
      cases stack <;> simp only [balanceFrom, openBehind] <;> grind [ok_bind, error_bind]
    rw [hcode, Place.next]
    split
    · next h => subst h; rfl
    · split
      · next h => subst h; rfl
      · rfl

/-- A step looks at nothing below what is open in its own text. -/
theorem openBehind_append {place : Place} {stack stack' : List Char} {c : Char}
    (h : openBehind place stack c = .ok stack') (outer : List Char) :
    openBehind place (stack ++ outer) c = .ok (stack' ++ outer) := by
  cases place with
  | string | bracket => cases h; rfl
  | code => cases stack <;> simp only [openBehind] at h ⊢ <;> grind

/-! ## Texts that go on -/

/-- Behind a text that closes what it opens, reading goes on as if it had not been there. -/
theorem balanceFrom_append {place : Place} {stack cs : List Char}
    (h : balanceFrom place stack cs = .ok ()) (outer rest : List Char) :
    balanceFrom place (stack ++ outer) (cs ++ rest) = balanceFrom .code outer rest := by
  induction cs generalizing place stack with
  | nil =>
    cases place with
    | code =>
      cases stack with
      | nil => rfl
      | cons => cases h
    | string | bracket => cases h
  | cons c cs ih =>
    rw [balanceFrom_cons] at h
    obtain ⟨stack', hstep, h⟩ := bind_eq_ok.1 h
    rw [List.cons_append, balanceFrom_cons, openBehind_append hstep, ok_bind, ih h]

/-- A text that closes what it opens ends outside of literals and brackets. -/
theorem place_behind {place : Place} {stack cs : List Char}
    (h : balanceFrom place stack cs = .ok ()) : cs.foldl Place.next place = .code := by
  induction cs generalizing place stack with
  | nil =>
    cases place with
    | code => rfl
    | string | bracket => cases h
  | cons c cs ih =>
    rw [balanceFrom_cons] at h
    obtain ⟨stack', -, h⟩ := bind_eq_ok.1 h
    exact ih h

/-- What stands outside of the string literals, read on from a place. -/
def outlineFrom : Place → List Char → List Char
  | _, [] => []
  | place, c :: cs =>
    if place.shows c then c :: outlineFrom (place.next c) cs else outlineFrom (place.next c) cs

/-- What stands outside of the string literals. -/
def outline (text : String) : List Char := outlineFrom .code text.toList

theorem outlineFrom_append (place : Place) (cs rest : List Char) :
    outlineFrom place (cs ++ rest) =
      outlineFrom place cs ++ outlineFrom (cs.foldl Place.next place) rest := by
  induction cs generalizing place with
  | nil => rfl
  | cons c cs ih =>
    rw [List.cons_append, outlineFrom, outlineFrom, ih, List.foldl_cons]
    cases place.shows c <;> rfl

/-! ## String literals -/

theorem openBehind_quote (place : Place) (stack : List Char) :
    openBehind place stack '"' = .ok stack := by
  cases place <;> rfl

/-- The doubled text of a value is read without leaving the literal. -/
theorem balanceFrom_double (value : List Char) (stack rest : List Char) :
    balanceFrom .string stack (Text.double '"' value ++ rest) =
      balanceFrom .string stack rest := by
  induction value with
  | nil => rfl
  | cons c cs ih =>
    rw [Text.double]
    split
    · -- the first quote leaves the literal, the second one comes back to it
      rw [List.cons_append, List.cons_append, balanceFrom_cons, openBehind_quote, ok_bind,
        balanceFrom_cons, openBehind_quote, ok_bind]
      exact ih
    · next hc =>
      rw [List.cons_append, balanceFrom_cons, Place.next, if_neg hc]
      exact ih

theorem outlineFrom_double (value rest : List Char) :
    outlineFrom .string (Text.double '"' value ++ rest) = outlineFrom .string rest := by
  induction value with
  | nil => rfl
  | cons c cs ih =>
    rw [Text.double]
    split
    · rw [List.cons_append, List.cons_append, outlineFrom, outlineFrom]
      exact ih
    · next hc =>
      rw [List.cons_append, outlineFrom, Place.next, if_neg hc]
      exact ih

/-- A string literal is read past in any surroundings. -/
theorem balanceFrom_literal (value : String) (stack rest : List Char) :
    balanceFrom .code stack ((emitLiteral (.text value)).toList ++ rest) =
      balanceFrom .code stack rest := by
  rw [toList_emitLiteral_text, List.cons_append, List.append_assoc, balanceFrom_cons]
  exact balanceFrom_double value.toList stack ('"' :: rest)

/-- A string literal leaves nothing in the outline of what stands around it. -/
theorem outlineFrom_literal (value : String) (rest : List Char) :
    outlineFrom .code ((emitLiteral (.text value)).toList ++ rest) = outlineFrom .code rest := by
  rw [toList_emitLiteral_text, List.cons_append, List.append_assoc, outlineFrom]
  exact outlineFrom_double value.toList ('"' :: rest)

end CubeQuery.Expr
