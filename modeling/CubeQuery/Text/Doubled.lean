/-!
# Doubling a delimiter

A text that ends at a delimiter can hold the delimiter itself when each one inside is written
twice: a closing bracket in a name, a quote in a string literal.
-/

namespace CubeQuery.Text

/-- The text with every `q` written twice. -/
def double (q : Char) : List Char → List Char
  | [] => []
  | c :: cs => if c = q then q :: q :: double q cs else c :: double q cs

/-- Reads a doubled text up to the first `q` that is not doubled: the text meant, and what follows
that `q`. A text without such a `q` is refused. -/
def undouble (q : Char) : List Char → Option (List Char × List Char)
  | [] => none
  | [c] => if c = q then some ([], []) else none
  | c :: d :: cs =>
    if c = q then
      if d = q then (undouble q cs).map fun (text, rest) => (q :: text, rest)
      else some ([], d :: cs)
    else (undouble q (d :: cs)).map fun (text, rest) => (c :: text, rest)

/-- What was doubled and closed reads back, if the text behind does not begin with `q`. -/
theorem undouble_double (q : Char) (cs rest : List Char) (h : rest.head? ≠ some q) :
    undouble q (double q cs ++ q :: rest) = some (cs, rest) := by
  induction cs with
  | nil =>
    cases rest with
    | nil => simp [double, undouble]
    | cons d ds =>
      have hd : d ≠ q := fun e => h (by simp [e])
      simp [double, undouble, hd]
  | cons c cs ih =>
    by_cases hc : c = q
    · simp [double, undouble, hc, ih]
    · obtain ⟨d, ds, hds⟩ : ∃ d ds, double q cs ++ q :: rest = d :: ds := by
        cases hdd : double q cs with
        | nil => exact ⟨q, rest, rfl⟩
        | cons d ds => exact ⟨d, _, rfl⟩
      rw [double, if_neg hc, List.cons_append, hds, undouble, if_neg hc, ← hds, ih]
      rfl

/-- What is read was doubled and closed, and the closing character is not doubled itself. -/
theorem undouble_eq_some {q : Char} {cs text rest : List Char}
    (h : undouble q cs = some (text, rest)) :
    cs = double q text ++ q :: rest ∧ rest.head? ≠ some q := by
  fun_induction undouble q cs generalizing text rest with
  | case1 => cases h
  | case2 => cases h; simp [double]
  | case3 => cases h
  | case4 cs ih =>
    obtain ⟨⟨text, rest⟩, hread, heq⟩ := Option.map_eq_some_iff.1 h
    cases heq
    obtain ⟨rfl, hrest⟩ := ih hread
    exact ⟨by simp [double], hrest⟩
  | case5 d cs hd => cases h; simp [double, hd]
  | case6 c d cs hc ih =>
    obtain ⟨⟨text, rest⟩, hread, heq⟩ := Option.map_eq_some_iff.1 h
    cases heq
    obtain ⟨hcs, hrest⟩ := ih hread
    exact ⟨by rw [hcs, double, if_neg hc, List.cons_append], hrest⟩

theorem undouble_eq_some_iff {q : Char} {cs text rest : List Char} :
    undouble q cs = some (text, rest) ↔ cs = double q text ++ q :: rest ∧ rest.head? ≠ some q := by
  refine ⟨undouble_eq_some, ?_⟩
  rintro ⟨rfl, hrest⟩
  exact undouble_double q text rest hrest

end CubeQuery.Text
