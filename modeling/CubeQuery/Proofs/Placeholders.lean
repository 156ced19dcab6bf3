import CubeQuery.Text.Placeholder
import Mathlib.Data.List.Infix

/-!
# Placeholders found

The scan looks for an opening, takes the name up to the next closing brace and goes on behind that.
`Refers` says without a scan which names a text refers to: it is plain text, a placeholder, plain
text and so on, and ends in text in which no placeholder is closed. Where plain text ends in `$` and
an opening follows, or a name holds an opening itself, nothing is read differently.

Every text is of that kind, and the names it refers to are those that the scan finds (`refers_iff`).
-/

namespace CubeQuery.Text

/-- What opens a placeholder. -/
def opening : List Char := ['$', '{']

/-- The names that a text refers to, in their order. -/
inductive Refers : List Char → List (List Char) → Prop where
  /-- No placeholder is closed in the text. -/
  | none {cs : List Char}
    (h : ∀ before behind, cs = before ++ opening ++ behind → '}' ∉ behind) : Refers cs []
  | placeholder {plain name rest : List Char} {names : List (List Char)}
    (hplain : ¬opening <:+: plain) (hname : '}' ∉ name) (h : Refers rest names) :
    Refers (plain ++ opening ++ name ++ '}' :: rest) (name :: names)

/-! ## Names -/

theorem splitAtBrace_append {name : List Char} (h : '}' ∉ name) (rest : List Char) :
    splitAtBrace (name ++ '}' :: rest) = some (name, rest) := by
  induction name with
  | nil => rfl
  | cons c name ih =>
    obtain ⟨hc, hname⟩ := not_or.1 (List.mem_cons.not.1 h)
    rw [List.cons_append, splitAtBrace, if_neg (Ne.symm hc), ih hname]
    rfl

theorem splitAtBrace_eq_none {cs : List Char} (h : splitAtBrace cs = none) : '}' ∉ cs := by
  intro hmem
  obtain ⟨name, rest, rfl, hname⟩ := List.eq_append_cons_of_mem hmem
  rw [splitAtBrace_append hname] at h
  cases h

theorem notMem_of_splitAtBrace {cs name rest : List Char}
    (h : splitAtBrace cs = some (name, rest)) : '}' ∉ name := by
  have hmem : '}' ∈ cs := by simp [splitAtBrace_eq h]
  obtain ⟨first, behind, rfl, hfirst⟩ := List.eq_append_cons_of_mem hmem
  rw [splitAtBrace_append hfirst] at h
  cases h
  exact hfirst

/-! ## The scan -/

theorem placeholderTexts_placeholder {name : List Char} (h : '}' ∉ name) (rest : List Char) :
    placeholderTexts (opening ++ (name ++ '}' :: rest)) = name :: placeholderTexts rest := by
  have hsplit := splitAtBrace_append h rest
  rw [opening, List.cons_append, List.cons_append, List.nil_append, placeholderTexts,
    if_pos ⟨rfl, rfl⟩]
  split <;> simp_all

/-- Plain text is passed over. If it ends in `$`, that is no part of the opening behind it. -/
theorem placeholderTexts_plain {plain : List Char} (h : ¬opening <:+: plain) (rest : List Char) :
    placeholderTexts (plain ++ (opening ++ rest)) = placeholderTexts (opening ++ rest) := by
  induction plain with
  | nil => rfl
  | cons c plain ih =>
    rw [List.infix_cons_iff, not_or] at h
    obtain ⟨hhead, hrest⟩ := h
    cases plain with
    | nil => rw [← ih hrest]; simp [opening, placeholderTexts]
    | cons d plain =>
      have hopen : ¬(c = '$' ∧ d = '{') := by
        rintro ⟨rfl, rfl⟩
        exact hhead ⟨plain, rfl⟩
      rw [← ih hrest, List.cons_append, List.cons_append, placeholderTexts, if_neg hopen]

theorem placeholderTexts_unclosed {cs : List Char}
    (h : ∀ before behind, cs = before ++ opening ++ behind → '}' ∉ behind) :
    placeholderTexts cs = [] := by
  fun_induction placeholderTexts cs with
  | case1 | case2 | case3 => rfl
  | case4 c d cs hopen name rest hsplit =>
    obtain ⟨rfl, rfl⟩ := hopen
    refine absurd ?_ (h [] cs rfl)
    simp [splitAtBrace_eq hsplit]
  | case5 c d cs _ ih =>
    refine ih fun before behind hcs => h (c :: before) behind ?_
    rw [hcs, List.cons_append, List.cons_append]

/-- A character that opens nothing makes no difference in front of a text. -/
theorem Refers.behind {c d : Char} {cs : List Char} {names : List (List Char)}
    (h : Refers (d :: cs) names) (hopen : ¬(c = '$' ∧ d = '{')) : Refers (c :: d :: cs) names := by
  generalize hds : d :: cs = ds at h
  cases h with
  | none h =>
    refine .none fun before behind heq => ?_
    cases before with
    | nil => simp_all [opening]
    | cons b before => exact h before behind (List.cons.inj heq).2
  | @placeholder plain name rest names hplain hname h =>
    have hinfix : ¬opening <:+: c :: plain := by
      rw [List.infix_cons_iff, not_or]
      refine ⟨fun hhead => hopen ?_, hplain⟩
      cases plain with
      | nil => simp [opening] at hhead
      | cons e plain =>
        obtain ⟨rfl, -⟩ := List.cons.inj hds
        simpa [opening, eq_comm] using hhead
    have hrefers := Refers.placeholder hinfix hname h
    exact hrefers

theorem refers_placeholderTexts (cs : List Char) : Refers cs (placeholderTexts cs) := by
  fun_induction placeholderTexts cs with
  | case1 => exact .none fun before behind h => by simp_all [opening]
  | case2 c =>
    refine .none fun before behind h => ?_
    have hlength := congrArg List.length h
    simp only [opening, List.length_append, List.length_cons] at hlength
    omega
  | case3 c d cs hopen hsplit =>
    obtain ⟨rfl, rfl⟩ := hopen
    have hclosed : '}' ∉ '$' :: '{' :: cs := by simpa using splitAtBrace_eq_none hsplit
    refine .none fun before behind h hmem => hclosed ?_
    rw [h]
    exact List.mem_append_right _ hmem
  | case4 c d cs hopen name rest hsplit ih =>
    obtain ⟨rfl, rfl⟩ := hopen
    have hplain : ¬opening <:+: [] := by simp [opening]
    have h := Refers.placeholder hplain (notMem_of_splitAtBrace hsplit) ih
    rwa [List.nil_append, List.append_assoc, ← splitAtBrace_eq hsplit] at h
  | case5 c d cs hopen ih => exact ih.behind hopen

theorem Refers.placeholderTexts_eq {cs : List Char} {names : List (List Char)}
    (h : Refers cs names) : placeholderTexts cs = names := by
  induction h with
  | none h => exact placeholderTexts_unclosed h
  | placeholder hplain hname _ ih =>
    rw [List.append_assoc, List.append_assoc, placeholderTexts_plain hplain,
      placeholderTexts_placeholder hname, ih]

theorem refers_iff {cs : List Char} {names : List (List Char)} :
    Refers cs names ↔ placeholderTexts cs = names :=
  ⟨Refers.placeholderTexts_eq, fun h => h ▸ refers_placeholderTexts cs⟩

/-- Blank names are left out, the others are kept as they are written. -/
theorem placeholders_eq_filter {text : String} {names : List String}
    (h : placeholderTexts text.toList = names.map (·.toList)) :
    placeholders text = names.filter fun name => !isBlankText name := by
  rw [placeholders, h, List.filterMap_map, ← List.filterMap_eq_filter]
  refine List.filterMap_congr fun name _ => ?_
  rw [Function.comp_apply, Option.guard, isBlankText, String.ofList_toList]
  cases name.toList.all isBlank <;> rfl

/-- **Placeholders.** However a text is taken apart into plain text without an opening, placeholders
and a rest in which none is closed, its placeholders are the names of these in their order and as
they are written, the blank ones left out. And every text can be taken apart so. -/
theorem placeholders_found (text : String) :
    (∀ names : List String, Refers text.toList (names.map (·.toList)) →
      placeholders text = names.filter fun name => !isBlankText name) ∧
      ∃ names : List String, Refers text.toList (names.map (·.toList)) := by
  refine ⟨fun names h => placeholders_eq_filter h.placeholderTexts_eq, ?_⟩
  have hnames : ((placeholderTexts text.toList).map String.ofList).map (·.toList) =
      placeholderTexts text.toList := by
    simp [Function.comp_def]
  exact ⟨_, hnames ▸ refers_placeholderTexts text.toList⟩

/-- The text holds a `$` in front of an opening, an opening inside of a name, a blank name, and an
opening that is not closed. -/
theorem placeholders_found_nested :
    Refers "$$\x7b$\x7ba\x7d, $\x7b \x7d $\x7bb".toList ["$\x7ba".toList, " ".toList] ∧
      placeholders "$$\x7b$\x7ba\x7d, $\x7b \x7d $\x7bb" = ["$\x7ba"] := by
  have htext : "$$\x7b$\x7ba\x7d, $\x7b \x7d $\x7bb".toList =
      "$".toList ++ opening ++ "$\x7ba".toList ++
        '}' :: (", ".toList ++ opening ++ " ".toList ++ '}' :: " $\x7bb".toList) := by
    decide
  have hunclosed : ∀ before behind : List Char,
      " $\x7bb".toList = before ++ opening ++ behind → '}' ∉ behind := by
    intro before behind h hmem
    have hclosed : '}' ∈ " $\x7bb".toList := h ▸ List.mem_append_right _ hmem
    exact absurd hclosed (by decide)
  have hrefers : Refers "$$\x7b$\x7ba\x7d, $\x7b \x7d $\x7bb".toList
      ["$\x7ba".toList, " ".toList] := by
    rw [htext]
    exact .placeholder (by decide) (by decide)
      (.placeholder (by decide) (by decide) (.none hunclosed))
  exact ⟨hrefers, (placeholders_found _).1 ["$\x7ba", " "] hrefers⟩

end CubeQuery.Text
