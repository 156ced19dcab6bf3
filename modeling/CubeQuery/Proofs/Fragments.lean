import CubeQuery.Expr.Fragment
import CubeQuery.Expr.Nesting
import CubeQuery.Proofs.Balanced

/-!
# Which fragments are accepted

A fragment is scanned with a stack of what is open. Literals and names are passed over, so the scan
finds in a text what it finds in the row of the parentheses and braces that the text shows
(`Marks.balanceFrom`), and such a row is read to its end exactly if it is nested (`nested_iff`). The
scan has its own account of names: each ends at its first closing bracket.

Names are written with their closing brackets doubled. Where no name of a text holds one, both
accounts come to the same (`wellNested_undoubled_iff`). Behind the first closing bracket of a name
that does, the scan is outside of the name already. It gets through as long as nothing opens or
closes in the rest of the name (`Marks.of_plainly`). Otherwise paths that are written as they should
be are refused, and names that never end are accepted (`fragments_misread`).
-/

namespace CubeQuery.Expr

/-! ## Texts and what they show -/

theorem next_other {c : Char} (hc : c ∉ '"' :: '[' :: marks) : Place.next .code c = .code := by
  simp_all [Place.next]

theorem openBehind_other {c : Char} (hc : c ∉ '"' :: '[' :: marks) (stack : List Char) :
    openBehind .code stack c = .ok stack := by
  simp_all [openBehind, marks]

/-- Parentheses and braces begin and end neither a literal nor a name. -/
theorem next_mark {c : Char} (hc : c ∈ marks) (place : Place) : place.next c = place := by
  simp only [marks, List.mem_cons, List.not_mem_nil, or_false] at hc
  rcases hc with rfl | rfl | rfl | rfl <;> cases place <;> rfl

/-- A text is read like the parentheses and braces that it shows. -/
theorem Marks.balanceFrom {cs ms : List Char} (h : Marks .first cs ms) (stack rest : List Char) :
    balanceFrom .code stack (cs ++ rest) = balanceFrom .code stack (ms ++ rest) := by
  induction h generalizing stack with
  | nil => rfl
  | mark hc _ ih =>
    rw [List.cons_append, List.cons_append, balanceFrom_cons, balanceFrom_cons, next_mark hc]
    exact bind_congr fun stack => ih stack
  | other hc _ ih =>
    rw [List.cons_append, balanceFrom_cons, openBehind_other hc, ok_bind, next_other hc, ih]
  | literal value _ ih =>
    rw [List.cons_append, List.append_assoc, List.cons_append, balanceFrom_cons]
    exact (balanceFrom_double value stack _).trans (ih stack)
  | name hn _ ih =>
    rw [List.cons_append, List.append_assoc, List.cons_append, balanceFrom_cons]
    exact (balanceFrom_bracket hn stack _).trans (ih stack)

/-- What a text shows that is read on from a place: in a literal or a name, what comes behind the
end of it. -/
def MarksFrom : Place → List Char → Prop
  | .code, cs => ∃ ms, Marks .first cs ms
  | .string, cs => ∃ value rest ms, cs = Text.double '"' value ++ '"' :: rest ∧
      Marks .first rest ms
  | .bracket, cs => ∃ inside rest ms, cs = inside ++ ']' :: rest ∧ ']' ∉ inside ∧
      Marks .first rest ms

theorem place_of_marks {place : Place} {stack ms : List Char} (hms : ms ⊆ marks)
    (h : Expr.balanceFrom place stack ms = .ok ()) : place = .code := by
  induction ms generalizing stack with
  | nil =>
    cases place with
    | code => rfl
    | string | bracket => cases h
  | cons m ms ih =>
    obtain ⟨hm, hms⟩ := List.cons_subset.1 hms
    rw [balanceFrom_cons, next_mark hm] at h
    obtain ⟨stack', -, h⟩ := bind_eq_ok.1 h
    exact ih hms h

/-- What can be read shows something, if only parentheses and braces are read behind it. -/
theorem marksFrom_of_balanceFrom {place : Place} {stack cs behind : List Char}
    (hbehind : behind ⊆ marks) (h : Expr.balanceFrom place stack (cs ++ behind) = .ok ()) :
    MarksFrom place cs := by
  induction cs generalizing place stack with
  | nil =>
    rw [place_of_marks hbehind h]
    exact ⟨[], .nil⟩
  | cons c cs ih =>
    rw [List.cons_append, balanceFrom_cons] at h
    obtain ⟨stack', -, h⟩ := bind_eq_ok.1 h
    have hrest := ih h
    cases place with
    | code =>
      by_cases hmark : c ∈ marks
      · rw [next_mark hmark] at hrest
        obtain ⟨ms, hms⟩ := hrest
        exact ⟨c :: ms, .mark hmark hms⟩
      · by_cases hquote : c = '"'
        · subst hquote
          obtain ⟨value, rest, ms, rfl, hms⟩ := hrest
          exact ⟨ms, .literal value hms⟩
        · by_cases hbracket : c = '['
          · subst hbracket
            obtain ⟨inside, rest, ms, rfl, hinside, hms⟩ := hrest
            exact ⟨ms, .name hinside hms⟩
          · have hother : c ∉ '"' :: '[' :: marks := by simp [hquote, hbracket, hmark]
            rw [next_other hother] at hrest
            obtain ⟨ms, hms⟩ := hrest
            exact ⟨ms, .other hother hms⟩
    | string =>
      by_cases hquote : c = '"'
      · subst hquote
        obtain ⟨ms, hms⟩ := hrest
        exact ⟨[], cs, ms, rfl, hms⟩
      · rw [Place.next, if_neg hquote] at hrest
        obtain ⟨value, rest, ms, rfl, hms⟩ := hrest
        refine ⟨c :: value, rest, ms, ?_, hms⟩
        rw [Text.double, if_neg hquote, List.cons_append]
    | bracket =>
      by_cases hbracket : c = ']'
      · subst hbracket
        obtain ⟨ms, hms⟩ := hrest
        exact ⟨[], cs, ms, rfl, List.not_mem_nil, hms⟩
      · rw [Place.next, if_neg hbracket] at hrest
        obtain ⟨inside, rest, ms, rfl, hinside, hms⟩ := hrest
        exact ⟨c :: inside, rest, ms, rfl, by simp [Ne.symm hbracket, hinside], hms⟩

/-! ## Rows of parentheses and braces -/

theorem mem_pairs {o c : Char} : (o, c) ∈ pairs ↔ o = '(' ∧ c = ')' ∨ o = '{' ∧ c = '}' := by
  simp [pairs]

/-- A character that nests opens something or closes something. -/
theorem exists_pair {m : Char} (h : m ∈ marks) : (∃ c, (m, c) ∈ pairs) ∨ ∃ o, (o, m) ∈ pairs := by
  simp only [marks, List.mem_cons, List.not_mem_nil, or_false] at h
  rcases h with rfl | rfl | rfl | rfl
  · exact .inl ⟨')', by decide⟩
  · exact .inr ⟨'(', by decide⟩
  · exact .inl ⟨'}', by decide⟩
  · exact .inr ⟨'{', by decide⟩

theorem balanceFrom_open {o c : Char} (h : (o, c) ∈ pairs) (stack cs : List Char) :
    balanceFrom .code stack (o :: cs) = balanceFrom .code (o :: stack) cs := by
  rcases mem_pairs.1 h with ⟨rfl, rfl⟩ | ⟨rfl, rfl⟩ <;> rw [balanceFrom_cons] <;> rfl

/-- A closing character is read where it answers what is innermost open. -/
theorem openBehind_close {o c : Char} (h : (o, c) ∈ pairs) {stack outer : List Char} :
    openBehind .code stack c = .ok outer ↔ stack = o :: outer := by
  rcases mem_pairs.1 h with ⟨rfl, rfl⟩ | ⟨rfl, rfl⟩ <;> cases stack <;>
    simp [openBehind, opener, ite_eq_iff]

theorem next_close {o c : Char} (h : (o, c) ∈ pairs) : Place.next .code c = .code :=
  next_mark (by rcases mem_pairs.1 h with ⟨-, rfl⟩ | ⟨-, rfl⟩ <;> decide) .code

theorem balanceFrom_close {o c : Char} (h : (o, c) ∈ pairs) {stack cs : List Char} :
    balanceFrom .code stack (c :: cs) = .ok () ↔
      ∃ outer, stack = o :: outer ∧ balanceFrom .code outer cs = .ok () := by
  simp only [balanceFrom_cons, bind_eq_ok, openBehind_close h, next_close h]

/-- A nested row is read past. -/
theorem Nested.balanceFrom {ms : List Char} (h : Nested ms) (stack rest : List Char) :
    Expr.balanceFrom .code stack (ms ++ rest) = Expr.balanceFrom .code stack rest := by
  induction h generalizing stack rest with
  | nil => rfl
  | @pair o c inner behind hoc _ _ ihi ihr =>
    rw [List.cons_append, List.append_assoc, List.cons_append, balanceFrom_open hoc, ihi,
      balanceFrom_cons, (openBehind_close hoc).2 rfl, ok_bind, next_close hoc, ihr]

/-- The row answers all that is open, innermost first, each time behind a nested row, and ends in
one. -/
inductive Answers : List Char → List Char → Prop where
  | done {ms : List Char} (h : Nested ms) : Answers [] ms
  | close {o c : Char} {stack inner rest : List Char} (hoc : (o, c) ∈ pairs) (hi : Nested inner)
    (hr : Answers stack rest) : Answers (o :: stack) (inner ++ c :: rest)

theorem Answers.behind {stack ms rest : List Char} (hm : Nested ms) (h : Answers stack rest) :
    Answers stack (ms ++ rest) := by
  cases h with
  | done h => exact .done (hm.append h)
  | close hoc hi hr =>
    rw [← List.append_assoc]
    exact .close hoc (hm.append hi) hr

/-- A row that can be read to its end answers what is open before it. -/
theorem answers_of_balanceFrom {stack ms : List Char} (hms : ms ⊆ marks)
    (h : balanceFrom .code stack ms = .ok ()) : Answers stack ms := by
  induction ms generalizing stack with
  | nil =>
    cases stack with
    | nil => exact .done .nil
    | cons => cases h
  | cons m ms ih =>
    obtain ⟨hm, hms⟩ := List.cons_subset.1 hms
    rcases exists_pair hm with ⟨c, hoc⟩ | ⟨o, hoc⟩
    · rw [balanceFrom_open hoc] at h
      cases ih hms h with
      | close hoc hi hr =>
        have hpair := hr.behind (.pair hoc hi .nil)
        rwa [List.cons_append, List.append_assoc, List.singleton_append] at hpair
    · obtain ⟨outer, rfl, hrest⟩ := (balanceFrom_close hoc).1 h
      exact .close hoc .nil (ih hms hrest)

theorem nested_iff {ms : List Char} (hms : ms ⊆ marks) :
    Nested ms ↔ balanceFrom .code [] ms = .ok () := by
  constructor
  · intro h
    have hread := h.balanceFrom [] []
    rwa [List.append_nil] at hread
  · intro h
    cases answers_of_balanceFrom hms h with
    | done h => exact h

/-- The check of a text finds out whether it is well nested, with each name ending at its first
closing bracket. -/
theorem wellNested_iff_balanced {text : String} : WellNested .first text ↔ Balanced text := by
  have hread : ∀ {ms}, Marks .first text.toList ms →
      (Balanced text ↔ balanceFrom .code [] ms = .ok ()) := by
    intro ms hms
    have h := hms.balanceFrom [] []
    rw [List.append_nil, List.append_nil] at h
    rw [Balanced, checkBalance, h]
  constructor
  · rintro ⟨ms, hms, hnested⟩
    exact (hread hms).2 ((nested_iff hms.subset).1 hnested)
  · intro h
    obtain ⟨ms, hms⟩ : MarksFrom .code text.toList :=
      marksFrom_of_balanceFrom (List.nil_subset _) (by rwa [List.append_nil])
    exact ⟨ms, hms, (nested_iff hms.subset).2 ((hread hms).1 h)⟩

/-! ## Accepted texts -/

/-- Blanks at the ends make no difference to the check. -/
theorem checkBalance_trim (cs : List Char) : checkBalance (Text.trim cs) = checkBalance cs := by
  rw [checkBalance, Text.trim, balanceFrom_trimEnd, balanceFrom_trimStart, checkBalance]

/-- The plainest reader keeps what it accepts without the blanks around it. -/
theorem fragment_eq_ok {text : String} {e : Expr} :
    fragment text = .ok e ↔
      Text.isBlankText text = false ∧ Balanced text ∧ .raw (Text.trimmed text) = e := by
  have hblank : Text.isBlankText text = (Text.trim text.toList).isEmpty := by
    rw [Bool.eq_iff_iff, List.isEmpty_iff, Text.trim_eq_nil_iff, Text.isBlankText]
  rw [hblank, Balanced, ← checkBalance_trim, Text.trimmed]
  by_cases hnil : Text.trim text.toList = []
  · simp [fragment, hnil]
  · cases hcheck : checkBalance (Text.trim text.toList) <;> simp [fragment, hnil, hcheck]

theorem exists_fragment_iff {text : String} :
    (∃ e, fragment text = .ok e) ↔ Text.isBlankText text = false ∧ WellNested .first text := by
  simp only [fragment_eq_ok, exists_and_left, exists_eq', and_true, wellNested_iff_balanced]

/-! ## Doubled closing brackets -/

/-- A name that is read with its closing brackets doubled reads back. -/
theorem exists_undouble {cs ms : List Char} (h : Marks .undoubled ('[' :: cs) ms) :
    ∃ name rest, Text.undouble ']' cs = some (name, rest) := by
  cases h with
  | mark hc => exact absurd hc (by decide)
  | other hc => exact absurd hc (by decide)
  | name hn =>
    obtain ⟨⟨name, rfl⟩, hnext⟩ := hn
    exact ⟨name, _, Text.undouble_double ']' name _ hnext⟩

theorem double_append (q : Char) (cs ds : List Char) :
    Text.double q (cs ++ ds) = Text.double q cs ++ Text.double q ds := by
  induction cs with
  | nil => rfl
  | cons c cs ih =>
    rw [List.cons_append, Text.double, Text.double, ih]
    split <;> rfl

theorem mem_of_mem_double {q c : Char} {cs : List Char} (h : c ∈ Text.double q cs) : c ∈ cs := by
  induction cs with
  | nil => exact h
  | cons d cs ih =>
    rw [Text.double] at h
    split at h <;> grind

/-- In the text a name in brackets, read to its first closing bracket, has another one behind that:
the name is written with a closing bracket inside of it. -/
def DoublesBracket (cs : List Char) : Prop :=
  ∃ before ms inside rest, Marks .first before ms ∧ ']' ∉ inside ∧
    cs = before ++ '[' :: (inside ++ ']' :: ']' :: rest)

/-- Two closing brackets stand side by side in such a text. -/
theorem DoublesBracket.infix {cs : List Char} (h : DoublesBracket cs) : [']', ']'] <:+: cs := by
  obtain ⟨before, _, inside, rest, -, -, rfl⟩ := h
  exact ⟨before ++ '[' :: inside, rest, by simp⟩

/-- The same is found behind any text whose own names end. -/
theorem DoublesBracket.behind {cs ds ms : List Char} (hc : Marks .first cs ms)
    (h : DoublesBracket ds) : DoublesBracket (cs ++ ds) := by
  obtain ⟨before, ns, inside, rest, hbefore, hinside, rfl⟩ := h
  exact ⟨cs ++ before, ms ++ ns, inside, rest, hc.append hbefore, hinside,
    (List.append_assoc ..).symm⟩

/-- Where the names of a text obey another rule too, the text shows the same by that. -/
theorem Marks.by_rule {P P' : NameRule} {cs ms : List Char} (h : Marks P cs ms)
    (hP : ∀ inside rest, P inside rest → ¬DoublesBracket ('[' :: (inside ++ ']' :: rest)) →
      P' inside rest ∧ ']' ∉ inside)
    (hcs : ¬DoublesBracket cs) : Marks P' cs ms := by
  induction h with
  | nil => exact .nil
  | mark hc _ ih => exact .mark hc (ih fun hd => hcs (hd.behind (.mark hc .nil)))
  | other hc _ ih => exact .other hc (ih fun hd => hcs (hd.behind (.other hc .nil)))
  | literal value _ ih =>
    refine .literal value (ih fun hd => hcs ?_)
    simpa using hd.behind (.literal value .nil)
  | @name inside cs ms hn _ ih =>
    obtain ⟨hn', hinside⟩ := hP inside cs hn hcs
    have hpiece : Marks .first ('[' :: (inside ++ [']'])) [] := .name hinside .nil
    refine .name hn' (ih fun hd => hcs ?_)
    simpa using hd.behind hpiece

theorem undoubled_of_not_mem {inside rest : List Char} (hinside : ']' ∉ inside)
    (h : ¬DoublesBracket ('[' :: (inside ++ ']' :: rest))) :
    NameRule.undoubled inside rest := by
  refine ⟨⟨inside, (double_eq_self hinside).symm⟩, fun hhead => ?_⟩
  obtain ⟨behind, rfl⟩ := List.head?_eq_some_iff.1 hhead
  exact h ⟨[], [], inside, behind, .nil, hinside, rfl⟩

theorem not_mem_of_undoubled {inside rest : List Char} (hn : NameRule.undoubled inside rest)
    (h : ¬DoublesBracket ('[' :: (inside ++ ']' :: rest))) : ']' ∉ inside := by
  obtain ⟨⟨name, rfl⟩, -⟩ := hn
  intro hmem
  obtain ⟨before, behind, rfl, hbefore⟩ :=
    List.eq_append_cons_of_mem (mem_of_mem_double hmem)
  refine h ⟨[], [], before, Text.double ']' behind ++ ']' :: rest, .nil, hbefore, ?_⟩
  simp [double_append, Text.double, double_eq_self hbefore]

/-- A text in which no name holds a closing bracket is nested alike by both rules. -/
theorem wellNested_undoubled_iff {text : String} (h : ¬DoublesBracket text.toList) :
    WellNested .undoubled text ↔ WellNested .first text :=
  exists_congr fun _ => and_congr_left fun _ =>
    ⟨fun hms => hms.by_rule
        (fun _ _ hn hd => ⟨not_mem_of_undoubled hn hd, not_mem_of_undoubled hn hd⟩) h,
      fun hms => hms.by_rule (fun _ _ hn hd => ⟨undoubled_of_not_mem hn hd, hn⟩) h⟩

/-! ## Names -/

theorem dropWhile_ne {before behind : List Char} {q : Char} (h : q ∉ before) :
    (before ++ q :: behind).dropWhile (· ≠ q) = q :: behind := by
  have hpass : ∀ c ∈ before, decide (c ≠ q) = true := by
    intro c hc
    refine decide_eq_true ?_
    rintro rfl
    exact h hc
  rw [List.dropWhile_append_of_pos hpass]
  simp

/-- A name in which nothing opens or closes from its first closing bracket on is read to that, and
the rest of it as plain text. -/
theorem Marks.of_plainly {cs ms : List Char} (h : Marks .plainly cs ms) : Marks .first cs ms := by
  induction h with
  | nil => exact .nil
  | mark hc _ ih => exact .mark hc ih
  | other hc _ ih => exact .other hc ih
  | literal value _ ih => exact .literal value ih
  | @name inside cs ms hn _ ih =>
    by_cases hmem : ']' ∈ inside
    · obtain ⟨before, behind, rfl, hbefore⟩ := List.eq_append_cons_of_mem hmem
      have hplain := hn.2
      rw [dropWhile_ne hbefore] at hplain
      have hbehind : Marks .first (behind ++ [']']) [] := by
        refine .of_other fun c hc => hplain c ?_
        simpa [or_comm] using hc
      have hrest := hbehind.append ih
      rw [List.append_assoc, List.singleton_append, List.nil_append] at hrest
      rw [List.append_assoc, List.cons_append]
      exact .name hbefore hrest
    · exact .name hmem ih

/-- From its first closing bracket on, nothing in the name opens or closes. -/
def ClosesPlainly (name : String) : Prop :=
  ∀ c ∈ name.toList.dropWhile (· ≠ ']'), c ∉ '"' :: '[' :: marks

instance (name : String) : Decidable (ClosesPlainly name) :=
  List.decidableBAll (fun c => c ∉ '"' :: '[' :: marks) (name.toList.dropWhile (· ≠ ']'))

theorem mem_of_mem_dropWhile_double {q c : Char} {cs : List Char}
    (h : c ∈ (Text.double q cs).dropWhile (· ≠ q)) : c ∈ cs.dropWhile (· ≠ q) := by
  induction cs with
  | nil => exact h
  | cons d cs ih =>
    by_cases hd : d = q
    · subst hd
      have hc : c ∈ d :: cs := mem_of_mem_double ((List.dropWhile_sublist _).subset h)
      simpa using hc
    · rw [Text.double, if_neg hd, List.dropWhile_cons_of_pos (by simpa using hd)] at h
      rw [List.dropWhile_cons_of_pos (by simpa using hd)]
      exact ih h

theorem plainly_double {name : String} (h : ClosesPlainly name) {rest : List Char}
    (hrest : rest.head? ≠ some ']') : NameRule.plainly (Text.double ']' name.toList) rest :=
  ⟨⟨⟨name.toList, rfl⟩, hrest⟩, fun c hc => h c (mem_of_mem_dropWhile_double hc)⟩

/-- A written path shows nothing if its names obey the rule. -/
theorem marks_uniqueName {P : NameRule} {name : String} {names : List String}
    (h : ∀ n ∈ name :: names, ∀ rest : List Char, rest.head? ≠ some ']' →
      P (Text.double ']' n.toList) rest) :
    Marks P (Identifier.uniqueName (name :: names)).toList [] := by
  induction names generalizing name with
  | nil =>
    rw [Identifier.uniqueName_singleton, Identifier.toList_quote]
    exact .name (h name List.mem_cons_self [] (by simp)) .nil
  | cons second names ih =>
    obtain ⟨hname, hnames⟩ := List.forall_mem_cons.1 h
    rw [Identifier.toList_uniqueName_cons, Identifier.toList_quote, List.cons_append,
      List.append_assoc]
    exact .name (hname _ (by simp)) (.other (by decide) (ih hnames))

/-- By the rule that they are written by, paths of any names are well nested. -/
theorem wellNested_uniqueName {names : List String} (hne : names ≠ []) :
    WellNested .undoubled (Identifier.uniqueName names) := by
  obtain ⟨name, names, rfl⟩ := List.exists_cons_of_ne_nil hne
  exact ⟨[], marks_uniqueName fun n _ _ hrest => ⟨⟨n.toList, rfl⟩, hrest⟩, .nil⟩

theorem isBlankText_uniqueName {names : List String} (hne : names ≠ []) :
    Text.isBlankText (Identifier.uniqueName names) = false := by
  obtain ⟨name, names, rfl⟩ := List.exists_cons_of_ne_nil hne
  obtain ⟨cs, hcs⟩ := Identifier.bracketed_uniqueName name names
  rw [Text.isBlankText, hcs]
  rfl

/-- A text that ends inside of a name is refused. -/
theorem not_balanced_of_unended {before ms inside : List Char} (hms : Marks .first before ms)
    (hinside : ']' ∉ inside) (stack : List Char) :
    balanceFrom .code stack (before ++ '[' :: inside) ≠ .ok () := by
  rw [hms.balanceFrom]
  have hsubset := hms.subset
  clear hms
  induction ms generalizing stack with
  | nil =>
    have hbracket := balanceFrom_bracket hinside stack []
    rw [List.append_nil] at hbracket
    rw [List.nil_append, balanceFrom_cons]
    intro h
    cases hbracket.symm.trans h
  | cons m ms ih =>
    obtain ⟨hm, hsubset⟩ := List.cons_subset.1 hsubset
    rw [List.cons_append, balanceFrom_cons, next_mark hm]
    intro h
    obtain ⟨stack', -, h⟩ := bind_eq_ok.1 h
    exact ih stack' hsubset h

/-! ## The reader -/

/-- **Which fragments are accepted.** The reader takes exactly the texts that are not blank and are
well nested, each name ending at its first closing bracket. That is how names are written as long as
none of them holds a closing bracket. A well nested text is accepted too if nothing opens or closes
in a name from a closing bracket on; so is the written path of such names. No text is accepted that
ends inside of a name. -/
theorem fragments_accepted (text : String) :
    ((∃ e, fragment text = .ok e) ↔
      Text.isBlankText text = false ∧ WellNested .first text) ∧
    (¬DoublesBracket text.toList →
      ((∃ e, fragment text = .ok e) ↔
        Text.isBlankText text = false ∧ WellNested .undoubled text)) ∧
    (Text.isBlankText text = false → WellNested .plainly text → ∃ e, fragment text = .ok e) ∧
    (∀ names, names ≠ [] → (∀ name ∈ names, ClosesPlainly name) →
      text = Identifier.uniqueName names → ∃ e, fragment text = .ok e) ∧
    ∀ before ms inside : List Char, Marks .first before ms → ']' ∉ inside →
      text.toList = before ++ '[' :: inside → ¬∃ e, fragment text = .ok e := by
  have hplainly : Text.isBlankText text = false → WellNested .plainly text →
      ∃ e, fragment text = .ok e := by
    rintro hblank ⟨ms, hms, hnested⟩
    exact exists_fragment_iff.2 ⟨hblank, ms, hms.of_plainly, hnested⟩
  refine ⟨exists_fragment_iff, fun h => ?_, hplainly, fun names hne h htext => ?_,
    fun before ms inside hms hinside htext => ?_⟩
  · rw [exists_fragment_iff, wellNested_undoubled_iff h]
  · subst htext
    refine hplainly (isBlankText_uniqueName hne) ?_
    obtain ⟨name, names, rfl⟩ := List.exists_cons_of_ne_nil hne
    exact ⟨[], marks_uniqueName fun n hn _ => plainly_double (h n hn), .nil⟩
  · rintro ⟨e, he⟩
    obtain ⟨-, hbalanced, -⟩ := fragment_eq_ok.1 he
    rw [Balanced, checkBalance, htext] at hbalanced
    exact not_balanced_of_unended hms hinside [] hbalanced

theorem fragments_accepted_years :
    WellNested .undoubled "Filter(\x7b[Time].[(x]\x7d, \"]\" <> \")\"\"\")" ∧
      (∃ e, fragment "\x7b[a]]b]\x7d" = .ok e) ∧
      (∃ e, fragment (Identifier.uniqueName ["Time", "(]x]"]) = .ok e) ∧
      ¬∃ e, fragment "F([Time" = .ok e := by
  obtain ⟨-, hundoubled, -⟩ :=
    fragments_accepted "Filter(\x7b[Time].[(x]\x7d, \"]\" <> \")\"\"\")"
  obtain ⟨-, -, hplainly, -⟩ := fragments_accepted "\x7b[a]]b]\x7d"
  obtain ⟨-, -, -, hpath, -⟩ := fragments_accepted (Identifier.uniqueName ["Time", "(]x]"])
  obtain ⟨-, -, -, -, hunended⟩ := fragments_accepted "F([Time"
  have hsingle : ¬DoublesBracket "Filter(\x7b[Time].[(x]\x7d, \"]\" <> \")\"\"\")".toList :=
    fun h => absurd h.infix (by decide +kernel)
  refine ⟨?_, hplainly (by decide +kernel) ?_, hpath _ (List.cons_ne_nil _ _) ?_ rfl, ?_⟩
  · exact ((hundoubled hsingle).1 (isOk_eq_true.1 (by decide +kernel))).2
  · have htext : "\x7b[a]]b]\x7d".toList =
        '{' :: '[' :: (Text.double ']' "a]b".toList ++ [']', '}']) := by decide +kernel
    have hname : NameRule.plainly (Text.double ']' "a]b".toList) ['}'] :=
      plainly_double (by decide +kernel) (by simp)
    refine ⟨['{', '}'], ?_, .pair (by decide) .nil .nil⟩
    rw [htext]
    exact .mark (by decide) (.name hname (.mark (by decide) .nil))
  · decide +kernel
  · have hmarks : Marks .first ['F', '('] ['('] := .other (by decide) (.mark (by decide) .nil)
    exact hunended _ _ ['T', 'i', 'm', 'e'] hmarks (by decide) (by decide +kernel)

/-- The written path of one name is refused, and a text is accepted that has no end to its name. -/
theorem fragments_misread :
    (WellNested .undoubled (Identifier.uniqueName ["a](b"]) ∧
      ¬∃ e, fragment (Identifier.uniqueName ["a](b"]) = .ok e) ∧
    ¬WellNested .undoubled "[a]]" ∧ ∃ e, fragment "[a]]" = .ok e := by
  refine ⟨⟨wellNested_uniqueName (List.cons_ne_nil _ _), ?_⟩, ?_, ?_⟩
  · exact fun h => absurd (isOk_eq_true.2 h) (by decide +kernel)
  · rintro ⟨ms, hms, -⟩
    have htext : "[a]]".toList = ['[', 'a', ']', ']'] := by decide +kernel
    rw [htext] at hms
    obtain ⟨name, rest, h⟩ := exists_undouble hms
    have hnone : Text.undouble ']' ['a', ']', ']'] = none := by decide
    cases hnone.symm.trans h
  · exact isOk_eq_true.1 (by decide +kernel)

end CubeQuery.Expr
