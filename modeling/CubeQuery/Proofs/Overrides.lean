import CubeQuery.Proofs.Demands
import CubeQuery.Proofs.Fragments

/-!
# Overrides

An override is read in braces, and only the text with the braces around it is checked. The check
accepts every override that is balanced, and besides those that close the brace in front of them and
open another one for the brace behind them (`balanced_braced_iff`). Overrides of the first kind stay
within their braces wherever they stand; the others do not (`overrides_enclosed`).
-/

namespace CubeQuery
namespace Expr

/-! ## Texts in braces -/

/-- The text closes a brace that is opened before it. -/
def ClosesBrace (text : String) : Prop :=
  ∃ before behind, text = before ++ behind ∧ Balanced ("\x7b" ++ before)

/-- Between balanced parts, the text closes a brace that it has not opened, and opens one that it
does not close. -/
def Reopens (text : String) : Prop :=
  ∃ before between behind, text = before ++ "\x7d" ++ between ++ "\x7b" ++ behind ∧
    Balanced before ∧ Balanced between ∧ Balanced behind

theorem mem_braces : ('{', '}') ∈ pairs := by decide

/-- A nested row that ends in a closing character has the opening one between nested parts. -/
theorem Nested.of_concat {o c : Char} (hoc : (o, c) ∈ pairs) {ms : List Char}
    (h : Nested (ms ++ [c])) :
    ∃ before inner, ms = before ++ o :: inner ∧ Nested before ∧ Nested inner := by
  generalize hrow : ms ++ [c] = row at h
  induction h generalizing ms with
  | nil => simp at hrow
  | @pair o' c' inside rest hoc' hi hr _ ihr =>
    obtain rfl | ⟨rest, d, rfl⟩ := List.eq_nil_or_concat' rest
    · have hrow' : ms ++ [c] = (o' :: inside) ++ [c'] := hrow
      obtain ⟨rfl, hc⟩ := List.append_inj' hrow' rfl
      obtain rfl : c = c' := List.singleton_inj.1 hc
      obtain rfl : o = o' := by
        rcases mem_pairs.1 hoc with ⟨rfl, rfl⟩ | ⟨rfl, rfl⟩ <;>
          rcases mem_pairs.1 hoc' with ⟨rfl, h⟩ | ⟨rfl, h⟩ <;> first | rfl | cases h
      exact ⟨[], inside, rfl, .nil, hi⟩
    · have hrow' : ms ++ [c] = (o' :: (inside ++ c' :: rest)) ++ [d] := by simpa using hrow
      obtain ⟨rfl, hd⟩ := List.append_inj' hrow' rfl
      obtain ⟨before, inner, rfl, hbefore, hinner⟩ := ihr (congrArg (rest ++ ·) hd)
      exact ⟨o' :: (inside ++ c' :: before), inner, by simp, .pair hoc' hi hbefore, hinner⟩

/-- Where a text shows a mark, it is split by the mark. -/
theorem Marks.split {cs ms ns : List Char} {m : Char} (h : Marks .first cs (ms ++ m :: ns)) :
    ∃ before behind, cs = before ++ m :: behind ∧ Marks .first before ms ∧
      Marks .first behind ns := by
  generalize hrow : ms ++ m :: ns = row at h
  induction h generalizing ms with
  | nil => simp at hrow
  | mark hc h ih =>
    cases ms with
    | nil =>
      obtain ⟨rfl, rfl⟩ := List.cons.inj hrow
      exact ⟨[], _, rfl, .nil, h⟩
    | cons m' ms =>
      obtain ⟨rfl, hrow'⟩ := List.cons.inj hrow
      obtain ⟨before, behind, rfl, hbefore, hbehind⟩ := ih hrow'
      exact ⟨m' :: before, behind, rfl, .mark hc hbefore, hbehind⟩
  | other hc _ ih =>
    obtain ⟨before, behind, rfl, hbefore, hbehind⟩ := ih hrow
    exact ⟨_ :: before, behind, rfl, .other hc hbefore, hbehind⟩
  | literal value _ ih =>
    obtain ⟨before, behind, rfl, hbefore, hbehind⟩ := ih hrow
    exact ⟨_, behind, by simp, .literal value hbefore, hbehind⟩
  | @name inside cs ms' hn _ ih =>
    obtain ⟨before, behind, rfl, hbefore, hbehind⟩ := ih hrow
    exact ⟨'[' :: (inside ++ ']' :: before), behind, by simp, .name hn hbefore, hbehind⟩

theorem balanced_ofList {cs ms : List Char} (h : Marks .first cs ms) (hms : Nested ms) :
    Balanced (String.ofList cs) :=
  wellNested_iff_balanced.1 ⟨ms, by rwa [String.toList_ofList], hms⟩

theorem toList_braced (text : String) :
    ("\x7b" ++ text ++ "\x7d").toList = '{' :: (text.toList ++ ['}']) := by
  simp

theorem Balanced.braced {text : String} (h : Balanced text) :
    Balanced ("\x7b" ++ text ++ "\x7d") := by
  rw [Balanced, toList_braced, checkBalance]
  exact balanceFrom_append h ['{'] ['}']

/-- What is read behind an open brace, with parentheses and braces behind it, closes the brace
between nested parts of what it shows. -/
theorem exists_answer {cs behind : List Char} (hbehind : behind ⊆ marks)
    (h : balanceFrom .code ['{'] (cs ++ behind) = .ok ()) :
    ∃ ms inner rest, Marks .first cs ms ∧ ms ++ behind = inner ++ '}' :: rest ∧
      Nested inner ∧ Nested rest := by
  obtain ⟨ms, hms⟩ : MarksFrom .code cs := marksFrom_of_balanceFrom hbehind h
  rw [hms.balanceFrom] at h
  have hrow := answers_of_balanceFrom (List.append_subset.2 ⟨hms.subset, hbehind⟩) h
  generalize hshown : ms ++ behind = row at hrow
  cases hrow with
  | close hoc hinner hr =>
    cases hr with
    | done hrest =>
      rcases mem_pairs.1 hoc with ⟨hbrace, -⟩ | ⟨-, rfl⟩
      · cases hbrace
      · exact ⟨ms, _, _, hms, hshown, hinner, hrest⟩

/-- In braces, the balanced texts are accepted and those that reopen the braces, no others. -/
theorem balanced_braced_iff {text : String} :
    Balanced ("\x7b" ++ text ++ "\x7d") ↔ Balanced text ∨ Reopens text := by
  constructor
  · intro h
    rw [Balanced, toList_braced, checkBalance, balanceFrom_open mem_braces] at h
    obtain ⟨ms, inner, rest, hms, hrow, hinner, hrest⟩ := exists_answer (by decide) h
    obtain rfl | ⟨rest, d, rfl⟩ := List.eq_nil_or_concat' rest
    · obtain ⟨rfl, -⟩ := List.append_inj' hrow rfl
      exact .inl (wellNested_iff_balanced.1 ⟨ms, hms, hinner⟩)
    · rw [← List.cons_append, ← List.append_assoc] at hrow
      obtain ⟨rfl, hd⟩ := List.append_inj' hrow rfl
      rw [← hd] at hrest
      obtain ⟨between, last, rfl, hbetween, hlast⟩ := hrest.of_concat mem_braces
      obtain ⟨first, others, htext, hfirst, hothers⟩ := hms.split
      obtain ⟨middle, tail, rfl, hmiddle, hend⟩ := hothers.split
      refine .inr ⟨String.ofList first, String.ofList middle, String.ofList tail, ?_,
        balanced_ofList hfirst hinner, balanced_ofList hmiddle hbetween, balanced_ofList hend hlast⟩
      rw [String.ext_iff, htext]
      simp
  · rintro (h | ⟨before, between, behind, rfl, hbefore, hbetween, hbehind⟩)
    · exact h.braced
    · have h := (hbefore.braced.append hbetween).append hbehind.braced
      simpa [String.append_assoc] using h

/-- A balanced text never closes a brace that is opened before it. -/
theorem Balanced.not_closesBrace {text : String} (h : Balanced text) : ¬ClosesBrace text := by
  rintro ⟨before, behind, rfl, hbefore⟩
  rw [Balanced, String.toList_append, checkBalance] at hbefore
  have hopen : balanceFrom .code ['{'] (before.toList ++ []) = .ok () := by
    rw [List.append_nil]
    exact (balanceFrom_open mem_braces [] _).symm.trans hbefore
  obtain ⟨ms, inner, rest, hms, hrow, hinner, hrest⟩ := exists_answer (List.nil_subset _) hopen
  rw [List.append_nil] at hrow
  subst hrow
  -- The row of the text in front of the closing brace is nested, and nothing is open behind it.
  rw [Balanced, String.toList_append, checkBalance, hms.balanceFrom, List.append_assoc,
    hinner.balanceFrom, List.cons_append] at h
  obtain ⟨outer, hopen, -⟩ := (balanceFrom_close mem_braces).1 h
  cases hopen

theorem Reopens.mem {text : String} (h : Reopens text) : '{' ∈ text.toList := by
  obtain ⟨before, between, behind, rfl, -⟩ := h
  simp

theorem Reopens.closesBrace {text : String} (h : Reopens text) : ClosesBrace text := by
  obtain ⟨before, between, behind, rfl, hbefore, -, -⟩ := h
  exact ⟨before ++ "\x7d", between ++ "\x7b" ++ behind, by simp [String.append_assoc],
    by simpa [String.append_assoc] using hbefore.braced⟩

/-- The text stays in the braces that are put around it: it is balanced by itself, it does not close
the brace in front of it, and behind it that brace is the innermost open one again. -/
structure Enclosed (text : String) : Prop where
  balanced : Balanced text
  open_before : ¬ClosesBrace text
  open_behind : ∀ stack rest, balanceFrom .code ('{' :: stack) (text.toList ++ rest) =
    balanceFrom .code ('{' :: stack) rest

theorem enclosed_iff_balanced {text : String} : Enclosed text ↔ Balanced text :=
  ⟨Enclosed.balanced, fun h =>
    ⟨h, h.not_closesBrace, fun stack rest => balanceFrom_append h ('{' :: stack) rest⟩⟩

end Expr

/-! ## Overrides of a query -/

/-- Compilation looks at the axis: at the filter axis only if it has hierarchies. -/
def Query.Compiles (q : Query) : Location → Prop
  | .unused => False
  | .columns | .rows => True
  | .filter => (q.axes.get .filter).hierarchies ≠ []

/-- The text takes the place of a set that the statement of the query needs: that of an axis, that
of a hierarchy on an axis without an override, or that of a level in use on a hierarchy without
one. -/
inductive Query.OverriddenBy (q : Query) : String → Prop where
  | axis {l : Location} {text : String} (hl : q.Compiles l)
    (ho : (q.axes.get l).shape.base.override = some text) : q.OverriddenBy text
  | hierarchy {l : Location} {h : HierarchySelection} {text : String} (hl : q.Compiles l)
    (hh : h ∈ q.joinedOn l) (ho : h.shape.base.override = some text) : q.OverriddenBy text
  | level {l : Location} {h : HierarchySelection} {s : LevelSelection} {text : String}
    (hl : q.Compiles l) (hh : h ∈ q.joinedOn l) (hnone : h.shape.base.override = none)
    (hs : s ∈ h.activeLevels) (ho : s.shape.override = some text) : q.OverriddenBy text

namespace Compiler

open CubeQuery.Expr (Balanced ClosesBrace Enclosed Reopens)

theorem mem_texts_of_override {s : SetShape} {text : String} (h : s.override = some text) :
    "\x7b" ++ text ++ "\x7d" ∈ s.texts := by
  rw [SetShape.texts, h]
  exact List.mem_append_left _ (List.mem_singleton_self _)

theorem mem_orderedTexts_of_override {s : OrderedShape} {text : String}
    (h : s.base.override = some text) : "\x7b" ++ text ++ "\x7d" ∈ s.texts :=
  List.mem_append_left _ (mem_texts_of_override h)

variable {c : Compiler} {q : Query}

/-- What an axis that is looked at demands, the statement demands. -/
theorem demanded_of_axisDemands {l : Location} {d : Demand} (hl : q.Compiles l)
    (h : d ∈ c.axisDemands q l) : d ∈ c.demands q := by
  cases l with
  | unused => exact hl.elim
  | columns => simp [demands, h]
  | rows => simp [demands, h]
  | filter =>
    have hne : ¬(q.axes.get .filter).hierarchies.isEmpty = true := fun he =>
      hl (List.isEmpty_iff.1 he)
    rw [demands, if_neg hne]
    exact List.mem_append_right _ h

/-- An override is demanded in its braces. -/
theorem demanded_of_overriddenBy {text : String} (h : q.OverriddenBy text) :
    .text ("\x7b" ++ text ++ "\x7d") ∈ c.demands q := by
  cases h with
  | axis hl ho =>
    refine demanded_of_axisDemands hl (List.mem_append_right _ (List.mem_append_left _ ?_))
    rw [ho, Option.isSome_some, Bool.true_or, if_pos rfl]
    exact List.mem_map_of_mem (mem_orderedTexts_of_override ho)
  | hierarchy hl hh ho =>
    refine demanded_of_axisDemands hl (List.mem_append_left _ (List.mem_flatMap.2 ⟨_, hh, ?_⟩))
    rw [hierarchyDemands, ho, Option.isSome_some, if_pos rfl]
    exact List.mem_map_of_mem (mem_orderedTexts_of_override ho)
  | @level l h s text hl hh hnone hs ho =>
    refine demanded_of_axisDemands hl (List.mem_append_left _ (List.mem_flatMap.2 ⟨_, hh, ?_⟩))
    have hne : ¬(h.activeLevels.isEmpty && h.activeCalculatedMembers.isEmpty) = true := by
      rw [List.isEmpty_eq_false_iff.2 (List.ne_nil_of_mem hs), Bool.false_and]
      exact Bool.false_ne_true
    rw [hierarchyDemands, hnone, Option.isSome_none, if_neg Bool.false_ne_true, if_neg hne]
    refine List.mem_append_left _ (List.mem_flatMap.2 ⟨s, hs, List.mem_append_right _ ?_⟩)
    exact List.mem_map_of_mem (List.mem_append_right _ (mem_texts_of_override ho))

theorem met_of_statement {s : Statement} (h : c.statement q = .ok s) {d : Demand}
    (hd : d ∈ c.demands q) : c.refusal? d = none := by
  have hmet : c.firstRefusal? (c.demands q) = none := by
    rw [← statement_failure?, h]
    rfl
  exact List.findSome?_eq_none_iff.1 hmet d hd

variable {source : MemberSource} {options : Options}

/-- An override is read as the text with the braces around it. -/
theorem setExpr_eq_ok {text : String} {e : Expr} :
    setExpr { source := source, options := options } text = .ok e ↔
      (Balanced text ∨ Reopens text) ∧ .raw ("\x7b" ++ text ++ "\x7d") = e := by
  have hblank : Text.isBlankText ("\x7b" ++ text ++ "\x7d") = false := by
    rw [Text.isBlankText, Expr.toList_braced]
    rfl
  have htrim : Text.trimmed ("\x7b" ++ text ++ "\x7d") = "\x7b" ++ text ++ "\x7d" := by
    rw [Text.trimmed, Expr.toList_braced, Text.trim_eq_self (by decide) (by decide),
      ← Expr.toList_braced, String.ofList_toList]
  rw [setExpr, expr, mapError_eq_ok, Expr.fragment_eq_ok, Expr.balanced_braced_iff, htrim]
  exact ⟨fun h => h.2, fun h => ⟨hblank, h⟩⟩

/-- **Which overrides stay in their braces.** An override is accepted exactly if it is balanced or
reopens the braces around it, and is written between them as it is. So of the overrides of a query
that compiles, each one that does not reopen its braces stays in them. Those that do are not
balanced, and they close the brace in front of them. -/
theorem overrides_enclosed (source : MemberSource) (options : Options) :
    (∀ text e, setExpr { source := source, options := options } text = .ok e ↔
      (Enclosed text ∨ Reopens text) ∧ .raw ("\x7b" ++ text ++ "\x7d") = e) ∧
    (∀ q s, statement { source := source, options := options } q = .ok s →
      ∀ text, q.OverriddenBy text → ¬Reopens text → Enclosed text) ∧
    ∀ text, Reopens text → ¬Balanced text ∧ ClosesBrace text := by
  refine ⟨fun text e => ?_, fun q s hs text ho hr => ?_, fun text hr => ?_⟩
  · rw [setExpr_eq_ok, Expr.enclosed_iff_balanced]
  · obtain ⟨e, he⟩ := failure?_eq_none.1 (met_of_statement hs (demanded_of_overriddenBy ho))
    exact Expr.enclosed_iff_balanced.2 ((setExpr_eq_ok.1 he).1.resolve_right hr)
  · exact ⟨fun h => h.not_closesBrace hr.closesBrace, hr.closesBrace⟩

/-- The years on the rows are replaced by one text, and the columns by another. -/
def overridden (hierarchy axis : String) : Query :=
  (Query.new "q" sales).afterAll [.move "Time" .rows none,
    .hierarchy "Time" (.order (.shape (.override hierarchy))),
    .axis .columns (.order (.shape (.override axis)))]

theorem overrides_enclosed_namedBrace :
    ∃ s, statement { source := sales.source } (overridden "[Time].[\x7d]" "") = .ok s ∧
      Enclosed "[Time].[\x7d]" ∧ Enclosed "" := by
  obtain ⟨s, hs⟩ : ∃ s,
      statement { source := sales.source } (overridden "[Time].[\x7d]" "") = .ok s :=
    isOk_eq_true.1 (by decide +kernel)
  have henclosed := (overrides_enclosed sales.source {}).2.1 _ s hs
  have hrows : ((overridden "[Time].[\x7d]" "").joinedOn .rows).any
      (fun h => decide (h.shape.base.override = some "[Time].[\x7d]")) = true := by decide +kernel
  obtain ⟨h, hh, ho⟩ := List.any_eq_true.1 hrows
  have hcolumns : ((overridden "[Time].[\x7d]" "").axes.get .columns).shape.base.override =
      some "" := by decide +kernel
  have hrow : (overridden "[Time].[\x7d]" "").OverriddenBy "[Time].[\x7d]" :=
    .hierarchy (l := .rows) trivial hh (of_decide_eq_true ho)
  refine ⟨s, hs, henclosed _ hrow fun hr => ?_,
    henclosed _ (.axis (l := .columns) trivial hcolumns) fun hr => ?_⟩
  · exact absurd hr.mem (by decide +kernel)
  · exact absurd hr.mem (by decide +kernel)

/-- In braces, the set of the columns and that of another axis. -/
def twoAxes : String := "[Time].[2024]\x7d ON COLUMNS, \x7b[Store].[Peru]"

/-- The columns are written as two axes. -/
theorem overrides_unenclosed :
    ∃ s, statement { source := sales.source } (overridden "x" twoAxes) = .ok s ∧
      (overridden "x" twoAxes).OverriddenBy twoAxes ∧
      Text.isBlankText twoAxes = false ∧ ¬Balanced twoAxes := by
  obtain ⟨s, hs⟩ : ∃ s, statement { source := sales.source } (overridden "x" twoAxes) = .ok s :=
    isOk_eq_true.1 (by decide +kernel)
  have hcolumns : ((overridden "x" twoAxes).axes.get .columns).shape.base.override =
      some twoAxes := by decide +kernel
  refine ⟨s, hs, .axis (l := .columns) trivial hcolumns, by decide +kernel, ?_⟩
  rw [Expr.balanced_iff]
  decide +kernel

end Compiler
end CubeQuery
