import CubeQuery.Identifier
import Mathlib.Data.Set.Function

/-!
# Identifiers read back

A path of names written with each name in brackets is read back as the same path, whatever
characters the names hold (`segments?_uniqueName`). A closing bracket inside a name is doubled, and
behind the last one of a name there is a dot or the end, so the run of brackets cannot be read past.
It follows that different paths are written differently and that reading and writing again settles
on one text (`identifiers_read_back`).

`IsPathText` says of a text that it is such a written form: the text is then, character for
character, what reading and writing make of it.
-/

namespace CubeQuery

namespace Identifier

/-! ## One name -/

theorem toList_quote (name : String) :
    (quote name).toList = '[' :: (Text.double ']' name.toList ++ [']']) := by
  rw [quote, String.toList_ofList, List.cons_append]

/-- A name in brackets is read with the blanks behind it, if a dot or nothing follows those. -/
theorem readName_of_brackets {cs name behind rest : List Char}
    (hcs : Text.trimStart cs = '[' :: (Text.double ']' name ++ ']' :: (behind ++ rest)))
    (hbehind : behind.all Text.isBlank = true) (hrest : rest = [] ∨ ∃ ds, rest = '.' :: ds) :
    readName cs = some (name, rest) := by
  have hnext : (behind ++ rest).head? ≠ some ']' := by
    cases behind with
    | nil => rcases hrest with rfl | ⟨ds, rfl⟩ <;> simp
    | cons b behind =>
      have hb := Text.notMem_of_blank hbehind (c := ']') (by decide)
      simpa [eq_comm] using (not_or.1 (List.mem_cons.not.1 hb)).1
  have htrim : Text.trimStart (behind ++ rest) = rest := by
    rw [Text.trimStart_behind hbehind]
    rcases hrest with rfl | ⟨ds, rfl⟩
    · rfl
    · exact Text.trimStart_cons (by decide) ds
  rw [readName, hcs]
  simp only [Text.undouble_double ']' name _ hnext, Option.map_some, htrim]

theorem readName_quote (name : String) {rest : List Char}
    (h : rest = [] ∨ ∃ cs, rest = '.' :: cs) :
    readName ((quote name).toList ++ rest) = some (name.toList, rest) := by
  have hcs : Text.trimStart ((quote name).toList ++ rest) =
      '[' :: (Text.double ']' name.toList ++ ']' :: ([] ++ rest)) := by
    rw [toList_quote, List.cons_append, Text.trimStart_cons (by decide), List.append_assoc]
    rfl
  exact readName_of_brackets hcs rfl h

/-! ## Paths -/

theorem toList_uniqueName (names : List String) :
    (uniqueName names).toList = ['.'].intercalate (names.map fun n => (quote n).toList) := by
  rw [uniqueName, String.toList_intercalate, List.map_map]
  rfl

theorem toList_uniqueName_cons (name second : String) (names : List String) :
    (uniqueName (name :: second :: names)).toList =
      (quote name).toList ++ '.' :: (uniqueName (second :: names)).toList := by
  rw [toList_uniqueName, toList_uniqueName, List.map_cons, List.map_cons,
    List.intercalate_cons_cons]
  simp

theorem uniqueName_singleton (name : String) : uniqueName [name] = quote name := by
  rw [← String.toList_inj, toList_uniqueName]
  simp

/-- A path goes on behind the first name as far as it can be read. -/
theorem readPath_eq (cs : List Char) :
    readPath cs = (readName cs).bind fun (name, rest) =>
      match rest with
      | [] => some [name]
      | c :: rest => if c = '.' then (readPath rest).map (name :: ·) else none := by
  rw [readPath]
  split <;> simp_all

/-- A path ends with the name that nothing follows. -/
theorem readPath_of_last {cs name : List Char} (h : readName cs = some (name, [])) :
    readPath cs = some [name] := by
  rw [readPath_eq, h, Option.bind_some]

/-- Behind a dot a path goes on. -/
theorem readPath_of_dot {cs name rest : List Char} (h : readName cs = some (name, '.' :: rest)) :
    readPath cs = (readPath rest).map (name :: ·) := by
  rw [readPath_eq, h, Option.bind_some]
  exact if_pos rfl

theorem readPath_uniqueName (name : String) (names : List String) :
    readPath (uniqueName (name :: names)).toList = some ((name :: names).map String.toList) := by
  induction names generalizing name with
  | nil =>
    have hread := readName_quote name (.inl rfl)
    rw [List.append_nil] at hread
    rw [uniqueName_singleton, readPath_of_last hread]
    rfl
  | cons second names ih =>
    have hread := readName_quote name (.inr ⟨(uniqueName (second :: names)).toList, rfl⟩)
    rw [toList_uniqueName_cons, readPath_of_dot hread, ih]
    rfl

/-- A written path stands between brackets. -/
theorem bracketed_uniqueName (name : String) (names : List String) :
    ∃ cs, (uniqueName (name :: names)).toList = '[' :: (cs ++ [']']) := by
  induction names generalizing name with
  | nil => exact ⟨_, by rw [uniqueName_singleton, toList_quote]⟩
  | cons second names ih =>
    obtain ⟨cs, hcs⟩ := ih second
    refine ⟨Text.double ']' name.toList ++ [']'] ++ '.' :: '[' :: cs, ?_⟩
    rw [toList_uniqueName_cons, toList_quote, hcs]
    simp

/-- Whatever characters the names hold, they are read back as they were written. -/
theorem segments?_uniqueName {names : List String} (h : names ≠ []) :
    segments? (uniqueName names) = some names := by
  obtain ⟨name, names, rfl⟩ := List.exists_cons_of_ne_nil h
  obtain ⟨cs, hcs⟩ := bracketed_uniqueName name names
  have htrim : Text.trim (uniqueName (name :: names)).toList =
      (uniqueName (name :: names)).toList := by
    rw [hcs, Text.trim_eq_self (by decide) (by decide)]
  rw [segments?, htrim, readPath_uniqueName, Option.map_some, List.map_map]
  simp [Function.comp_def]

/-- No two paths are written alike. -/
theorem uniqueName_inj {names names' : List String} (h : names ≠ []) (h' : names' ≠ [])
    (heq : uniqueName names = uniqueName names') : names = names' := by
  have hread := segments?_uniqueName h
  rw [heq, segments?_uniqueName h'] at hread
  exact (Option.some.inj hread).symm

/-! ## Any text -/

theorem readPath_ne_nil {cs : List Char} {names : List (List Char)}
    (h : readPath cs = some names) : names ≠ [] := by
  rw [readPath] at h
  split at h
  · cases h
  · cases h
    exact List.cons_ne_nil _ _
  · split at h
    · obtain ⟨others, -, rfl⟩ := Option.map_eq_some_iff.1 h
      exact List.cons_ne_nil _ _
    · cases h

theorem segments?_ne_nil {text : String} {names : List String}
    (h : segments? text = some names) : names ≠ [] := by
  obtain ⟨names, hnames, rfl⟩ := Option.map_eq_some_iff.1 h
  simpa using readPath_ne_nil hnames

/-- What was read of a text and written again is read as the same. -/
theorem parse?_quoted {text : String} {id : Identifier} (h : parse? text = some id) :
    parse? id.quoted = some id := by
  obtain ⟨names, hnames, rfl⟩ := Option.map_eq_some_iff.1 h
  rw [parse?, quoted, segments?_uniqueName (segments?_ne_nil hnames)]
  rfl

/-- **Identifiers read back.** Names of any characters, written as a path, are read back as they
were. So no two paths are written alike, and what was read of any text is still the same after it
has been written and read once more. -/
theorem identifiers_read_back :
    (∀ names, names ≠ [] → segments? (uniqueName names) = some names) ∧
      Set.InjOn uniqueName {names | names ≠ []} ∧
        ∀ text id, parse? text = some id → parse? id.quoted = some id := by
  refine ⟨fun names h => segments?_uniqueName h, fun names h names' h' heq => ?_,
    fun text id h => parse?_quoted h⟩
  have hread := segments?_uniqueName h
  rw [heq, segments?_uniqueName h'] at hread
  exact (Option.some.inj hread).symm

/-- Empty names, blanks, dots and runs of brackets; and a text with bare names and blanks. -/
theorem identifiers_read_back_brackets :
    segments? (uniqueName ["", " .[x].", "a]]", "]"]) = some ["", " .[x].", "a]]", "]"] ∧
      uniqueName ["a].[b"] ≠ uniqueName ["a", "b"] ∧
        parse? (Identifier.mk ["Time", "a] "]).quoted = some ⟨["Time", "a] "]⟩ := by
  obtain ⟨hread, hinj, hagain⟩ := identifiers_read_back
  refine ⟨hread _ (by decide), fun heq => ?_, hagain " Time . [a]] ] " _ (by decide +kernel)⟩
  exact absurd (hinj (List.cons_ne_nil _ _) (List.cons_ne_nil _ _) heq) (by decide)

/-! ## Written forms -/

/-- The text is the written form of a path. -/
def IsPathText (text : String) : Prop := ∃ names, names ≠ [] ∧ uniqueName names = text

theorem isPathText_uniqueName {names : List String} (h : names ≠ []) :
    IsPathText (uniqueName names) := ⟨names, h, rfl⟩

theorem isPathText_quote (name : String) : IsPathText (quote name) :=
  ⟨[name], List.cons_ne_nil _ _, uniqueName_singleton name⟩

/-- A written form is read, and writing what was read gives the very text. -/
theorem IsPathText.parse? {text : String} (h : IsPathText text) :
    ∃ id, Identifier.parse? text = some id ∧ id.quoted = text := by
  obtain ⟨names, hne, rfl⟩ := h
  exact ⟨⟨names⟩, by rw [Identifier.parse?, segments?_uniqueName hne]; rfl, rfl⟩

end Identifier
end CubeQuery
