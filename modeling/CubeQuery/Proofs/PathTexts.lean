import CubeQuery.Proofs.ReadBack
import Mathlib.Data.List.TakeWhile

/-!
# Which texts are paths

A path that is read need not be written the way that paths are written here: names may stand bare
and blanks may stand around them. `SpellsPath` is the grammar of what can be read, with nothing said
about how: pieces with a dot between neighbours, each of which spells a name once the blanks around
it are gone (`Spells`). A dot inside of brackets parts nothing, and neither does it matter that a
text can be cut at it, since no piece that begins with a bracket and is cut there spells a name.

The reader goes through the text once and knows its pieces by their first character. It reads the
names that the text spells, and nothing else (`paths_read`).
-/

namespace CubeQuery

namespace Identifier

/-! ## Pieces -/

/-- A piece of a path, without the blanks around it, spells a name. -/
inductive Spells : List Char → List Char → Prop where
  /-- In brackets, with every closing bracket in it doubled, a name can be any text. -/
  | quoted (name : List Char) : Spells ('[' :: (Text.double ']' name ++ [']'])) name
  | bare {name : List Char} (hne : name ≠ []) (hdot : '.' ∉ name)
    (hopen : name.head? ≠ some '[') : Spells name name

theorem Spells.ne_nil {text name : List Char} (h : Spells text name) : text ≠ [] := by
  cases h with
  | quoted => exact List.cons_ne_nil _ _
  | bare hne => exact hne

theorem spells_of_readName {cs name rest : List Char} (h : readName cs = some (name, rest)) :
    ∃ piece, cs = piece ++ rest ∧ Spells (Text.trim piece) name := by
  obtain ⟨before, hbefore, hcs⟩ := Text.exists_trimStart cs
  rcases readName_eq_some h with ⟨behind, hbody, rfl⟩ | ⟨hopen, hne, rfl, rfl⟩
  · obtain ⟨blanks, hblanks, hbehind⟩ := Text.exists_trimStart behind
    refine ⟨before ++ ('[' :: (Text.double ']' name ++ [']']) ++ blanks), ?_, ?_⟩
    · conv_lhs => rw [hcs, hbody, hbehind]
      simp
    · rw [Text.trim_behind hbefore, Text.trim_before hblanks,
        Text.trim_eq_self (by decide) (by decide)]
      exact .quoted name
  · have hname := Text.trimEnd_prefix ((Text.trimStart cs).takeWhile (· != '.'))
    refine ⟨before ++ (Text.trimStart cs).takeWhile (· != '.'), ?_, ?_⟩
    · rw [List.append_assoc, List.takeWhile_append_dropWhile, ← hcs]
    · rw [Text.trim_behind hbefore, Text.trim, Text.trimStart_of_prefix (List.takeWhile_prefix _)]
      refine .bare hne (fun hdot => ?_) fun hhead => ?_
      · simpa using List.mem_takeWhile_imp (hname.subset hdot)
      · obtain ⟨others, hothers⟩ := List.head?_eq_some_iff.1 hhead
        rw [hothers] at hname
        obtain ⟨rest, hrest⟩ := hname.trans (List.takeWhile_prefix _)
        exact hopen _ hrest.symm

/-- A bare name is read with the blanks behind it, if a dot or nothing follows those. -/
theorem readName_of_bare {cs name behind rest : List Char} (hne : name ≠ []) (hdot : '.' ∉ name)
    (hopen : name.head? ≠ some '[') (hcs : Text.trimStart cs = name ++ (behind ++ rest))
    (hname : Text.trimEnd (name ++ behind) = name) (hbehind : behind.all Text.isBlank = true)
    (hrest : rest = [] ∨ ∃ ds, rest = '.' :: ds) : readName cs = some (name, rest) := by
  have hplain : ∀ c ∈ name ++ behind, (c != '.') = true := by
    intro c hc
    rw [bne_iff_ne]
    rintro rfl
    rcases List.mem_append.1 hc with hc | hc
    · exact hdot hc
    · exact Text.notMem_of_blank hbehind (by decide) hc
  rw [readName, hcs]
  split
  · next body hbody =>
    obtain ⟨c, text, rfl⟩ := List.exists_cons_of_ne_nil hne
    obtain ⟨rfl, -⟩ := List.cons.inj hbody
    exact absurd rfl hopen
  · rw [← List.append_assoc, List.takeWhile_append_of_pos hplain,
      List.dropWhile_append_of_pos hplain]
    rcases hrest with rfl | ⟨ds, rfl⟩ <;> simp [hname, hne]

theorem readName_of_spells {piece name : List Char} (h : Spells (Text.trim piece) name)
    {rest : List Char} (hrest : rest = [] ∨ ∃ cs, rest = '.' :: cs) :
    readName (piece ++ rest) = some (name, rest) := by
  obtain ⟨behind, hbehind, hpiece⟩ := Text.exists_trimEnd (Text.trimStart piece)
  have htext : Text.trimEnd (Text.trim piece ++ behind) = Text.trim piece :=
    (congrArg Text.trimEnd hpiece).symm
  change Text.trimStart piece = Text.trim piece ++ behind at hpiece
  have hnonempty : Text.trimStart piece ≠ [] := by
    rw [hpiece]
    exact fun hnil => h.ne_nil (List.append_eq_nil_iff.1 hnil).1
  have hcs : Text.trimStart (piece ++ rest) = Text.trim piece ++ (behind ++ rest) := by
    rw [Text.trimStart_append hnonempty, hpiece, List.append_assoc]
  generalize Text.trim piece = text at *
  cases h with
  | quoted name =>
    refine readName_of_brackets ?_ hbehind hrest
    rw [hcs, List.cons_append, List.append_assoc]
    rfl
  | bare hne hdot hopen => exact readName_of_bare hne hdot hopen hcs htext hbehind hrest

/-! ## Paths -/

/-- The text is made of pieces with a dot between neighbours, and the pieces, without the blanks
around them, spell the names. -/
inductive SpellsPath : List Char → List (List Char) → Prop where
  | last {piece name : List Char} (h : Spells (Text.trim piece) name) : SpellsPath piece [name]
  | dot {piece name rest : List Char} {names : List (List Char)}
    (h : Spells (Text.trim piece) name) (hrest : SpellsPath rest names) :
    SpellsPath (piece ++ '.' :: rest) (name :: names)

theorem spellsPath_of_readPath {cs : List Char} {names : List (List Char)}
    (h : readPath cs = some names) : SpellsPath cs names := by
  fun_induction readPath cs generalizing names with
  | case1 => cases h
  | case2 cs name hread =>
    cases h
    obtain ⟨piece, rfl, hspells⟩ := spells_of_readName hread
    rw [List.append_nil]
    exact .last hspells
  | case3 cs name rest hread ih =>
    obtain ⟨others, hothers, rfl⟩ := Option.map_eq_some_iff.1 h
    obtain ⟨piece, rfl, hspells⟩ := spells_of_readName hread
    exact .dot hspells (ih hothers)
  | case4 => cases h

theorem SpellsPath.readPath_eq {cs : List Char} {names : List (List Char)}
    (h : SpellsPath cs names) : readPath cs = some names := by
  induction h with
  | last h =>
    have hread := readName_of_spells h (.inl rfl)
    rw [List.append_nil] at hread
    exact readPath_of_last hread
  | dot h _ ih =>
    rw [readPath_of_dot (readName_of_spells h (.inr ⟨_, rfl⟩)), ih, Option.map_some]

theorem readPath_eq_some_iff {cs : List Char} {names : List (List Char)} :
    readPath cs = some names ↔ SpellsPath cs names :=
  ⟨spellsPath_of_readPath, SpellsPath.readPath_eq⟩

/-! ## Blanks around a path -/

theorem SpellsPath.append_blank {behind : List Char} (hbehind : behind.all Text.isBlank = true)
    {cs : List Char} {names : List (List Char)} :
    SpellsPath (cs ++ behind) names ↔ SpellsPath cs names := by
  have hdot := Text.notMem_of_blank hbehind (c := '.') (by decide)
  constructor
  · intro h
    generalize htext : cs ++ behind = text at h
    induction h generalizing cs with
    | last h =>
      rw [← htext, Text.trim_before hbehind] at h
      exact .last h
    | @dot piece name rest names h _ ih =>
      rcases List.append_eq_append_iff.1 htext with ⟨middle, rfl, rfl⟩ | ⟨middle, rfl, hrest⟩
      · exact absurd (by simp) hdot
      · cases middle with
        | nil =>
          rw [List.nil_append] at hrest
          exact absurd (hrest ▸ List.mem_cons_self) hdot
        | cons c middle =>
          obtain ⟨rfl, rfl⟩ := List.cons.inj hrest
          exact .dot h (ih rfl)
  · intro h
    induction h with
    | last h => exact .last (by rwa [Text.trim_before hbehind])
    | dot h _ ih =>
      rw [List.append_assoc, List.cons_append]
      exact .dot h ih

theorem readPath_trimStart (cs : List Char) : readPath (Text.trimStart cs) = readPath cs := by
  have hname : readName (Text.trimStart cs) = readName cs := by
    rw [readName, readName, Text.trimStart_of_prefix List.prefix_rfl]
  rw [readPath_eq, hname, ← readPath_eq]

theorem readPath_trim (cs : List Char) : readPath (Text.trim cs) = readPath cs := by
  obtain ⟨behind, hbehind, hcs⟩ := Text.exists_trimEnd (Text.trimStart cs)
  refine Option.ext fun names => ?_
  rw [← readPath_trimStart cs, hcs, readPath_eq_some_iff, readPath_eq_some_iff,
    SpellsPath.append_blank hbehind, Text.trim]

theorem segments?_eq_some_iff {text : String} {names : List String} :
    segments? text = some names ↔ readPath text.toList = some (names.map (·.toList)) := by
  rw [segments?, readPath_trim, Option.map_eq_some_iff]
  constructor
  · rintro ⟨read, hread, rfl⟩
    simpa [Function.comp_def] using hread
  · exact fun hread => ⟨_, hread, by simp [Function.comp_def]⟩

/-- **Paths.** What is read of a text are the names that it spells, piece by piece. A text that
spells none is refused. -/
theorem paths_read (text : String) :
    (∀ names : List String,
      segments? text = some names ↔ SpellsPath text.toList (names.map (·.toList))) ∧
      (segments? text = none ↔
        ∀ names : List String, ¬SpellsPath text.toList (names.map (·.toList))) := by
  have hread : ∀ names : List String,
      segments? text = some names ↔ SpellsPath text.toList (names.map (·.toList)) :=
    fun names => segments?_eq_some_iff.trans readPath_eq_some_iff
  refine ⟨hread, ?_⟩
  simp only [Option.eq_none_iff_forall_ne_some, ne_eq, hread]

example : segments? " [a]].b] . c d .[]" = some ["a].b", "c d", ""] := by decide +kernel

example : segments? "[a]]" = none ∧ segments? "[a]b.c" = none ∧ segments? "a. " = none := by
  decide +kernel

end Identifier
end CubeQuery
