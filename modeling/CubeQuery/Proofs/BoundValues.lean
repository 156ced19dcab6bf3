import CubeQuery.Proofs.DeadState
import CubeQuery.Proofs.LevelValues
import CubeQuery.Proofs.Picking
import CubeQuery.Proofs.Values

/-!
# Values instead of picks

A level bound to a parameter compiles as if the members that the parameter's value names had been
picked on it (`Query.value_as_picks`): the value of comma-separated unique names is read back, the
level has the same set either way, and it counts as simple in neither case, so that the pivot of its
hierarchy and the declared sets are the same. The value is cut at every comma, though. A comma
inside a name cuts the name in two, and then there is no statement (`Query.value_as_picks_comma`).
-/

namespace CubeQuery

open Identifier

/-! ## Values in writing -/

namespace Text

theorem fields_of_notMem {sep : Char} {cs : List Char} (h : sep ∉ cs) : fields sep cs = [cs] := by
  induction cs with
  | nil => rfl
  | cons c cs ih =>
    obtain ⟨hc, hcs⟩ := not_or.1 (mt List.mem_cons.2 h)
    rw [fields, if_neg (Ne.symm hc), ih hcs]

/-- What stands before a separator is a field. -/
theorem fields_append {sep : Char} {cs : List Char} (h : sep ∉ cs) (rest : List Char) :
    fields sep (cs ++ sep :: rest) = cs :: fields sep rest := by
  induction cs with
  | nil => rw [List.nil_append, fields, if_pos rfl]
  | cons c cs ih =>
    obtain ⟨hc, hcs⟩ := not_or.1 (mt List.mem_cons.2 h)
    rw [List.cons_append, fields, if_neg (Ne.symm hc), ih hcs]

/-- Joined fields are taken apart again. -/
theorem fields_intercalate {sep : Char} {fs : List (List Char)} (hne : fs ≠ [])
    (h : ∀ f ∈ fs, sep ∉ f) : fields sep ([sep].intercalate fs) = fs := by
  induction fs with
  | nil => exact absurd rfl hne
  | cons f fs ih =>
    obtain ⟨hf, hfs⟩ := List.forall_mem_cons.1 h
    cases fs with
    | nil => rw [List.intercalate_singleton, fields_of_notMem hf]
    | cons g gs =>
      rw [List.intercalate_cons_cons, List.append_assoc, List.singleton_append, fields_append hf,
        ih (List.cons_ne_nil g gs) hfs]

end Text

/-- A written path is neither blank nor trimmed to anything shorter. -/
theorem IsPathText.trim {text : String} (h : IsPathText text) :
    text.toList ≠ [] ∧ Text.trim text.toList = text.toList := by
  obtain ⟨names, hne, rfl⟩ := h
  obtain ⟨name, names, rfl⟩ := List.exists_cons_of_ne_nil hne
  obtain ⟨cs, hcs⟩ := bracketed_uniqueName name names
  rw [hcs]
  exact ⟨List.cons_ne_nil _ _, Text.trim_eq_self (by decide) (by decide) cs⟩

/-- Written paths without commas are read back from the list of them. -/
theorem Text.commaList_paths {names : List String} (hne : names ≠ [])
    (hpaths : ∀ n ∈ names, IsPathText n) (hcomma : ∀ n ∈ names, ',' ∉ n.toList) :
    Text.commaList (",".intercalate names) = names := by
  have hfields : Text.fields ',' (",".intercalate names).toList = names.map (·.toList) := by
    rw [String.toList_intercalate]
    refine Text.fields_intercalate (by simpa using hne) fun f hf => ?_
    obtain ⟨n, hn, rfl⟩ := List.mem_map.1 hf
    exact hcomma n hn
  rw [Text.commaList, hfields, List.map_map, List.filterMap_map]
  refine (List.filterMap_congr fun n hn => ?_).trans List.filterMap_some
  obtain ⟨hnonempty, htrim⟩ := IsPathText.trim (hpaths n hn)
  simp [htrim, hnonempty]

/-- A list of written paths is not blank. -/
theorem Text.isBlankText_paths {names : List String} (hne : names ≠ [])
    (hpaths : ∀ n ∈ names, IsPathText n) :
    Text.isBlankText (",".intercalate names) = false := by
  obtain ⟨n, names, rfl⟩ := List.exists_cons_of_ne_nil hne
  obtain ⟨segments, hsegments, rfl⟩ := hpaths n List.mem_cons_self
  obtain ⟨first, segments, rfl⟩ := List.exists_cons_of_ne_nil hsegments
  obtain ⟨cs, hcs⟩ := bracketed_uniqueName first segments
  rw [Text.isBlankText, String.toList_intercalate]
  cases names with
  | nil => simp [hcs, Text.isBlank]
  | cons second names => simp [List.intercalate_cons_cons, hcs, Text.isBlank]

/-! ## Members by their unique names -/

namespace Compiler

variable {c : Compiler}

/-- A unique name that leads to a member names it on any level. -/
theorem valueMember_uniqueName {cube : Cube} (hc : c.source.member? = cube.member?) (l : Level)
    {text : String} {m : Member} (hm : cube.memberNamed? text = some m) :
    c.valueMember l text = .ok m := by
  obtain ⟨path, hpath, hmember⟩ := Option.bind_eq_some_iff.1 hm
  refine valueMember_eq_ok.2 ⟨path, hpath, ?_⟩
  rw [hc, ← hmember]
  unfold valuePath
  split
  · next name =>
    rw [cube.member?_singleton] at hmember
    cases hmember
  · rfl

/-- The comma-separated unique names of members name these members. -/
theorem valueMembers_uniqueNames {cube : Cube} (hc : c.source.member? = cube.member?) (l : Level)
    {ms : List Member} (hne : ms ≠ []) (hpaths : ∀ m ∈ ms, IsPathText m.uniqueName)
    (hcomma : ∀ m ∈ ms, ',' ∉ m.uniqueName.toList)
    (hnamed : ∀ m ∈ ms, cube.memberNamed? m.uniqueName = some m) :
    c.valueMembers l (",".intercalate (ms.map (·.uniqueName))) = .ok ms := by
  rw [valueMembers_eq, Text.commaList_paths (by simpa using hne) (List.forall_mem_map.2 hpaths)
    (List.forall_mem_map.2 hcomma)]
  clear hne hpaths hcomma
  induction ms with
  | nil => rfl
  | cons m ms ih =>
    obtain ⟨hm, hms⟩ := List.forall_mem_cons.1 hnamed
    rw [List.map_cons, List.mapM_cons, valueMember_uniqueName hc l hm, ok_bind, ih hms]
    rfl

/-! ## Levels that compile alike -/

/-- Selections of one level compile alike, each under its own values. -/
structure AlikeUnder (c : Compiler) (p p' : Parameters) (l l' : LevelSelection) : Prop where
  level : l'.level = l.level
  set : ∀ h, c.levelSet p' h l' = c.levelSet p h l
  simple : l'.isSimple p' = l.isSimple p

variable {p p' : Parameters}

theorem linkage_alike {ls ls' : List LevelSelection}
    (h : List.Forall₂ (c.AlikeUnder p p') ls ls') : Linkage.of p' ls' = Linkage.of p ls := by
  have hpivot : ls'.findIdx? (!·.isSimple p') = ls.findIdx? (!·.isSimple p) := by
    induction h with
    | nil => rfl
    | cons hl _ ih => rw [List.findIdx?_cons, List.findIdx?_cons, hl.simple, ih]
  rw [Linkage.of, Linkage.of, hpivot, h.length_eq]

/-- Selections of one hierarchy whose levels compile alike. -/
def LevelsAlike (c : Compiler) (p p' : Parameters) (s s' : HierarchySelection) : Prop :=
  ∃ levels, s' = { s with levels := levels } ∧ List.Forall₂ (c.AlikeUnder p p') s.levels levels

theorem forall₂_getElem? {α β : Type} {R : α → β → Prop} {xs : List α} {ys : List β}
    (h : List.Forall₂ R xs ys) {i : Nat} {x : α} {y : β} (hx : xs[i]? = some x)
    (hy : ys[i]? = some y) : R x y := by
  obtain ⟨hi, rfl⟩ := List.getElem?_eq_some_iff.1 hx
  obtain ⟨hi', rfl⟩ := List.getElem?_eq_some_iff.1 hy
  exact h.get hi hi'

theorem LevelsAlike.sameUse {q q' : Query} {s s' : HierarchySelection}
    (h : c.LevelsAlike q.parameters q'.parameters s s') :
    c.SameUse c.options.flavor q q' s s' := by
  obtain ⟨levels, rfl, hlevels⟩ := h
  have hactive : List.Forall₂ (c.AlikeUnder q.parameters q'.parameters) s.activeLevels
      (s.active.filterMap (levels[·]?)) :=
    forall₂_pick hlevels.length_eq fun i _ l l' hl hl' => forall₂_getElem? hlevels hl hl'
  exact ⟨hactive.imp fun l l' hl => ⟨hl.level, hl.set s.hierarchy⟩, rfl, rfl, rfl,
    .inr (linkage_alike hactive)⟩

theorem LevelsAlike.calculated {hs hs' : List HierarchySelection}
    (h : List.Forall₂ (c.LevelsAlike p p') hs hs') :
    hs'.flatMap (·.calculated) = hs.flatMap (·.calculated) := by
  induction h with
  | nil => rfl
  | cons hs _ ih =>
    obtain ⟨levels, rfl, -⟩ := hs
    rw [List.flatMap_cons, List.flatMap_cons, ih]

/-- Queries whose levels compile alike have the same statement. -/
theorem statement_of_levels {q : Query} {selections : List HierarchySelection}
    (h : List.Forall₂ (c.LevelsAlike q.parameters p') q.hierarchies selections) :
    c.statement { q with hierarchies := selections, parameters := p' } = c.statement q := by
  refine statement_congr ⟨rfl, rfl, LevelsAlike.calculated h, fun _ _ => rfl, fun l _ => ?_⟩
  refine forall₂_pick h.length_eq fun i _ s s' hs hs' => ?_
  have halike := forall₂_getElem? h hs hs'
  have huse : c.SameUse c.options.flavor q
      { q with hierarchies := selections, parameters := p' } s s' := LevelsAlike.sameUse halike
  obtain ⟨levels, rfl, -⟩ := halike
  exact ⟨rfl, hierarchySet_congr rfl rfl (fun _ => rfl) (fun _ => huse) rfl⟩

/-! ## A level bound to a parameter, and the others -/

/-- A level does not notice the value of a parameter that it is not bound to. -/
theorem alikeUnder_insert {parameter : String} {value : Option String} {l : LevelSelection}
    (hl : l.parameter? ≠ some parameter) : c.AlikeUnder p (p.insert parameter value) l l := by
  have hvalue : ∀ name, l.parameter? = some name →
      (p.insert parameter value).get? name = p.get? name := by
    intro name hname
    have hne : parameter ≠ name := fun heq => hl (heq.symm ▸ hname)
    rw [Bindings.get?_insert, if_neg hne]
  refine ⟨rfl, fun h => ?_, ?_⟩
  · refine levelSet_alike (f := c.options.flavor) (picked_of_valueOn ?_)
    unfold valueOn
    cases hname : l.parameter? with
    | none => rfl
    | some name => simp only [Option.bind_some, hvalue name hname]
  · unfold LevelSelection.isSimple LevelSelection.hasValue
    cases hname : l.parameter? with
    | none => rfl
    | some name => simp only [hvalue name hname]

/-- Where the same members are picked, the set of a level is the same. -/
theorem levelSet_of_picked {l l' : LevelSelection} (hlevel : l'.level = l.level)
    (hrange : l'.range = l.range) (hshape : l'.shape = l.shape)
    (hpicked : c.picked p' l' = c.picked p l) (h : Hierarchy) :
    c.levelSet p' h l' = c.levelSet p h l := by
  rw [levelSet, levelSet, hpicked, hlevel, hrange, hshape]

end Compiler

namespace LevelSelection

/-- A level without picks holds the members that are picked, once each. -/
theorem pickAll_fresh {l : LevelSelection} (hincluded : l.included = [])
    (hexcluded : l.excluded = []) (pick : Pick) {ms : List Member} (hms : ms.Nodup) :
    l.pickAll (ms.map (pick, ·)) =
      match pick with
      | .inclusion => { l with included := ms }
      | .exclusion => { l with excluded := ms } := by
  induction ms using List.reverseRecOn with
  | nil =>
    obtain ⟨level, included, excluded⟩ := l
    cases hincluded
    cases hexcluded
    cases pick <;> rfl
  | append_singleton ms m ih =>
    obtain ⟨hms, -, hnew⟩ := List.nodup_append.1 hms
    have hm : m ∉ ms := fun hm => hnew m hm m (List.mem_singleton_self m) rfl
    rw [List.map_append, List.map_singleton, pickAll_concat, ih hms]
    cases pick with
    | inclusion => simp [LevelSelection.pick, add, hm]
    | exclusion => simp [LevelSelection.pick, exclude, hm, hincluded]

/-- The level bound to a parameter. -/
def bound (l : LevelSelection) (parameter : String) (pick : Pick) : LevelSelection :=
  { l with parameter := some parameter, parameterPick := pick }

end LevelSelection

namespace Compiler

variable {c : Compiler} {p : Parameters}

/-- A value that names members compiles on a level without picks as the picks of these members. -/
theorem alikeUnder_value {l : LevelSelection} (hall : l.level.isAll = false)
    (hincluded : l.included = []) (hexcluded : l.excluded = []) (hfree : l.parameter? = none)
    {parameter value : String} (hname : Text.isBlankText parameter = false)
    (hvalue : Text.isBlankText value = false) (hlegacy : c.options.legacyParameters = true)
    {ms : List Member} (hne : ms ≠ []) (hnodup : ms.Nodup)
    (hms : c.valueMembers l.level value = .ok ms) (pick : Pick) :
    c.AlikeUnder p (p.insert parameter (some value)) (l.pickAll (ms.map (pick, ·)))
      (l.bound parameter pick) := by
  have hparameter : (l.bound parameter pick).parameter? = some parameter := by
    simp [LevelSelection.bound, LevelSelection.parameter?, hname]
  have hon : c.valueOn (p.insert parameter (some value)) (l.bound parameter pick) = some value := by
    simp [valueOn, hlegacy, hparameter, hvalue]
  have hboundSimple :
      (l.bound parameter pick).isSimple (p.insert parameter (some value)) = false := by
    simp [LevelSelection.isSimple, LevelSelection.hasValue, hparameter]
  have hread : c.valueMembers (l.bound parameter pick).level value = .ok ms := hms
  have hpicks : ∀ included excluded,
      c.picked p { l with included, excluded } = .ok (included, excluded) := by
    intro included excluded
    have hnone : ({ l with included, excluded } : LevelSelection).parameter? = none := hfree
    simp [picked, valueOn, hnone]
  rw [LevelSelection.pickAll_fresh hincluded hexcluded pick hnodup]
  cases pick with
  | inclusion =>
    refine ⟨rfl, levelSet_of_picked rfl rfl rfl ?_, ?_⟩
    · refine Eq.trans ?_ (hpicks ms l.excluded).symm
      simp only [picked, hon, hread, ok_bind]
      rfl
    · rw [hboundSimple]
      simp [LevelSelection.isSimple, hall, hne]
  | exclusion =>
    refine ⟨rfl, levelSet_of_picked rfl rfl rfl ?_, ?_⟩
    · refine Eq.trans ?_ (hpicks l.included ms).symm
      simp only [picked, hon, hread, ok_bind]
      rfl
    · rw [hboundSimple]
      simp [LevelSelection.isSimple, hall, hne]

end Compiler

/-! ## Queries -/

/-- Lists that differ at one position are related if the elements there are, and each of the others
to itself. -/
theorem forall₂_set {α : Type} {R : α → α → Prop} {xs : List α} {i : Nat} {x y : α} (hxy : R x y)
    (hxs : ∀ z ∈ xs, R z z) : List.Forall₂ R (xs.set i x) (xs.set i y) := by
  induction xs generalizing i with
  | nil => exact .nil
  | cons z xs ih =>
    obtain ⟨hz, hxs⟩ := List.forall_mem_cons.1 hxs
    cases i with
    | zero => exact .cons hxy (List.forall₂_same.2 hxs)
    | succ i => exact .cons hz (ih hxs)

namespace Query

variable {q : Query} {hierarchy level : String} {j i : Nat} {l l' : LevelSelection}
  {s : HierarchySelection}

/-- The query with another selection of a level in its place. -/
def withLevel (q : Query) (j : Nat) (s : HierarchySelection) (i : Nat) (l : LevelSelection) :
    Query :=
  { q with hierarchies := q.hierarchies.set j { s with levels := s.levels.set i l } }

/-- A change of a level puts the changed level in its place. -/
theorem LevelAt.after_level (hq : q.LevelAt hierarchy level j i l)
    (hs : q.hierarchies[j]? = some s) {c : LevelChange} (hc : l.change c = .ok l') :
    q.after (.hierarchy hierarchy (.level level c)) = q.withLevel j s i l' ∧
      (q.withLevel j s i l').LevelAt hierarchy level j i l' := by
  obtain ⟨hj, s', hs', -, hi, hl⟩ := id hq
  cases hs.symm.trans hs'
  have hchange : s.change (.level level c) = .ok { s with levels := s.levels.set i l' } :=
    HierarchySelection.updateLevel_eq_ok.2
      ⟨i, hi, s.levels.set i l', changeAt_eq_ok.2 (.inr ⟨l, l', hl, hc, rfl⟩), rfl⟩
  exact ⟨after_of_ok (update_of_find? hj hs hchange),
    hq.set hs (HierarchySelection.change_ground hchange)
      (List.getElem?_set_self (List.getElem?_eq_some_iff.1 hl).1)⟩

/-- A level is bound to a parameter, which is given a value. -/
theorem LevelAt.after_bind (hq : q.LevelAt hierarchy level j i l)
    (hs : q.hierarchies[j]? = some s) (parameter value : String) (pick : Pick) :
    q.afterAll [.hierarchy hierarchy (.level level (.bind parameter)),
        .hierarchy hierarchy (.level level (.parameterPick pick)),
        .setParameter parameter value] =
      (q.withLevel j s i (l.bound parameter pick)).setParameter parameter value := by
  obtain ⟨hbind, hq'⟩ := hq.after_level hs (c := .bind parameter) rfl
  have hget : (q.withLevel j s i { l with parameter := some parameter }).hierarchies[j]? =
      some { s with levels := s.levels.set i { l with parameter := some parameter } } :=
    List.getElem?_set_self (List.getElem?_eq_some_iff.1 hs).1
  obtain ⟨hpick, -⟩ := hq'.after_level hget (c := .parameterPick pick) rfl
  have htwice : (q.withLevel j s i { l with parameter := some parameter }).withLevel j
      { s with levels := s.levels.set i { l with parameter := some parameter } } i
      (l.bound parameter pick) = q.withLevel j s i (l.bound parameter pick) := by
    simp only [withLevel, List.set_set]
  rw [afterAll_cons, hbind, afterAll_cons, hpick, ← htwice]
  exact after_of_ok rfl

/-- Picks on a level in use put the picked level in its place. -/
theorem LevelAt.after_picks (hq : q.LevelAt hierarchy level j i l)
    (hs : q.hierarchies[j]? = some s) (hactive : i ∈ s.active) {p : Pick} {ms : List Member}
    (hms : ∀ m ∈ ms, m ∈ l.level.members) :
    q.after (.hierarchy hierarchy (.pick p ms)) =
      q.withLevel j s i (l.pickAll (ms.map (p, ·))) := by
  obtain ⟨hj, s', hs', hhomed, hi, hl⟩ := hq
  cases hs.symm.trans hs'
  obtain ⟨active, hkeep, hpick⟩ := HierarchySelection.pickMembers_on hhomed hi hl (p := p) hms
  cases hkeep hactive
  exact after_of_ok (update_of_find? hj hs hpick)

/-- Where the selections in one place compile alike and no other level notices the parameter, the
queries have the same statement. -/
theorem statement_withLevel {c : Compiler} (hs : q.hierarchies[j]? = some s) {p' : Parameters}
    (halike : c.AlikeUnder q.parameters p' l l')
    (hothers : ∀ s ∈ q.hierarchies, ∀ l ∈ s.levels, c.AlikeUnder q.parameters p' l l) :
    c.statement { q.withLevel j s i l' with parameters := p' } =
      c.statement (q.withLevel j s i l) := by
  refine Compiler.statement_of_levels (q := q.withLevel j s i l) (forall₂_set ?_ fun s hs => ?_)
  · have hlevels := forall₂_set (i := i) halike (hothers s (List.mem_of_getElem? hs))
    exact ⟨s.levels.set i l', rfl, hlevels⟩
  · exact ⟨s.levels, rfl, List.forall₂_same.2 (hothers s hs)⟩

/-- **Values instead of picks.** Take a level in use that is not an all level, on which no members
are picked and which is bound to no parameter, and a parameter that no level is bound to. Binding
the level to the parameter and giving it the comma-separated unique names of members of the level as
its value leads to the same statement as picking these members, if values are looked up, each of
the members is the one its unique name leads to, and none of the names holds a comma. -/
theorem value_as_picks (name : String) (e : CubeEntry) (cs : List Change) {hierarchy : String}
    {s : HierarchySelection} {l : LevelSelection}
    (hs : ((new name e.link).afterAll cs).hierarchy? hierarchy = some s)
    (hl : l ∈ s.activeLevels) (hall : l.level.isAll = false) (hincluded : l.included = [])
    (hexcluded : l.excluded = []) (hfree : l.parameter? = none) {parameter : String}
    (hname : Text.isBlankText parameter = false)
    (hunbound : ∀ s ∈ ((new name e.link).afterAll cs).hierarchies, ∀ l ∈ s.levels,
      l.parameter? ≠ some parameter)
    {ms : List Member} (hne : ms ≠ []) (hnodup : ms.Nodup) (hon : ∀ m ∈ ms, m ∈ l.level.members)
    (hnamed : ∀ m ∈ ms, e.link.memberNamed? m.uniqueName = some m)
    (hcomma : ∀ m ∈ ms, ',' ∉ m.uniqueName.toList) (pick : Pick) {options : Options}
    (hlegacy : options.legacyParameters = true) :
    (((new name e.link).afterAll cs).afterAll
        [.hierarchy hierarchy (.level l.level.name (.bind parameter)),
          .hierarchy hierarchy (.level l.level.name (.parameterPick pick)),
          .setParameter parameter (",".intercalate (ms.map (·.uniqueName)))]).statement options =
      (((new name e.link).afterAll cs).after
        (.hierarchy hierarchy (.pick pick ms))).statement options := by
  obtain ⟨j, hj, hs⟩ := Option.bind_eq_some_iff.1 hs
  obtain ⟨i, hactive, hl⟩ := List.mem_filterMap.1 hl
  have hmem := List.mem_of_getElem? hs
  have hcube := (sound_afterAll name e.link cs).onCube
  have hat : ((new name e.link).afterAll cs).LevelAt hierarchy l.level.name j i l :=
    ⟨hj, s, hs, homed_afterAll name e cs s hmem, levelIndex_of_active name e cs hmem hactive hl, hl⟩
  generalize (new name e.link).afterAll cs = q at *
  have hpaths : ∀ m ∈ ms, IsPathText m.uniqueName := fun m hm =>
    e.isPathText_members m (Cube.mem_members_of_memberNamed? (hnamed m hm))
  have hsource : (Compiler.ofCube q.cube options).source.member? = e.link.member? := by
    rw [hcube]
    rfl
  have hvalue : (Compiler.ofCube q.cube options).valueMembers l.level
      (",".intercalate (ms.map (·.uniqueName))) = .ok ms :=
    Compiler.valueMembers_uniqueNames hsource l.level hne hpaths hcomma hnamed
  have hblank := Text.isBlankText_paths (by simpa using hne) (List.forall_mem_map.2 hpaths)
  have halike := Compiler.alikeUnder_value (p := q.parameters) hall hincluded hexcluded hfree hname
    hblank hlegacy hne hnodup hvalue pick
  rw [hat.after_picks hs hactive hon, hat.after_bind hs]
  exact statement_withLevel hs halike fun s hs l hl =>
    Compiler.alikeUnder_insert (hunbound s hs l hl)

/-- Years and months are in use on rows. -/
def yearsInUse : Query :=
  (new "q" sales).afterAll [.move "Time" .rows none, .hierarchy "Time" (.includeLevel "Year"),
    .hierarchy "Time" (.includeLevel "Month")]

theorem value_as_picks_years :
    (yearsInUse.afterAll [.hierarchy "Time" (.level "Year" (.bind "choice")),
        .hierarchy "Time" (.level "Year" (.parameterPick .exclusion)),
        .setParameter "choice" "[Time].[2024],[Time].[2025]"]).statement
          { legacyParameters := true } =
      (yearsInUse.after (.hierarchy "Time" (.pick .exclusion [year "2024", year "2025"]))).statement
        { legacyParameters := true } ∧
      ((yearsInUse.after (.hierarchy "Time" (.pick .exclusion
        [year "2024", year "2025"]))).statement { legacyParameters := true }).isOk = true := by
  obtain ⟨s, hs, hactive⟩ := (Option.any_eq_true _ _).1 (by decide +kernel :
    (yearsInUse.hierarchy? "Time").any (fun s => decide ({ level := years } ∈ s.activeLevels)) =
      true)
  have hname : Text.isBlankText "choice" = false := by decide
  have hyears : [year "2024", year "2025"] ≠ [] := List.cons_ne_nil _ _
  refine ⟨?_, by decide +kernel⟩
  exact value_as_picks "q" salesEntry _ hs (of_decide_eq_true hactive) rfl rfl rfl rfl hname
    (by decide +kernel) hyears (by decide +kernel) (by decide +kernel) (by decide +kernel)
    (by decide +kernel) .exclusion rfl

/-- Customers, one of whom has a comma in the name. -/
def customersEntry : CubeEntry where
  name := "Sales"
  dimensions := [
    { name := "Customer"
      hierarchies := [
        { name := "Customer", levels := [{ name := "Name", members := [["Smith, John"]] }] }] }]

def customerNames : Level :=
  (customersEntry.link.hierarchies.headD default).levels.headD default

/-- Customers are in use on rows. -/
def customersInUse : Query :=
  (new "q" customersEntry.link).afterAll [.move "Customer" .rows none,
    .hierarchy "Customer" (.includeLevel "Name")]

/-- The value is cut inside the name of the customer. -/
theorem value_as_picks_comma :
    customersEntry.link.memberNamed? "[Customer].[Smith, John]" =
        some (customerNames.member ["Smith, John"]) ∧
      failure? ((customersInUse.afterAll [.hierarchy "Customer" (.level "Name" (.bind "who")),
        .hierarchy "Customer" (.level "Name" (.parameterPick .inclusion)),
        .setParameter "who" "[Customer].[Smith, John]"]).statement { legacyParameters := true }) =
          some (.unknownMember "[Customer].[Smith") ∧
      ((customersInUse.after (.hierarchy "Customer" (.pick .inclusion
        [customerNames.member ["Smith, John"]]))).statement { legacyParameters := true }).isOk =
          true := by
  decide +kernel

end Query
end CubeQuery
