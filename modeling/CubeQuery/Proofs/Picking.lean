import CubeQuery.Compile.LevelSet
import CubeQuery.Proofs.LevelNames
import Mathlib.Data.List.Induction

/-!
# Members picked on a level

Including a member leaves the excluded ones alone, excluding one takes it out of the included ones,
and a level without included members stands for all of its members. So what a sequence of picks
comes to (`picks_listed`): a member that was excluded once stays out, one that was included and
never excluded is in, and the others are in if no member has an inclusion as its last pick and the
whole level has them. Levels may go out of use and come back in between.
-/

namespace CubeQuery

open Identifier

/-! ## Sets as lists of names -/

namespace Expr

mutual

/-- The members of a set by their unique names: braces list, and a difference takes the members of
its second set out of the first. `levels` tells the members of a level. Other expressions are not
read. -/
def listed? (levels : String → List String) : Expr → Option (List String)
  | .member name => some [name]
  | .call _ .braces items => (listedAll? levels items).map List.flatten
  | .call "Members" .property [.level name] => some (levels name)
  | .call "Except" .function [set, taken] =>
    match listed? levels set, listed? levels taken with
    | some names, some out => some (names.filter (· ∉ out))
    | _, _ => none
  | _ => none

def listedAll? (levels : String → List String) : List Expr → Option (List (List String))
  | [] => some []
  | e :: es =>
    match listed? levels e, listedAll? levels es with
    | some names, some others => some (names :: others)
    | _, _ => none

end

variable {levels : String → List String}

theorem listed?_members (name : String) :
    (property (.level name) "Members").listed? levels = some (levels name) := rfl

theorem listed?_singleton {e : Expr} {names : List String} (h : e.listed? levels = some names) :
    (set [e]).listed? levels = some names := by
  simp [set, listed?, listedAll?, h]

theorem listed?_except {a b : Expr} {names out : List String} (ha : a.listed? levels = some names)
    (hb : b.listed? levels = some out) :
    (function "Except" [a, b]).listed? levels = some (names.filter (· ∉ out)) := by
  simp [function, listed?, ha, hb]

end Expr

namespace Compiler

theorem listed?_memberSet (levels : String → List String) (ms : List Member) :
    (memberSet ms).listed? levels = some (ms.map (·.uniqueName)) := by
  have hitems : Expr.listedAll? levels (ms.map fun m => .member m.uniqueName) =
      some (ms.map fun m => [m.uniqueName]) := by
    induction ms with
    | nil => rfl
    | cons m ms ih => simp [Expr.listedAll?, Expr.listed?, ih]
  rw [memberSet, Expr.set, Expr.listed?, hitems, Option.map_some, ← List.flatMap_def,
    ← List.map_eq_flatMap]

/-- The names that the whole level stands for: its members, or the default member in place of an
all level. -/
def wholeNames? (c : Compiler) (levels : String → List String) (h : Hierarchy) (l : Level) :
    Option (List String) :=
  if l.isAll then (c.source.default? h).map fun m => [m.uniqueName]
  else some (levels l.uniqueName)

variable {c : Compiler} {levels : String → List String}

theorem wholeLevel_listed {h : Hierarchy} {l : Level} {whole : List String}
    (hwhole : c.wholeNames? levels h l = some whole) :
    ∃ set, c.wholeLevel h l = .ok set ∧ set.listed? levels = some whole := by
  unfold wholeNames? at hwhole
  unfold wholeLevel
  by_cases hall : l.isAll = true
  · rw [if_pos hall] at hwhole ⊢
    obtain ⟨m, hm, rfl⟩ := Option.map_eq_some_iff.1 hwhole
    exact ⟨memberSet [m], by rw [hm], listed?_memberSet levels [m]⟩
  · rw [if_neg hall] at hwhole ⊢
    cases hwhole
    exact ⟨_, rfl, Expr.listed?_singleton (Expr.listed?_members l.uniqueName)⟩

/-- No included member stands for all of them, and the excluded ones are taken out. -/
theorem narrowed_listed {set : Expr} {whole : List String} (h : set.listed? levels = some whole)
    (included excluded : List Member) :
    ∃ names, (narrowed included excluded set).listed? levels = some names ∧ ∀ name, name ∈ names ↔
      (if included = [] then name ∈ whole else name ∈ included.map (·.uniqueName)) ∧
        name ∉ excluded.map (·.uniqueName) := by
  obtain ⟨names, hnames, hmem⟩ : ∃ names,
      (if included.isEmpty then set else memberSet included).listed? levels = some names ∧
        ∀ name, name ∈ names ↔
          if included = [] then name ∈ whole else name ∈ included.map (·.uniqueName) := by
    cases included with
    | nil => exact ⟨whole, h, fun name => Iff.rfl⟩
    | cons m ms => exact ⟨_, listed?_memberSet levels (m :: ms), fun name => Iff.rfl⟩
  cases excluded with
  | nil => exact ⟨names, hnames, fun name => by simp [hmem]⟩
  | cons m ms =>
    refine ⟨_, Expr.listed?_except hnames (listed?_memberSet levels (m :: ms)), fun name => ?_⟩
    rw [List.mem_filter, decide_eq_true_eq, hmem]

end Compiler

/-! ## What the picks of a level come to -/

namespace LevelSelection

/-- Nothing but members is picked on the level. -/
structure Bare (s : LevelSelection) : Prop where
  range : s.range = none
  parameter : s.parameter? = none
  plain : s.shape.isPlain = true

/-- Picks members one after the other. -/
def pickAll (s : LevelSelection) (calls : List (Pick × Member)) : LevelSelection :=
  calls.foldl (fun s call => s.pick call.1 call.2) s

variable {s : LevelSelection}

theorem pickAll_concat (calls : List (Pick × Member)) (call : Pick × Member) :
    s.pickAll (calls ++ [call]) = (s.pickAll calls).pick call.1 call.2 :=
  List.foldl_concat ..

theorem pickAll_append (calls others : List (Pick × Member)) :
    s.pickAll (calls ++ others) = (s.pickAll calls).pickAll others :=
  List.foldl_append

theorem mem_included_pick {p : Pick} {m m' : Member} :
    m ∈ (s.pick p m').included ↔ if m' = m then p = .inclusion else m ∈ s.included := by
  cases p with
  | inclusion =>
    rw [pick, add]
    by_cases hm : m' = m
    · subst hm
      by_cases hin : m' ∈ s.included <;> simp [hin]
    · by_cases hin : m' ∈ s.included <;> simp [hin, hm, Ne.symm hm]
  | exclusion =>
    by_cases hm : m' = m <;> simp [pick, exclude, hm, eq_comm]

theorem mem_excluded_pick {p : Pick} {m m' : Member} :
    m ∈ (s.pick p m').excluded ↔ m ∈ s.excluded ∨ (.exclusion, m) = (p, m') := by
  cases p with
  | inclusion =>
    rw [pick, add]
    split <;> simp
  | exclusion =>
    simp only [pick, exclude]
    by_cases hin : m' ∈ s.excluded
    · simp only [hin, if_true, Prod.mk.injEq, true_and]
      exact ⟨.inl, fun h => h.elim id fun h => h ▸ hin⟩
    · simp [hin]

theorem bare_pickAll (hs : s.Bare) (calls : List (Pick × Member)) : (s.pickAll calls).Bare := by
  induction calls using List.reverseRecOn with
  | nil => exact hs
  | append_singleton calls call ih =>
    rw [pickAll_concat]
    rcases call with ⟨_ | _, m⟩
    · show ((s.pickAll calls).add m).Bare
      unfold add
      split
      · exact ih
      · exact ⟨ih.range, ih.parameter, ih.plain⟩
    · exact ⟨ih.range, ih.parameter, ih.plain⟩

theorem pickAll_level (calls : List (Pick × Member)) : (s.pickAll calls).level = s.level := by
  induction calls using List.reverseRecOn with
  | nil => rfl
  | append_singleton calls call ih => rw [pickAll_concat, pick_level, ih]

end LevelSelection

/-- The last pick of a member. -/
def lastPick? (calls : List (Pick × Member)) (m : Member) : Option Pick :=
  ((calls.filter (·.2 = m)).getLast?).map (·.1)

theorem lastPick?_concat (calls : List (Pick × Member)) (p : Pick) (m m' : Member) :
    lastPick? (calls ++ [(p, m')]) m = if m' = m then some p else lastPick? calls m := by
  by_cases hm : m' = m <;> simp [lastPick?, hm]

theorem mem_of_lastPick? {calls : List (Pick × Member)} {m : Member} {p : Pick}
    (h : lastPick? calls m = some p) : (p, m) ∈ calls := by
  obtain ⟨⟨p', m'⟩, hlast, rfl⟩ := Option.map_eq_some_iff.1 h
  obtain ⟨hmem, hm⟩ := List.mem_filter.1 (List.mem_of_getLast? hlast)
  exact of_decide_eq_true hm ▸ hmem

/-- A member that was picked has a last pick. -/
theorem lastPick?_isSome {calls : List (Pick × Member)} {m : Member} {p : Pick}
    (h : (p, m) ∈ calls) : ∃ p', lastPick? calls m = some p' := by
  have hmem : (p, m) ∈ calls.filter (·.2 = m) := List.mem_filter.2 ⟨h, by simp⟩
  obtain ⟨call, hcall⟩ := Option.isSome_iff_exists.1
    (List.getLast?_isSome.2 (List.ne_nil_of_mem hmem))
  exact ⟨call.1, by rw [lastPick?, hcall, Option.map_some]⟩

/-- A member that was never excluded has an inclusion as its last pick once it was included. -/
theorem lastPick?_eq_inclusion {calls : List (Pick × Member)} {m : Member}
    (h : (.exclusion, m) ∉ calls) :
    lastPick? calls m = some .inclusion ↔ (.inclusion, m) ∈ calls := by
  constructor
  · exact mem_of_lastPick?
  · intro hmem
    obtain ⟨p, hp⟩ := lastPick?_isSome hmem
    cases p with
    | inclusion => exact hp
    | exclusion => exact absurd (mem_of_lastPick? hp) h

/-- No member has an inclusion as its last pick. -/
def NoneIncluded (calls : List (Pick × Member)) : Prop :=
  ∀ m, lastPick? calls m ≠ some .inclusion

namespace LevelSelection

variable {s : LevelSelection}

/-- The included members are those whose last pick is an inclusion. -/
theorem mem_included_pickAll (hs : s.included = []) (calls : List (Pick × Member)) (m : Member) :
    m ∈ (s.pickAll calls).included ↔ lastPick? calls m = some .inclusion := by
  induction calls using List.reverseRecOn with
  | nil => simp [pickAll, hs, lastPick?]
  | append_singleton calls call ih =>
    rw [pickAll_concat, mem_included_pick, lastPick?_concat, ih]
    split <;> simp

/-- The excluded members are those that were ever excluded. -/
theorem mem_excluded_pickAll (hs : s.excluded = []) (calls : List (Pick × Member)) (m : Member) :
    m ∈ (s.pickAll calls).excluded ↔ (.exclusion, m) ∈ calls := by
  induction calls using List.reverseRecOn with
  | nil => simp [pickAll, hs]
  | append_singleton calls call ih =>
    rw [pickAll_concat, mem_excluded_pick, ih, List.mem_append, List.mem_singleton]

theorem included_pickAll_eq_nil (hs : s.included = []) (calls : List (Pick × Member)) :
    (s.pickAll calls).included = [] ↔ NoneIncluded calls := by
  simp only [List.eq_nil_iff_forall_not_mem, mem_included_pickAll hs]
  rfl

end LevelSelection

/-! ## The compiled set -/

/-- On one level, members are known by their unique names. -/
theorem Level.members_inj {l : Level} (hl : IsPathText l.hierarchy) {m m' : Member}
    (hm : m ∈ l.members) (hm' : m' ∈ l.members) (h : m.uniqueName = m'.uniqueName) : m = m' := by
  obtain ⟨path, -, rfl⟩ := List.mem_map.1 hm
  obtain ⟨path', -, rfl⟩ := List.mem_map.1 hm'
  rw [IsPathText.foldl_below_inj hl h]

namespace Compiler

variable {c : Compiler} {parameters : Parameters} {h : Hierarchy}

theorem levelSet_bare {l : LevelSelection} (hl : l.Bare) {set : Expr}
    (hset : c.wholeLevel h l.level = .ok set) :
    c.levelSet parameters h l = .ok (narrowed l.included l.excluded set) := by
  have hpicked : c.picked parameters l = .ok (l.included, l.excluded) := by
    simp [picked, valueOn, hl.parameter]
  obtain ⟨hoverride, hfilters⟩ : l.shape.override = none ∧ l.shape.filters = [] := by
    simpa [SetShape.isPlain] using hl.plain
  simp [levelSet, hpicked, hset, hl.range, ranged, shaped, filtered, hoverride, hfilters,
    SetFilter.applyAll, Except.mapError]

/-- What the set of a level lists after picks of its members. -/
theorem levelSet_picked {levels : String → List String} {l : LevelSelection} (hl : l.Bare)
    (hpath : IsPathText l.level.hierarchy) (hincluded : l.included = [])
    (hexcluded : l.excluded = [])
    {calls : List (Pick × Member)} (hcalls : ∀ call ∈ calls, call.2 ∈ l.level.members)
    {whole : List String} (hwhole : c.wholeNames? levels h l.level = some whole) :
    ∃ set names, c.levelSet parameters h (l.pickAll calls) = .ok set ∧
      set.listed? levels = some names ∧
      (∀ m ∈ l.level.members, m.uniqueName ∈ names ↔ (.exclusion, m) ∉ calls ∧
        ((.inclusion, m) ∈ calls ∨ NoneIncluded calls ∧ m.uniqueName ∈ whole)) ∧
      ∀ name, (∀ m ∈ l.level.members, m.uniqueName ≠ name) →
        (name ∈ names ↔ NoneIncluded calls ∧ name ∈ whole) := by
  obtain ⟨base, hbase, hlisted⟩ := wholeLevel_listed hwhole
  obtain ⟨names, hnames, hmem⟩ :=
    narrowed_listed hlisted (l.pickAll calls).included (l.pickAll calls).excluded
  have hset : c.levelSet parameters h (l.pickAll calls) = .ok
      (narrowed (l.pickAll calls).included (l.pickAll calls).excluded base) :=
    levelSet_bare (LevelSelection.bare_pickAll hl calls)
      (by rw [LevelSelection.pickAll_level, hbase])
  have hon : ∀ {p m}, (p, m) ∈ calls → m ∈ l.level.members := fun hmem => hcalls _ hmem
  -- The lists hold members of the level only, and these are known by their names.
  have hin : ∀ name, name ∈ (l.pickAll calls).included.map (·.uniqueName) ↔
      ∃ m ∈ l.level.members, lastPick? calls m = some .inclusion ∧ m.uniqueName = name := by
    intro name
    simp only [List.mem_map, LevelSelection.mem_included_pickAll hincluded]
    exact ⟨fun ⟨m, hm, hname⟩ => ⟨m, hon (mem_of_lastPick? hm), hm, hname⟩,
      fun ⟨m, _, hm, hname⟩ => ⟨m, hm, hname⟩⟩
  have hout : ∀ name, name ∈ (l.pickAll calls).excluded.map (·.uniqueName) ↔
      ∃ m ∈ l.level.members, (.exclusion, m) ∈ calls ∧ m.uniqueName = name := by
    intro name
    simp only [List.mem_map, LevelSelection.mem_excluded_pickAll hexcluded]
    exact ⟨fun ⟨m, hm, hname⟩ => ⟨m, hon hm, hm, hname⟩, fun ⟨m, _, hm, hname⟩ => ⟨m, hm, hname⟩⟩
  have hnone := LevelSelection.included_pickAll_eq_nil hincluded calls
  refine ⟨_, names, hset, hnames, fun m hm => ?_, fun name hfree => ?_⟩
  · have hown : ∀ {P : Member → Prop},
        (∃ m' ∈ l.level.members, P m' ∧ m'.uniqueName = m.uniqueName) ↔ P m :=
      ⟨fun ⟨m', hm', hP, hname⟩ => Level.members_inj hpath hm' hm hname ▸ hP,
        fun hP => ⟨m, hm, hP, rfl⟩⟩
    rw [hmem, hin, hout, hown, hown, and_comm]
    refine and_congr_right fun hkept => ?_
    rw [lastPick?_eq_inclusion hkept]
    by_cases hempty : (l.pickAll calls).included = []
    · have hnot : (.inclusion, m) ∉ calls :=
        fun hmem => hnone.1 hempty m ((lastPick?_eq_inclusion hkept).2 hmem)
      simp [hempty, hnone.1 hempty, hnot]
    · simp [hempty, mt hnone.2 hempty]
  · have hnot : ∀ {P : Member → Prop},
        ¬∃ m' ∈ l.level.members, P m' ∧ m'.uniqueName = name :=
      fun ⟨m', hm', _, hname⟩ => hfree m' hm' hname
    rw [hmem, hin, hout, ← hnone]
    by_cases hempty : (l.pickAll calls).included = [] <;> simp [hempty, hnot]

end Compiler

/-! ## Runs -/

namespace HierarchySelection

variable {s t : HierarchySelection} {level : String} {i : Nat} {l : LevelSelection}

theorem levelOfMember_on (hs : s.Homed) (hi : s.levelIndex level = .ok i)
    (hl : s.levels[i]? = some l) {m : Member} (hm : m ∈ l.level.members) (p : Pick) :
    s.levelOfMember p m = .ok i := by
  obtain ⟨path, -, rfl⟩ := List.mem_map.1 hm
  have hhome : l.level.hierarchy = s.uniqueName := hs.levels l (List.mem_of_getElem? hl)
  unfold levelOfMember
  rw [if_neg (fun hne => hne hhome)]
  exact hs.levelIndexOf_of_levelIndex hi hl

theorem pickMembers_singleton (s : HierarchySelection) (p : Pick) (m : Member) :
    s.pickMembers p [m] = s.pickMember p m := by
  rw [pickMembers, List.foldlM_cons]
  cases s.pickMember p m <;> rfl

theorem modifyLevel_activate {f : LevelSelection → LevelSelection} (hl : s.levels[i]? = some l) :
    (s.activate i).modifyLevel i f =
      { s with active := (s.activate i).active, levels := s.levels.set i (f l) } := by
  have hset : s.levels.modify i f = s.levels.set i (f l) := by
    rw [List.modify_eq_set_getElem?, hl]
    rfl
  unfold modifyLevel
  rw [activate_levels, hset]
  unfold activate
  split <;> rfl

/-- Members of a level are picked there, and the level comes into use. Nothing else changes. -/
theorem pickMembers_on (hs : s.Homed) (hi : s.levelIndex level = .ok i)
    (hl : s.levels[i]? = some l) {p : Pick} {ms : List Member}
    (hms : ∀ m ∈ ms, m ∈ l.level.members) :
    ∃ active, (i ∈ s.active → active = s.active) ∧ s.pickMembers p ms =
      .ok { s with active, levels := s.levels.set i (l.pickAll (ms.map (p, ·))) } := by
  obtain ⟨hlt, hget⟩ := List.getElem?_eq_some_iff.1 hl
  induction ms generalizing s l with
  | nil =>
    have hself : s.levels.set i l = s.levels := by rw [← hget, List.set_getElem_self]
    refine ⟨s.active, fun _ => rfl, ?_⟩
    show Except.ok s = .ok { s with levels := s.levels.set i l }
    rw [hself]
  | cons m ms ih =>
    obtain ⟨hm, hms⟩ := List.forall_mem_cons.1 hms
    have hpick := pickMember_eq_ok.2 ⟨i, levelOfMember_on hs hi hl hm p, modifyLevel_activate hl⟩
    have hg := pickMember_ground hpick
    obtain ⟨active, hactive, ht⟩ := ih (hs.of_ground hg) ((hg.levelIndex_eq level).trans hi)
      (List.getElem?_set_self hlt) (by rwa [LevelSelection.pick_level]) (by simpa using hlt)
      (List.getElem_set_self _)
    refine ⟨active, fun hin => ?_, ?_⟩
    · have hsame : (s.activate i).active = s.active := by
        unfold activate
        rw [if_pos hin]
      exact (hactive (hsame.symm ▸ hin)).trans hsame
    · rw [pickMembers, List.foldlM_cons, hpick, ok_bind]
      rw [List.set_set] at ht
      exact ht

end HierarchySelection

namespace Query

/-- A change that picks members of a level, given as such or by name, or that puts a level of the
hierarchy into use or out of it, together with the picks it makes. -/
inductive Picks (cube : Cube) (hierarchy : String) (l : Level) :
    Change → List (Pick × Member) → Prop where
  | members (p : Pick) {ms : List Member} (hms : ∀ m ∈ ms, m ∈ l.members) :
    Picks cube hierarchy l (.hierarchy hierarchy (.pick p ms)) (ms.map (p, ·))
  | named (p : Pick) {written : String} {m : Member} (hm : cube.memberNamed? written = some m)
    (hon : m ∈ l.members) :
    Picks cube hierarchy l (.pickMember p hierarchy written) [(p, m)]
  | includeLevel (name : String) :
    Picks cube hierarchy l (.hierarchy hierarchy (.includeLevel name)) []
  | excludeLevel (name : String) :
    Picks cube hierarchy l (.hierarchy hierarchy (.excludeLevel name)) []

theorem Picks.on_level {cube : Cube} {hierarchy : String} {l : Level} {c : Change}
    {calls : List (Pick × Member)} (h : Picks cube hierarchy l c calls) :
    ∀ call ∈ calls, call.2 ∈ l.members := by
  cases h with
  | members p hms =>
    intro call hcall
    obtain ⟨m, hm, rfl⟩ := List.mem_map.1 hcall
    exact hms m hm
  | named p hm hon => exact List.forall_mem_singleton.2 hon
  | includeLevel | excludeLevel => exact List.forall_mem_nil _

variable {q : Query} {hierarchy level : String} {j i : Nat} {l l' : LevelSelection}

theorem after_cube (q : Query) (c : Change) : (q.after c).cube = q.cube := by
  cases h : q.change c with
  | ok r => rw [after_of_ok h, change_cube h]
  | error e => rw [after_of_error h]

/-- Changing the hierarchy that a name stands for changes it at its position, or nothing. -/
theorem after_hierarchy {s : HierarchySelection} (hj : q.find? hierarchy = some j)
    (hs : q.hierarchies[j]? = some s) (c : HierarchyChange) :
    (∃ t, s.change c = .ok t ∧ q.after (.hierarchy hierarchy c) =
      { q with hierarchies := q.hierarchies.set j t }) ∨ q.after (.hierarchy hierarchy c) = q := by
  cases h : q.change (.hierarchy hierarchy c) with
  | error e => exact .inr (after_of_error h)
  | ok r =>
    obtain ⟨j', s', t, hj', hs', ht, rfl⟩ := exists_of_update h
    cases hj.symm.trans hj'
    cases hs.symm.trans hs'
    exact .inl ⟨t, ht, after_of_ok h⟩

/-- One name stands for the hierarchy at a position, the other for a level of it. -/
structure LevelAt (q : Query) (hierarchy level : String) (j i : Nat) (l : LevelSelection) :
    Prop where
  found : q.find? hierarchy = some j
  level : ∃ s, q.hierarchies[j]? = some s ∧ s.Homed ∧ s.levelIndex level = .ok i ∧
    s.levels[i]? = some l

namespace LevelAt

theorem set {s t : HierarchySelection} (hq : q.LevelAt hierarchy level j i l)
    (hs : q.hierarchies[j]? = some s) (hg : HierarchySelection.SameGround s t)
    (ht : t.levels[i]? = some l') :
    { q with hierarchies := q.hierarchies.set j t }.LevelAt hierarchy level j i l' := by
  obtain ⟨hj, s', hs', hhomed, hi, -⟩ := hq
  cases hs.symm.trans hs'
  refine ⟨?_, t, List.getElem?_set_self (List.getElem?_eq_some_iff.1 hs).1, hhomed.of_ground hg,
    (hg.levelIndex_eq level).trans hi, ht⟩
  rw [← hj]
  exact find?_of_registry (map_set_eq hs hg.hierarchy) hierarchy

theorem pick (hq : q.LevelAt hierarchy level j i l) {p : Pick} {ms : List Member}
    (hms : ∀ m ∈ ms, m ∈ l.level.members) :
    ∃ r, q.update hierarchy (·.pickMembers p ms) = .ok r ∧
      r.LevelAt hierarchy level j i (l.pickAll (ms.map (p, ·))) := by
  obtain ⟨s, hs, hhomed, hi, hl⟩ := hq.level
  obtain ⟨active, -, ht⟩ := HierarchySelection.pickMembers_on hhomed hi hl (p := p) hms
  exact ⟨_, update_of_find? hq.found hs ht, hq.set hs (HierarchySelection.pickMembers_ground ht)
    (List.getElem?_set_self (List.getElem?_eq_some_iff.1 hl).1)⟩

/-- Levels come into use and go out of use without being changed. -/
theorem toggle (hq : q.LevelAt hierarchy level j i l) {c : HierarchyChange}
    (hc : ∀ s t : HierarchySelection, s.change c = .ok t → t.levels = s.levels) :
    (q.after (.hierarchy hierarchy c)).LevelAt hierarchy level j i l := by
  obtain ⟨s, hs, hhomed, hi, hl⟩ := hq.level
  rcases after_hierarchy hq.found hs c with ⟨t, ht, h⟩ | h
  · rw [h]
    exact hq.set hs (HierarchySelection.change_ground ht) (hc s t ht ▸ hl)
  · rw [h]
    exact hq

/-- One change makes exactly its picks on the level. -/
theorem after (hq : q.LevelAt hierarchy level j i l) {c : Change} {calls : List (Pick × Member)}
    (hc : Picks q.cube hierarchy l.level c calls) :
    (q.after c).LevelAt hierarchy level j i (l.pickAll calls) := by
  cases hc with
  | members p hms =>
    obtain ⟨r, hr, hl⟩ := hq.pick (p := p) hms
    rw [after_of_ok (show q.change (.hierarchy hierarchy (.pick p _)) = .ok r from hr)]
    exact hl
  | @named p written m hm hon =>
    obtain ⟨r, hr, hl⟩ := hq.pick (p := p) (List.forall_mem_singleton.2 hon)
    have hchange : q.change (.pickMember p hierarchy written) = .ok r := by
      show q.pickMember p hierarchy written = .ok r
      unfold Query.pickMember
      rw [lookupMember, hm, ok_bind, ← hr]
      simp only [HierarchySelection.pickMembers_singleton]
    rw [after_of_ok hchange]
    exact hl
  | includeLevel name =>
    refine hq.toggle fun s t h => ?_
    obtain ⟨k, -, rfl⟩ := HierarchySelection.includeLevel_eq_ok.1 h
    exact HierarchySelection.activate_levels s k
  | excludeLevel name =>
    refine hq.toggle fun s t h => ?_
    obtain ⟨k, -, rfl⟩ := HierarchySelection.excludeLevel_eq_ok.1 h
    rfl

/-- A sequence of changes makes exactly its picks on the level, in order. -/
theorem afterAll (hq : q.LevelAt hierarchy level j i l) {ds : List Change}
    {calls : List (List (Pick × Member))}
    (hds : List.Forall₂ (Picks q.cube hierarchy l.level) ds calls) :
    (q.afterAll ds).LevelAt hierarchy level j i (l.pickAll calls.flatten) := by
  induction ds generalizing q l calls with
  | nil =>
    cases hds
    exact hq
  | cons c ds ih =>
    obtain ⟨call, rest, hc, hrest, rfl⟩ := List.forall₂_cons_left_iff.1 hds
    rw [List.flatten_cons, LevelSelection.pickAll_append, afterAll_cons]
    refine ih (hq.after hc) ?_
    rw [LevelSelection.pickAll_level, after_cube]
    exact hrest

end LevelAt

/-- A level of a hierarchy, both found by name, lies at a position. -/
theorem levelAt_of_found {s : HierarchySelection} (hhomed : ∀ s ∈ q.hierarchies, s.Homed)
    (hs : q.hierarchy? hierarchy = some s) (hl : s.level? level = some l) :
    ∃ j i, q.LevelAt hierarchy level j i l := by
  obtain ⟨j, hj, hs⟩ := Option.bind_eq_some_iff.1 hs
  obtain ⟨i, hi, hl⟩ := HierarchySelection.level?_eq_some.1 hl
  exact ⟨j, i, hj, s, hs, hhomed s (List.mem_of_getElem? hs), hi, hl⟩

/-- **Picks of members.** Let nothing be picked on a level, which has no range, parameter, override
or filter either. After any sequence of inclusions and exclusions of its members, whichever levels
come into use and go out of it in between, the set of the level lists a member exactly if that was
never excluded and either was included, or no member has an inclusion as its last pick and the
whole level stands for it too. A name that no member of the level bears is listed only if the whole
level stands for it and counts. -/
theorem picks_listed (name : String) (e : CubeEntry) (cs : List Change) {hierarchy level : String}
    {s : HierarchySelection} {l : LevelSelection}
    (hs : ((new name e.link).afterAll cs).hierarchy? hierarchy = some s)
    (hl : s.level? level = some l) (hbare : l.Bare) (hincluded : l.included = [])
    (hexcluded : l.excluded = []) {ds : List Change} {calls : List (List (Pick × Member))}
    (hds : List.Forall₂ (Picks e.link hierarchy l.level) ds calls) :
    ∃ s' l', (((new name e.link).afterAll cs).afterAll ds).hierarchy? hierarchy = some s' ∧
      s'.level? level = some l' ∧ l'.level = l.level ∧
      ∀ (c : Compiler) (parameters : Parameters) (levels : String → List String)
        (whole : List String), c.wholeNames? levels s'.hierarchy l.level = some whole →
        ∃ set names, c.levelSet parameters s'.hierarchy l' = .ok set ∧
          set.listed? levels = some names ∧
          (∀ m ∈ l.level.members, m.uniqueName ∈ names ↔ (.exclusion, m) ∉ calls.flatten ∧
            ((.inclusion, m) ∈ calls.flatten ∨
              NoneIncluded calls.flatten ∧ m.uniqueName ∈ whole)) ∧
          ∀ u, (∀ m ∈ l.level.members, m.uniqueName ≠ u) →
            (u ∈ names ↔ NoneIncluded calls.flatten ∧ u ∈ whole) := by
  obtain ⟨j, i, hat⟩ := levelAt_of_found (homed_afterAll name e cs) hs hl
  have hcube : ((new name e.link).afterAll cs).cube = e.link :=
    (sound_afterAll name e.link cs).onCube
  obtain ⟨hj, s', hs', hhomed, hi, hl'⟩ := hat.afterAll (hcube.symm ▸ hds)
  have hpath : IsPathText l.level.hierarchy := by
    have hhome := hhomed.levels _ (List.mem_of_getElem? hl')
    rw [LevelSelection.pickAll_level] at hhome
    exact hhome ▸ hhomed.name
  have hcalls : ∀ call ∈ calls.flatten, call.2 ∈ l.level.members := by
    intro call hcall
    obtain ⟨made, hmade, hcall⟩ := List.mem_flatten.1 hcall
    obtain ⟨d, -, hd⟩ := forall₂_exists hds.flip hmade
    exact hd.on_level call hcall
  refine ⟨s', l.pickAll calls.flatten, Option.bind_eq_some_iff.2 ⟨j, hj, hs'⟩,
    HierarchySelection.level?_eq_some.2 ⟨i, hi, hl'⟩, LevelSelection.pickAll_level _, ?_⟩
  intro c parameters levels whole hwhole
  exact Compiler.levelSet_picked hbare hpath hincluded hexcluded hcalls hwhole

/-- The years of the sales, and a year by its name. -/
def years : Level := (sales.hierarchies.headD default).levels.headD default

def year (name : String) : Member := years.member [name]

/-- A year is included, excluded and included again while its level goes out of use. -/
def wavering : List Change := [
  .hierarchy "Time" (.pick .inclusion [year "2024", year "2025"]),
  .pickMember .exclusion "Time" "[Time].[2024]",
  .hierarchy "Time" (.excludeLevel "Year"),
  .hierarchy "Time" (.pick .inclusion [year "2024"])]

theorem picks_listed_wavering :
    ∃ s l set names, ((new "q" sales).afterAll wavering).hierarchy? "Time" = some s ∧
      s.level? "Year" = some l ∧ (Compiler.ofCube sales).levelSet .empty s.hierarchy l = .ok set ∧
      set.listed? (fun _ => ["[Time].[2024]", "[Time].[2025]"]) = some names ∧
      "[Time].[2024]" ∉ names ∧ "[Time].[2025]" ∈ names := by
  have hpicks : List.Forall₂ (Picks sales "Time" years) wavering
      [[(.inclusion, year "2024"), (.inclusion, year "2025")], [(.exclusion, year "2024")], [],
        [(.inclusion, year "2024")]] := by
    refine .cons (.members _ (by decide +kernel)) (.cons (.named _ (by decide +kernel) ?_)
      (.cons (.excludeLevel _) (.cons (.members _ (by decide +kernel)) .nil)))
    decide +kernel
  have htime : ((new "q" sales).afterAll []).hierarchy? "Time" =
      some (.new (sales.hierarchies.headD default)) := rfl
  have hyears : (HierarchySelection.new (sales.hierarchies.headD default)).level? "Year" =
      some { level := years } := rfl
  obtain ⟨s, l, hs, hl, -, hset⟩ :=
    picks_listed "q" salesEntry [] htime hyears ⟨rfl, rfl, rfl⟩ rfl rfl hpicks
  obtain ⟨set, names, hcompiled, hnames, hmembers, -⟩ := hset (Compiler.ofCube sales) .empty
    (fun _ => ["[Time].[2024]", "[Time].[2025]"]) _ rfl
  refine ⟨s, l, set, names, hs, hl, hcompiled, hnames, fun hin => ?_, ?_⟩
  · exact ((hmembers (year "2024") (by decide +kernel)).1 hin).1 (by decide +kernel)
  · exact (hmembers (year "2025") (by decide +kernel)).2
      ⟨by decide +kernel, .inl (by decide +kernel)⟩

end Query
end CubeQuery
