import CubeQuery.Proofs.Coherent
import CubeQuery.Proofs.DeadState

/-!
# Clearing a selection

A selection is cleared by taking all of its levels out of use, but what is picked is dropped on the
levels in use only (`clear_levels`). What was picked on a level that went out of use before stays,
and it counts again as soon as the level comes back. So the selection is as if nothing had ever been
picked exactly where nothing is picked on levels out of use (`clear_eq_unpicked_iff`), and otherwise
the levels that were in use compile as if nothing had ever been picked on them
(`levels_cleared`).

Levels out of use hold nothing as long as no level goes out of use with something picked on it and
no range is written to a level out of use: these two are the only changes that leave something there
(`change_tidy_iff`), and after runs without them clearing does clear everything
(`after_clear_of_orderly`).
-/

namespace CubeQuery

/-! ## Levels -/

namespace LevelSelection

/-- Neither members nor a range are picked on the level. -/
structure Unpicked (l : LevelSelection) : Prop where
  included : l.included = []
  excluded : l.excluded = []
  range : l.range = none

theorem unpicked_clear (l : LevelSelection) : l.clear.Unpicked := ⟨rfl, rfl, rfl⟩

theorem clear_eq_self_iff {l : LevelSelection} : l.clear = l ↔ l.Unpicked := by
  constructor
  · intro h
    rw [← h]
    exact l.unpicked_clear
  · rintro ⟨hi, he, hr⟩
    cases l
    cases hi
    cases he
    cases hr
    rfl

/-- What is picked on a level comes from picks and ranges, not from its settings. -/
theorem Unpicked.change {l l' : LevelSelection} {c : LevelChange} (hl : l.Unpicked)
    (hc : ∀ start stop, c ≠ .range start stop) (h : l.change c = .ok l') : l'.Unpicked := by
  cases c with
  | range start stop => exact absurd rfl (hc start stop)
  | shape c =>
    obtain ⟨shape, -, h⟩ := bind_eq_ok.1 h
    cases h
    exact ⟨hl.included, hl.excluded, hl.range⟩
  | clearRange =>
    cases h
    exact ⟨hl.included, hl.excluded, rfl⟩
  | bind | unbind | parameterPick =>
    cases h
    exact ⟨hl.included, hl.excluded, hl.range⟩

end LevelSelection

/-! ## Hierarchies -/

namespace HierarchySelection

variable {s t : HierarchySelection}

/-- Nothing is picked on the levels out of use. -/
def Tidy (s : HierarchySelection) : Prop :=
  ∀ i l, s.levels[i]? = some l → i ∉ s.active → l.Unpicked

/-- The selection with nothing picked on any level and no level in use. The other settings of its
levels stay. -/
def unpicked (s : HierarchySelection) : HierarchySelection :=
  { s with levels := s.levels.map (·.clear), active := [] }

theorem tidy_new (h : Hierarchy) : (new h).Tidy := by
  intro i l hl _
  obtain ⟨level, -, rfl⟩ := List.mem_map.1 (List.mem_of_getElem? hl)
  exact ⟨rfl, rfl, rfl⟩

/-- Clearing levels one after the other, and some of them twice, comes to clearing each listed
level. -/
theorem foldl_clear (is : List Nat) (s : HierarchySelection) :
    is.foldl (fun s i => s.modifyLevel i (·.clear)) s =
      { s with levels := s.levels.mapIdx fun j l => if j ∈ is then l.clear else l } := by
  induction is generalizing s with
  | nil =>
    have hlevels : (s.levels.mapIdx fun _ l => l) = s.levels :=
      List.ext_getElem? fun j => by simp
    simp [hlevels]
  | cons i is ih =>
    have hlevels : ((s.modifyLevel i (·.clear)).levels.mapIdx
          fun j l => if j ∈ is then l.clear else l) =
        s.levels.mapIdx fun j l => if j ∈ i :: is then l.clear else l := by
      refine List.ext_getElem? fun j => ?_
      simp only [modifyLevel, List.getElem?_mapIdx, List.getElem?_modify]
      cases s.levels[j]? with
      | none => rfl
      | some l =>
        by_cases hij : i = j
        · subst hij
          simp [LevelSelection.clear]
        · simp [hij, Ne.symm hij]
    rw [List.foldl_cons, ih, hlevels]
    rfl

theorem clear_eq (s : HierarchySelection) :
    s.clear = { s with
      levels := s.levels.mapIdx fun j l => if j ∈ s.active then l.clear else l
      active := [] } := by
  rw [clear, foldl_clear]

theorem clear_levels (s : HierarchySelection) (j : Nat) :
    s.clear.levels[j]? = (s.levels[j]?).map fun l => if j ∈ s.active then l.clear else l := by
  rw [clear_eq, List.getElem?_mapIdx]

/-- A level that was in use, or had nothing picked on it, is as if nothing had been picked. -/
theorem clear_level_eq {j : Nat}
    (hj : ∀ l, s.levels[j]? = some l → j ∈ s.active ∨ l.Unpicked) :
    s.clear.levels[j]? = s.unpicked.levels[j]? := by
  rw [clear_levels, unpicked, List.getElem?_map]
  cases hl : s.levels[j]? with
  | none => rfl
  | some l =>
    rw [Option.map_some, Option.map_some]
    split
    · rfl
    · next hnot => rw [LevelSelection.clear_eq_self_iff.2 ((hj l hl).resolve_left hnot)]

/-- Nothing is left exactly where nothing was picked on the levels out of use. -/
theorem clear_unpicked_iff : (∀ l ∈ s.clear.levels, l.Unpicked) ↔ s.Tidy := by
  constructor
  · intro h j l hl hj
    refine h l (List.mem_iff_getElem?.2 ⟨j, ?_⟩)
    rw [clear_levels, hl, Option.map_some, if_neg hj]
  · intro h l hl
    obtain ⟨j, hj⟩ := List.mem_iff_getElem?.1 hl
    rw [clear_levels] at hj
    obtain ⟨k, hk, rfl⟩ := Option.map_eq_some_iff.1 hj
    split
    · exact k.unpicked_clear
    · next hnot => exact h j k hk hnot

/-- The selection is as if nothing had ever been picked, exactly where nothing was picked on the
levels out of use. -/
theorem clear_eq_unpicked_iff : s.clear = s.unpicked ↔ s.Tidy := by
  constructor
  · intro h
    refine clear_unpicked_iff.1 fun l hl => ?_
    rw [h] at hl
    obtain ⟨k, -, rfl⟩ := List.mem_map.1 hl
    exact k.unpicked_clear
  · intro h
    have hlevels : s.clear.levels = s.unpicked.levels :=
      List.ext_getElem? fun j => clear_level_eq fun l hl =>
        (Decidable.em (j ∈ s.active)).imp_right (h j l hl)
    rw [clear_eq] at hlevels ⊢
    rw [unpicked, ← show _ = s.levels.map (·.clear) from hlevels]

/-! ### Levels that come back into use -/

/-- The selection as a change leaves it, accepted or not. -/
def after (s : HierarchySelection) (c : HierarchyChange) : HierarchySelection :=
  ((InPlace.hierarchy c).start s).2

/-- The selection as a sequence of changes leaves it, whichever of them are accepted. -/
def afterAll (s : HierarchySelection) (cs : List HierarchyChange) : HierarchySelection :=
  cs.foldl after s

theorem after_of_ok {c : HierarchyChange} (h : s.change c = .ok t) : s.after c = t := by
  rw [after, InPlace.start_hierarchy, h, Edit.settle_ok]

theorem after_of_error {c : HierarchyChange} {r : Rejection} (h : s.change c = .error r) :
    s.after c = s := by
  rw [after, InPlace.start_hierarchy, h, Edit.settle_error]

theorem after_ground (s : HierarchySelection) (c : HierarchyChange) : SameGround s (s.after c) := by
  cases h : s.change c with
  | ok t =>
    rw [after_of_ok h]
    exact change_ground h
  | error r =>
    rw [after_of_error h]
    exact SameGround.refl s

theorem after_includeLevel (s : HierarchySelection) (name : String) :
    s.after (.includeLevel name) =
      match s.levelIndex name with
      | .ok i => s.activate i
      | .error _ => s := by
  cases h : s.levelIndex name with
  | ok i => exact after_of_ok (includeLevel_eq_ok.2 ⟨i, h, rfl⟩)
  | error r =>
    refine after_of_error (r := r) ?_
    show s.includeLevel name = .error r
    rw [includeLevel, h, error_bind]

/-- Selections that differ in what is picked on levels out of use only. -/
structure Twin (s t : HierarchySelection) : Prop where
  ground : SameGround s t
  picks : s.SamePicks t
  shape : t.shape = s.shape
  visualTotals : t.visualTotals = s.visualTotals
  visualPattern : t.visualPattern = s.visualPattern

theorem Twin.sameLive (h : s.Twin t) : s.SameLive t :=
  ⟨h.ground.hierarchy, h.shape, h.visualTotals, h.visualPattern, fun _ => h.picks⟩

theorem twin_clear (s : HierarchySelection) : s.clear.Twin s.unpicked := by
  have hground : SameGround s.clear s.unpicked := by
    refine ⟨(clear_ground s).hierarchy.symm, (clear_ground s).location.symm, ?_⟩
    rw [(clear_ground s).levels, unpicked, List.map_map]
    rfl
  rw [clear_eq] at hground ⊢
  exact ⟨hground, ⟨rfl, rfl, rfl, rfl, fun _ hi => absurd hi List.not_mem_nil⟩, rfl, rfl, rfl⟩

/-- They stay such if a level comes into use on which they do not differ. -/
theorem Twin.activate (h : s.Twin t) {i : Nat} (hi : t.levels[i]? = s.levels[i]?) :
    (s.activate i).Twin (t.activate i) := by
  have hdepth : t.depthAt = s.depthAt := funext (depthAt_of_levels h.ground.levels)
  have hlevels : ∀ j ∈ (s.activate i).active, t.levels[j]? = s.levels[j]? := by
    intro j hj
    rcases mem_activate.1 hj with rfl | hj
    · exact hi
    · exact h.picks.levels j hj
  unfold HierarchySelection.activate at hlevels ⊢
  rw [h.picks.active, hdepth]
  split
  · exact h
  · next hnot =>
    rw [if_neg hnot] at hlevels
    exact ⟨⟨h.ground.hierarchy, h.ground.location, h.ground.levels⟩,
      ⟨h.picks.consistent, h.picks.calculated, h.picks.activeCalculated, rfl, hlevels⟩,
      h.shape, h.visualTotals, h.visualPattern⟩

/-- Levels on which they do not differ come back into use. -/
theorem Twin.includeLevels (h : s.Twin t) {names : List String}
    (hnames : ∀ name ∈ names, ∀ i, s.levelIndex name = .ok i → t.levels[i]? = s.levels[i]?) :
    (s.afterAll (names.map .includeLevel)).Twin (t.afterAll (names.map .includeLevel)) := by
  induction names generalizing s t with
  | nil => exact h
  | cons name names ih =>
    obtain ⟨hname, hnames⟩ := List.forall_mem_cons.1 hnames
    have hindex : t.levelIndex name = s.levelIndex name := h.ground.levelIndex_eq name
    simp only [List.map_cons, afterAll, List.foldl_cons, after_includeLevel, hindex]
    cases hi : s.levelIndex name with
    | error r => exact ih h hnames
    | ok i =>
      refine ih (h.activate (hname i hi)) fun name' hname' j hj => ?_
      rw [(activate_ground s i).levelIndex_eq] at hj
      rw [activate_levels, activate_levels]
      exact hnames name' hname' j hj

end HierarchySelection

/-! ## Queries -/

namespace Query

variable {q : Query} {name : String} {i : Nat} {s t : HierarchySelection}

/-- The query with another selection in the place of one. -/
def withSelection (q : Query) (i : Nat) (s : HierarchySelection) : Query :=
  { q with hierarchies := q.hierarchies.set i s }

/-- A change of a hierarchy, accepted or not, puts what it leaves of the selection in its place. -/
theorem after_hierarchy_eq (hi : q.find? name = some i) (hs : q.hierarchies[i]? = some s)
    (c : HierarchyChange) : q.after (.hierarchy name c) = q.withSelection i (s.after c) := by
  obtain ⟨hlt, rfl⟩ := List.getElem?_eq_some_iff.1 hs
  cases h : q.hierarchies[i].change c with
  | ok t =>
    rw [HierarchySelection.after_of_ok h]
    exact after_of_ok (update_of_find? hi hs h)
  | error r =>
    rw [HierarchySelection.after_of_error h, withSelection, List.set_getElem_self]
    exact after_of_error (update_of_error hi hs h)

theorem found_withSelection (hi : q.find? name = some i) (hs : q.hierarchies[i]? = some s)
    (h : HierarchySelection.SameGround s t) :
    (q.withSelection i t).find? name = some i ∧
      (q.withSelection i t).hierarchies[i]? = some t := by
  refine ⟨?_, List.getElem?_set_self (List.getElem?_eq_some_iff.1 hs).1⟩
  rw [← hi]
  exact find?_of_registry (map_set_eq hs h.hierarchy) name

theorem withSelection_withSelection (q : Query) (i : Nat) (s t : HierarchySelection) :
    (q.withSelection i s).withSelection i t = q.withSelection i t := by
  rw [withSelection, withSelection, List.set_set]
  rfl

/-- So do changes made one after the other. -/
theorem afterAll_hierarchy_eq (hi : q.find? name = some i) (hs : q.hierarchies[i]? = some s)
    (cs : List HierarchyChange) :
    q.afterAll (cs.map (.hierarchy name)) = q.withSelection i (s.afterAll cs) := by
  induction cs generalizing q s with
  | nil =>
    obtain ⟨hlt, rfl⟩ := List.getElem?_eq_some_iff.1 hs
    show q = { q with hierarchies := q.hierarchies.set i q.hierarchies[i] }
    rw [List.set_getElem_self]
  | cons c cs ih =>
    obtain ⟨hi', hs'⟩ := found_withSelection hi hs (s.after_ground c)
    rw [List.map_cons, afterAll_cons, after_hierarchy_eq hi hs, ih hi' hs',
      withSelection_withSelection]
    rfl

/-- Selections that differ on levels out of use only make the same live state. -/
theorem withSelection_sameLive (h : s.Twin t) (q : Query) (i : Nat) :
    (q.withSelection i s).SameLive (q.withSelection i t) where
  cube := rfl
  block := rfl
  visualTotals := rfl
  visualPattern := rfl
  lowestLevelsOnly := rfl
  parameters := rfl
  calculated := by
    simp only [withSelection, List.map_set, h.picks.calculated]
  axes _ _ := rfl
  shown l _ j _ u u' hu hu' := by
    simp only [withSelection, List.getElem?_set] at hu hu'
    split at hu
    · next hij =>
      subst hij
      rw [if_pos rfl] at hu'
      split at hu
      · next hlt =>
        rw [if_pos hlt] at hu'
        cases hu
        cases hu'
        exact h.sameLive
      · cases hu
    · next hij =>
      rw [if_neg hij, hu] at hu'
      cases hu'
      exact ⟨rfl, rfl, rfl, rfl, fun _ => ⟨rfl, rfl, rfl, rfl, fun _ _ => rfl⟩⟩

theorem after_clear (hi : q.find? name = some i) (hs : q.hierarchies[i]? = some s) :
    q.after (.hierarchy name .clear) = q.withSelection i s.clear := by
  rw [after_hierarchy_eq hi hs, HierarchySelection.after_of_ok (c := .clear) rfl]

/-- The changes that put levels of a hierarchy into use, by their names. -/
def includeLevels (hierarchy : String) (names : List String) : List Change :=
  names.map fun n => .hierarchy hierarchy (.includeLevel n)

/-- Levels come back into use on another selection in the place of one. -/
theorem afterAll_includeLevels (hi : q.find? name = some i) (hs : q.hierarchies[i]? = some s)
    (h : HierarchySelection.SameGround s t) (names : List String) :
    (q.withSelection i t).afterAll (includeLevels name names) =
      q.withSelection i (t.afterAll (names.map .includeLevel)) := by
  obtain ⟨hi', hs'⟩ := found_withSelection hi hs h
  have hrun := afterAll_hierarchy_eq hi' hs' (names.map .includeLevel)
  rwa [List.map_map, withSelection_withSelection] at hrun

/-- **What clearing clears.** Clearing a selection takes all of its levels out of use and drops what
is picked on those that were in use. Nothing is left on any level, and the selection is as if
nothing had ever been picked, exactly where nothing was picked on levels out of use. Whatever is
left: levels that were in use, or had nothing picked on them, compile after they come back as if
nothing had ever been picked. -/
theorem levels_cleared (hi : q.find? name = some i) (hs : q.hierarchies[i]? = some s) :
    ∃ t, q.after (.hierarchy name .clear) = q.withSelection i t ∧ t.active = [] ∧
      (∀ j, t.levels[j]? = (s.levels[j]?).map fun l => if j ∈ s.active then l.clear else l) ∧
      ((∀ l ∈ t.levels, l.Unpicked) ↔ s.Tidy) ∧ (t = s.unpicked ↔ s.Tidy) ∧
      ∀ (c : Compiler) (names : List String),
        (∀ n ∈ names, ∀ j l, s.levelIndex n = .ok j → s.levels[j]? = some l →
          j ∈ s.active ∨ l.Unpicked) →
        c.statement ((q.after (.hierarchy name .clear)).afterAll (includeLevels name names)) =
          c.statement ((q.withSelection i s.unpicked).afterAll (includeLevels name names)) := by
  refine ⟨s.clear, after_clear hi hs, rfl, s.clear_levels, HierarchySelection.clear_unpicked_iff,
    HierarchySelection.clear_eq_unpicked_iff, fun c names hnames => ?_⟩
  have hlevels : ∀ n ∈ names, ∀ j, s.clear.levelIndex n = .ok j →
      s.unpicked.levels[j]? = s.clear.levels[j]? := by
    intro n hn j hj
    rw [(HierarchySelection.clear_ground s).levelIndex_eq] at hj
    exact (HierarchySelection.clear_level_eq (hnames n hn j · hj)).symm
  have htwin := s.twin_clear.includeLevels hlevels
  rw [after_clear hi hs, afterAll_includeLevels hi hs (HierarchySelection.clear_ground s),
    afterAll_includeLevels hi hs
      ((HierarchySelection.clear_ground s).trans s.twin_clear.ground)]
  exact (Compiler.statement_alike ((withSelection_sameLive htwin q i).sameQuery c)).symm

/-- A year is picked, and the months are in use. -/
def yearPicked : Query :=
  (new "q" sales).afterAll [.pickMember .inclusion "Time" "[Time].[2024]",
    .hierarchy "Time" (.includeLevel "Month"), .move "Time" .rows none]

theorem levels_cleared_yearPicked :
    ∃ s, (yearPicked.hierarchies[0]? = some s ∧ s.active = [0, 1]) ∧
      yearPicked.after (.hierarchy "Time" .clear) = yearPicked.withSelection 0 s.unpicked ∧
        (Compiler.ofCube sales).statement ((yearPicked.after (.hierarchy "Time" .clear)).afterAll
            (includeLevels "Time" ["Year"])) =
          (Compiler.ofCube sales).statement ((yearPicked.withSelection 0 s.unpicked).afterAll
            (includeLevels "Time" ["Year"])) := by
  have hi : yearPicked.find? "Time" = some 0 := by decide +kernel
  obtain ⟨s, hs⟩ : ∃ s, yearPicked.hierarchies[0]? = some s :=
    Option.isSome_iff_exists.1 (by decide +kernel)
  have hlists : (yearPicked.hierarchies[0]?).map (fun s => (s.active, s.levels.length)) =
      some ([0, 1], 2) := by
    decide +kernel
  rw [hs, Option.map_some, Option.some.injEq, Prod.mk.injEq] at hlists
  obtain ⟨hactive, hlength⟩ := hlists
  have hused : ∀ (j : Nat) (l : LevelSelection), s.levels[j]? = some l → j ∈ s.active := by
    intro j l hl
    have hj := (List.getElem?_eq_some_iff.1 hl).1
    rw [hactive]
    simp
    omega
  obtain ⟨t, ht, -, -, -, hiff, hsame⟩ := levels_cleared hi hs
  obtain rfl := hiff.2 fun j l hl hnot => absurd (hused j l hl) hnot
  exact ⟨s, ⟨hs, hactive⟩, ht, hsame _ ["Year"] fun _ _ j l _ hl => .inl (hused j l hl)⟩

/-- A year is picked, and the years go out of use. -/
def yearLeft : Query :=
  (new "q" sales).afterAll [.pickMember .inclusion "Time" "[Time].[2024]",
    .hierarchy "Time" (.excludeLevel "Year"), .move "Time" .rows none]

/-- The year is still picked when the selection has been cleared, and it is all that shows when the
years come back. -/
theorem level_left_uncleared :
    let cleared := yearLeft.after (.hierarchy "Time" .clear)
    (cleared.hierarchy? "Time").map (·.levels.map (·.included.map (·.uniqueName))) =
        some [["[Time].[2024]"], []] ∧
      (cleared.after (.hierarchy "Time" (.includeLevel "Year"))).text.toOption =
        some "SELECT\n\x7b[Time].[2024]\x7d ON ROWS\nFROM [Sales]" ∧
      ((new "q" sales).afterAll [.move "Time" .rows none,
        .hierarchy "Time" (.includeLevel "Year")]).text.toOption =
          some "SELECT\n\x7b[Time].[Year].Members\x7d ON ROWS\nFROM [Sales]" := by
  decide +kernel

end Query

/-! ## Levels out of use -/

/-- The change takes no level out of use that something is picked on, and writes no range to a level
out of use. -/
def HierarchyChange.Orderly (s : HierarchySelection) : HierarchyChange → Prop
  | .excludeLevel name => ∀ i l, s.levelIndex name = .ok i → s.levels[i]? = some l → l.Unpicked
  | .level name (.range ..) => ∀ i, s.levelIndex name = .ok i → i ∈ s.active
  | _ => True

namespace HierarchySelection

variable {s t : HierarchySelection}

/-- Levels may come into use, and levels in use may change. -/
theorem Tidy.of_levels (hs : s.Tidy) (hactive : ∀ i ∈ s.active, i ∈ t.active)
    (hlevels : ∀ i, i ∉ t.active → t.levels[i]? = s.levels[i]?) : t.Tidy := by
  intro i l hl hi
  rw [hlevels i hi] at hl
  exact hs i l hl fun h => hi (hactive i h)

theorem Tidy.activated (hs : s.Tidy) (i : Nat) (f : LevelSelection → LevelSelection) :
    ((s.activate i).modifyLevel i f).Tidy := by
  refine hs.of_levels (fun j hj => mem_activate.2 (.inr hj)) fun j hj => ?_
  have hne : i ≠ j := fun h => hj (mem_activate.2 (.inl h.symm))
  simp only [modifyLevel, List.getElem?_modify, if_neg hne, activate_levels]
  simp

/-- Another selection of a level keeps the levels out of use without picks, if it is one of a level
in use or has no picks either. -/
theorem Tidy.set_iff (hs : s.Tidy) {i : Nat} (hi : i < s.levels.length) {l : LevelSelection} :
    { s with levels := s.levels.set i l }.Tidy ↔ i ∈ s.active ∨ l.Unpicked := by
  constructor
  · intro h
    by_cases hactive : i ∈ s.active
    · exact .inl hactive
    · exact .inr (h i l (List.getElem?_set_self hi) hactive)
  · intro h j k hk hj
    rw [List.getElem?_set] at hk
    split at hk
    · next hij =>
      subst hij
      cases hk
      exact h.resolve_left hj
    · exact hs j k hk hj

/-- Of all changes, the orderly ones leave nothing picked on levels out of use. -/
theorem change_tidy_iff (hs : s.Tidy) {c : HierarchyChange} (h : s.change c = .ok t) :
    t.Tidy ↔ c.Orderly s := by
  have hsame : t.levels = s.levels → t.active = s.active → t.Tidy := by
    intro hlevels hactive
    exact hs.of_levels (fun i hi => hactive ▸ hi) fun i _ => by rw [hlevels]
  cases c with
  | includeLevel name =>
    obtain ⟨i, -, rfl⟩ := includeLevel_eq_ok.1 h
    refine iff_of_true (hs.of_levels (fun j hj => mem_activate.2 (.inr hj)) fun j _ => ?_) trivial
    rw [activate_levels]
  | excludeLevel name =>
    obtain ⟨i, hi, rfl⟩ := excludeLevel_eq_ok.1 h
    constructor
    · intro ht j l hj hl
      cases hi.symm.trans hj
      exact ht i l hl (by simp)
    · intro horderly j l hl hj
      by_cases hij : j = i
      · subst hij
        exact horderly j l hi hl
      · exact hs j l hl fun hmem => hj (List.mem_filter.2 ⟨hmem, by simpa using hij⟩)
  | clear =>
    cases h
    exact iff_of_true (fun j l hl _ => clear_unpicked_iff.2 hs l (List.mem_of_getElem? hl)) trivial
  | level name c =>
    obtain ⟨i, hi, levels, hlevels, rfl⟩ := updateLevel_eq_ok.1 h
    have hlt := lt_of_levelIndex hi
    obtain ⟨l, l', hl, hl', rfl⟩ := (changeAt_eq_ok_of_lt hlt).1 hlevels
    rw [hs.set_iff hlt]
    cases c with
    | range start stop =>
      cases hl'
      constructor
      · intro hactive j hj
        cases hi.symm.trans hj
        exact hactive.resolve_right fun hunpicked => nomatch hunpicked.range
      · exact fun horderly => .inl (horderly i hi)
    | clearRange | bind | unbind | parameterPick | shape =>
      refine iff_of_true ?_ trivial
      exact (Decidable.em (i ∈ s.active)).imp_right fun hnot =>
        (hs i l hl hnot).change (by simp) hl'
  | pick p ms =>
    exact iff_of_true (foldlM_keeps (fun s m t hs h => by
      obtain ⟨i, -, rfl⟩ := pickMember_eq_ok.1 h
      exact hs.activated i _) hs h) trivial
  | range start stop =>
    obtain ⟨-, -, i, -, rfl⟩ := includeRange_eq_ok.1 h
    exact iff_of_true (hs.activated i _) trivial
  | includeCalculated m onLevel =>
    refine iff_of_true ?_ trivial
    have hregister : ∀ {u j}, s.register m = .ok (u, j) → u.Tidy := by
      intro u j hu
      rcases register_eq_ok.1 hu with ⟨-, ⟨-, rfl⟩ | ⟨-, -, rfl⟩⟩ <;> exact hs
    have h := includeCalculated_eq_ok.1 h
    split at h
    · obtain ⟨i, -, u, j, hu, rfl⟩ := h
      exact (hregister hu).activated i _
    · obtain ⟨u, j, hu, rfl⟩ := h
      have hu := hregister hu
      split <;> exact hu
  | excludeCalculated uniqueName =>
    cases h
    refine iff_of_true (hsame ?_ ?_) trivial <;> (unfold excludeCalculated; split <;> rfl)
  | order c =>
    obtain ⟨shape, -, h⟩ := bind_eq_ok.1 h
    cases h
    exact iff_of_true (hsame rfl rfl) trivial
  | consistent | visualTotals | visualPattern =>
    cases h
    exact iff_of_true (hsame rfl rfl) trivial

end HierarchySelection

/-- A change is orderly if what it asks of the hierarchy it names is. -/
def Change.Orderly (q : Query) : Change → Prop
  | .hierarchy name c => ∀ s, q.hierarchy? name = some s → c.Orderly s
  | _ => True

namespace Query

variable {q r : Query}

/-- Orderly changes leave nothing picked on levels out of use. -/
theorem change_tidy {c : Change} (h : q.change c = .ok r) (hc : c.Orderly q)
    (hq : ∀ s ∈ q.hierarchies, s.Tidy) : ∀ s ∈ r.hierarchies, s.Tidy := by
  cases c with
  | hierarchy name c =>
    obtain ⟨i, s, t, hi, hs, ht, rfl⟩ := exists_of_update h
    have hfound : q.hierarchy? name = some s := by rw [hierarchy?, hi, Option.bind_some, hs]
    intro u hu
    rcases List.mem_or_eq_of_mem_set hu with hu | rfl
    · exact hq u hu
    · exact (HierarchySelection.change_tidy_iff (hq s (List.mem_of_getElem? hs)) ht).2
        (hc s hfound)
  | _ =>
    refine change_keeps (P := HierarchySelection.Tidy) (fun s l hs => hs) ?_ ?_ h hq
    · intro c' hasks s t hs ht
      cases hasks <;> exact (HierarchySelection.change_tidy_iff hs ht).2 trivial
    · intro m _ s t i hs ht
      rcases HierarchySelection.register_eq_ok.1 ht with ⟨-, ⟨-, rfl⟩ | ⟨-, -, rfl⟩⟩ <;> exact hs

/-- Each of the changes is orderly where it is made. -/
def OrderlyRun (q : Query) (cs : List Change) : Prop :=
  ∀ ds d es, cs = ds ++ d :: es → d.Orderly (q.afterAll ds)

theorem tidy_afterAll {cs : List Change} (hcs : q.OrderlyRun cs)
    (hq : ∀ s ∈ q.hierarchies, s.Tidy) : ∀ s ∈ (q.afterAll cs).hierarchies, s.Tidy := by
  induction cs generalizing q with
  | nil => exact hq
  | cons c cs ih =>
    rw [afterAll_cons]
    refine ih (fun ds d es h => ?_) ?_
    · rw [← afterAll_cons]
      exact hcs (c :: ds) d es (by rw [h]; rfl)
    · cases h : q.change c with
      | ok r =>
        rw [after_of_ok h]
        exact change_tidy h (hcs [] c cs rfl) hq
      | error e =>
        rw [after_of_error h]
        exact hq

/-- Clearing after a run of orderly changes of a new query leaves the selection as if nothing had
ever been picked. -/
theorem after_clear_of_orderly (name : String) (cube : Cube) {cs : List Change}
    (hcs : (new name cube).OrderlyRun cs) {hierarchy : String} {i : Nat} {s : HierarchySelection}
    (hi : ((new name cube).afterAll cs).find? hierarchy = some i)
    (hs : ((new name cube).afterAll cs).hierarchies[i]? = some s) :
    ((new name cube).afterAll cs).after (.hierarchy hierarchy .clear) =
      ((new name cube).afterAll cs).withSelection i s.unpicked := by
  have htidy : s.Tidy := by
    refine tidy_afterAll hcs (fun u hu => ?_) s (List.mem_of_getElem? hs)
    obtain ⟨h, -, rfl⟩ := List.mem_map.1 hu
    exact HierarchySelection.tidy_new h
  rw [after_clear hi hs, HierarchySelection.clear_eq_unpicked_iff.2 htidy]

end Query
end CubeQuery
