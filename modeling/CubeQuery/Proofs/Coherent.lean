import CubeQuery.Proofs.Active
import CubeQuery.Proofs.Distinct

/-!
# Selections are coherent

A selection refers to its levels and to its calculated members by position, and lists members that
were handed in from outside. `HierarchySelection.Coherent` says what these lists promise each other:
positions exist and stand in order, members belong to the level that lists them, nothing stands
twice. Every write keeps it (`Coherent.write`), so it holds after any changes of a query on a
linked cube (`selections_coherent`).
-/

namespace CubeQuery

/-! ## Levels -/

/-- The members picked on a level are its own, in each list once. -/
structure LevelSelection.Coherent (l : LevelSelection) (hierarchy : String) : Prop where
  included_nodup : l.included.Nodup
  excluded_nodup : l.excluded.Nodup
  included_own : ∀ m ∈ l.included, m.hierarchy = hierarchy ∧ m.level = l.level.uniqueName
  excluded_own : ∀ m ∈ l.excluded, m.hierarchy = hierarchy ∧ m.level = l.level.uniqueName

namespace LevelSelection.Coherent

variable {l l' : LevelSelection} {hierarchy : String}

theorem add (hl : l.Coherent hierarchy) {m : Member} (hh : m.hierarchy = hierarchy)
    (hm : m.level = l.level.uniqueName) : (l.add m).Coherent hierarchy := by
  unfold LevelSelection.add
  split
  · exact hl
  · next hnot =>
    exact ⟨nodup_concat hl.included_nodup hnot, hl.excluded_nodup,
      forall_mem_concat hl.included_own ⟨hh, hm⟩, hl.excluded_own⟩

theorem exclude (hl : l.Coherent hierarchy) {m : Member} (hh : m.hierarchy = hierarchy)
    (hm : m.level = l.level.uniqueName) : (l.exclude m).Coherent hierarchy := by
  have hincluded : ∀ x ∈ l.included.filter (· ≠ m),
      x.hierarchy = hierarchy ∧ x.level = l.level.uniqueName :=
    fun x hx => hl.included_own x (List.mem_of_mem_filter hx)
  unfold LevelSelection.exclude
  split
  · exact ⟨hl.included_nodup.filter _, hl.excluded_nodup, hincluded, hl.excluded_own⟩
  · next hnot =>
    exact ⟨hl.included_nodup.filter _, nodup_concat hl.excluded_nodup hnot, hincluded,
      forall_mem_concat hl.excluded_own ⟨hh, hm⟩⟩

theorem write (hl : l.Coherent hierarchy) (h : l.Write hierarchy l') : l'.Coherent hierarchy := by
  cases h with
  | pick p m hh hm =>
    cases p with
    | inclusion => exact hl.add hh hm
    | exclusion => exact hl.exclude hh hm
  | clear =>
    exact ⟨.nil, .nil, fun m hm => absurd hm List.not_mem_nil,
      fun m hm => absurd hm List.not_mem_nil⟩
  | setting hlevel hi he =>
    constructor
    · exact hi ▸ hl.included_nodup
    · exact he ▸ hl.excluded_nodup
    · rw [hi, hlevel]
      exact hl.included_own
    · rw [he, hlevel]
      exact hl.excluded_own

end LevelSelection.Coherent

/-! ## Hierarchies -/

namespace HierarchySelection

/-- The levels stand in the order of their depth, counted from the root. -/
def Layered (s : HierarchySelection) : Prop := ∀ i < s.levels.length, s.depthAt i = i

/-- What the lists of a selection promise each other. -/
structure Coherent (s : HierarchySelection) : Prop where
  active_lt : ∀ i ∈ s.active, i < s.levels.length
  /-- The levels in use go deeper and deeper. -/
  active_deeper : s.active.Pairwise (s.depthAt · < s.depthAt ·)
  levels : ∀ l ∈ s.levels, l.Coherent s.uniqueName
  calculated_nodup : (s.calculated.map (·.uniqueName)).Nodup
  calculated_own : ∀ m ∈ s.calculated, m.hierarchy = s.uniqueName
  activeCalculated_lt : ∀ i ∈ s.activeCalculated, i < s.calculated.length
  activeCalculated_nodup : s.activeCalculated.Nodup

theorem coherent_new (h : Hierarchy) : (new h).Coherent where
  active_lt _ hi := absurd hi List.not_mem_nil
  active_deeper := .nil
  levels l hl := by
    obtain ⟨level, -, rfl⟩ := List.mem_map.1 hl
    exact ⟨.nil, .nil, fun _ hm => absurd hm List.not_mem_nil,
      fun _ hm => absurd hm List.not_mem_nil⟩
  calculated_nodup := .nil
  calculated_own _ hm := absurd hm List.not_mem_nil
  activeCalculated_lt _ hi := absurd hi List.not_mem_nil
  activeCalculated_nodup := .nil

/-! ### What stays as it is -/

variable {s t : HierarchySelection}

/-- Selections with the same levels have them at the same depths. -/
theorem depthAt_of_levels (h : t.levels.map (·.level) = s.levels.map (·.level)) (i : Nat) :
    t.depthAt i = s.depthAt i := by
  have key : ∀ u : HierarchySelection,
      u.depthAt i = (((u.levels.map (·.level))[i]?).map (·.depth)).getD 0 := by
    intro u
    rw [List.getElem?_map, Option.map_map]
    rfl
  rw [key, key, h]

theorem Write.length_levels (h : s.Write t) : t.levels.length = s.levels.length := by
  simpa using congrArg List.length h.ground.2

theorem Write.uniqueName_eq (h : s.Write t) : t.uniqueName = s.uniqueName :=
  congrArg Hierarchy.uniqueName h.ground.1

theorem Layered.write (hs : s.Layered) (h : s.Write t) : t.Layered := by
  intro i hi
  rw [h.length_levels] at hi
  rw [depthAt_of_levels h.ground.2]
  exact hs i hi

/-! ### The levels in use -/

theorem mem_activate {i j : Nat} : j ∈ (s.activate i).active ↔ j = i ∨ j ∈ s.active := by
  unfold activate
  split
  · next hi =>
    constructor
    · exact .inr
    · rintro (rfl | hj)
      · exact hi
      · exact hj
  · rw [(perm_sortByDepth s.depthAt _).mem_iff, List.mem_append, List.mem_singleton, or_comm]

/-- Where depths are positions, a list in the order of depth without repetitions goes deeper from
each entry to the next. -/
theorem Layered.deeper (hs : s.Layered) {is : List Nat} (hlt : ∀ i ∈ is, i < s.levels.length)
    (hn : is.Nodup) (hle : is.Pairwise (s.depthAt · ≤ s.depthAt ·)) :
    is.Pairwise (s.depthAt · < s.depthAt ·) := by
  refine (hle.and hn).imp_of_mem fun {i j} hi hj ⟨hij, hne⟩ => ?_
  rw [hs i (hlt i hi), hs j (hlt j hj)] at hij ⊢
  omega

theorem Coherent.active_nodup (hs : s.Coherent) : s.active.Nodup :=
  hs.active_deeper.imp fun {i j} hij heq => by
    subst heq
    exact Nat.lt_irrefl _ hij

theorem Coherent.activate_deeper (hs : s.Coherent) (hlayered : s.Layered) {i : Nat}
    (hi : i < s.levels.length) :
    (s.activate i).active.Pairwise (s.depthAt · < s.depthAt ·) := by
  have hlt : ∀ j ∈ (s.activate i).active, j < s.levels.length := by
    intro j hj
    rcases mem_activate.1 hj with rfl | hj
    · exact hi
    · exact hs.active_lt j hj
  refine hlayered.deeper hlt (nodup_activate hs.active_nodup i) ?_
  unfold activate
  split
  · exact hs.active_deeper.imp Nat.le_of_lt
  · exact sortByDepth_sorted s.depthAt _

/-- A write keeps the order of the levels in use, told by the depths before it. -/
theorem Coherent.write_active (hs : s.Coherent) (hlayered : s.Layered) (h : s.Write t) :
    (∀ i ∈ t.active, i < s.levels.length) ∧ t.active.Pairwise (s.depthAt · < s.depthAt ·) := by
  have same : t.active = s.active →
      (∀ i ∈ t.active, i < s.levels.length) ∧ t.active.Pairwise (s.depthAt · < s.depthAt ·) := by
    intro ha
    rw [ha]
    exact ⟨hs.active_lt, hs.active_deeper⟩
  cases h with
  | activate i hi =>
    refine ⟨fun j hj => ?_, hs.activate_deeper hlayered hi⟩
    rcases mem_activate.1 hj with rfl | hj
    · exact hi
    · exact hs.active_lt j hj
  | retire is his =>
    exact ⟨fun i hi => hs.active_lt i (his.subset hi), hs.active_deeper.sublist his⟩
  | register m i h => exact same (register_active h)
  | level | use | drop => exact same rfl
  | setting _ _ ha => exact same ha

/-! ### The picked members -/

theorem Coherent.write_levels (hs : s.Coherent) (h : s.Write t) :
    ∀ l ∈ t.levels, l.Coherent s.uniqueName := by
  cases h with
  | activate i =>
    unfold activate
    split <;> exact hs.levels
  | level i f hf =>
    intro l hl
    obtain ⟨j, hj⟩ := List.mem_iff_getElem?.1 hl
    rw [modifyLevel, List.getElem?_modify] at hj
    obtain ⟨l', hl', rfl⟩ := Option.map_eq_some_iff.1 hj
    have hcoherent := hs.levels l' (List.mem_of_getElem? hl')
    split
    · next hij =>
      subst hij
      exact hcoherent.write (hf l' hl')
    · exact hcoherent
  | register m i h =>
    rcases register_eq_ok.1 h with ⟨-, ⟨-, rfl⟩ | ⟨-, -, rfl⟩⟩ <;> exact hs.levels
  | retire | use | drop => exact hs.levels
  | setting _ hl => exact hl ▸ hs.levels

/-! ### The calculated members -/

theorem mem_calculatedNames {uniqueName : String} (h : s.calculatedIndex? uniqueName = none) :
    uniqueName ∉ s.calculated.map (·.uniqueName) := by
  intro hmem
  obtain ⟨m, hm, hname⟩ := List.mem_map.1 hmem
  have := List.findIdx?_eq_none_iff.1 h m hm
  simp [hname] at this

/-- A calculated member is registered under its name once, also in the place of another one. -/
theorem Coherent.register (hs : s.Coherent) {m : CalculatedMember} {i : Nat}
    (h : s.register m = .ok (t, i)) :
    (t.calculated.map (·.uniqueName)).Nodup ∧ (∀ x ∈ t.calculated, x.hierarchy = s.uniqueName) ∧
      s.calculated.length ≤ t.calculated.length ∧ t.activeCalculated = s.activeCalculated := by
  rcases register_eq_ok.1 h with ⟨hm, ⟨hi, rfl⟩ | ⟨hnone, -, rfl⟩⟩
  · obtain ⟨hlt, hname, -⟩ := List.findIdx?_eq_some_iff_getElem.1 hi
    have hnames : (s.calculated.set i m).map (·.uniqueName) = s.calculated.map (·.uniqueName) :=
      map_set_eq (List.getElem?_eq_getElem hlt) (of_decide_eq_true hname).symm
    refine ⟨?_, fun x hx => ?_, Nat.le_of_eq List.length_set.symm, rfl⟩
    · show ((s.calculated.set i m).map (·.uniqueName)).Nodup
      rw [hnames]
      exact hs.calculated_nodup
    · rcases List.mem_or_eq_of_mem_set hx with hx | rfl
      · exact hs.calculated_own x hx
      · exact hm
  · refine ⟨?_, forall_mem_concat hs.calculated_own hm, by simp, rfl⟩
    rw [List.map_append]
    exact nodup_concat hs.calculated_nodup (mem_calculatedNames hnone)

/-- Every write leaves a layered selection coherent. -/
theorem Coherent.write (hs : s.Coherent) (hlayered : s.Layered) (h : s.Write t) :
    t.Coherent := by
  obtain ⟨hlt, hdeeper⟩ := hs.write_active hlayered h
  have hcalculated : (t.calculated.map (·.uniqueName)).Nodup ∧
      (∀ m ∈ t.calculated, m.hierarchy = s.uniqueName) ∧
        (∀ i ∈ t.activeCalculated, i < t.calculated.length) ∧ t.activeCalculated.Nodup := by
    cases h with
    | register m i h =>
      obtain ⟨hnodup, hown, hlength, hactive⟩ := hs.register h
      rw [hactive]
      exact ⟨hnodup, hown, fun j hj => Nat.lt_of_lt_of_le (hs.activeCalculated_lt j hj) hlength,
        hs.activeCalculated_nodup⟩
    | use i hi hn =>
      exact ⟨hs.calculated_nodup, hs.calculated_own, forall_mem_concat hs.activeCalculated_lt hi,
        nodup_concat hs.activeCalculated_nodup hn⟩
    | drop is his =>
      exact ⟨hs.calculated_nodup, hs.calculated_own,
        fun i hi => hs.activeCalculated_lt i (his.subset hi), hs.activeCalculated_nodup.sublist his⟩
    | activate i =>
      unfold activate
      split <;> exact ⟨hs.calculated_nodup, hs.calculated_own, hs.activeCalculated_lt,
        hs.activeCalculated_nodup⟩
    | retire | level =>
      exact ⟨hs.calculated_nodup, hs.calculated_own, hs.activeCalculated_lt,
        hs.activeCalculated_nodup⟩
    | setting _ _ _ hc hu =>
      rw [hc, hu]
      exact ⟨hs.calculated_nodup, hs.calculated_own, hs.activeCalculated_lt,
        hs.activeCalculated_nodup⟩
  obtain ⟨hnodup, hown, hused, husedOnce⟩ := hcalculated
  refine ⟨?_, ?_, ?_, hnodup, ?_, hused, husedOnce⟩
  · rw [h.length_levels]
    exact hlt
  · simpa only [depthAt_of_levels h.ground.2] using hdeeper
  · rw [h.uniqueName_eq]
    exact hs.write_levels h
  · rw [h.uniqueName_eq]
    exact hown

/-! ### The levels in use, listed -/

/-- Each level in use is listed, and no other. -/
theorem Coherent.activeLevels_eq (hs : s.Coherent) :
    s.activeLevels.map some = s.active.map (s.levels[·]?) := by
  have key : ∀ is : List Nat, (∀ i ∈ is, i < s.levels.length) →
      (is.filterMap (s.levels[·]?)).map some = is.map (s.levels[·]?) := by
    intro is
    induction is with
    | nil => exact fun _ => rfl
    | cons i is ih =>
      intro h
      have hi := List.getElem?_eq_getElem (h i List.mem_cons_self)
      rw [List.filterMap_cons_some hi, List.map_cons, List.map_cons, hi,
        ih fun j hj => h j (List.mem_cons_of_mem i hj)]
  exact key s.active hs.active_lt

theorem Coherent.activeLevels_deeper (hs : s.Coherent) :
    s.activeLevels.Pairwise (·.level.depth < ·.level.depth) := by
  refine List.pairwise_filterMap.2 (hs.active_deeper.imp fun {i j} hij l hl k hk => ?_)
  have hdepth : ∀ {i : Nat} {l : LevelSelection}, s.levels[i]? = some l →
      s.depthAt i = l.level.depth := by
    intro i l hl
    rw [depthAt, hl]
    rfl
  rwa [hdepth hl, hdepth hk] at hij

end HierarchySelection

/-! ## Queries -/

theorem linkFrom_depth {hierarchy label : String} {depth : Nat} {es : List LevelEntry} {i : Nat}
    {l : Level} (h : (LevelEntry.linkFrom hierarchy label depth es)[i]? = some l) :
    l.depth = depth + i := by
  induction es generalizing depth i with
  | nil => cases h
  | cons e es ih =>
    cases i with
    | zero =>
      cases h
      rfl
    | succ i =>
      rw [ih h]
      omega

theorem layered_new {e : CubeEntry} {h : Hierarchy} (hh : h ∈ e.link.hierarchies) :
    (HierarchySelection.new h).Layered := by
  obtain ⟨d, -, h', -, rfl⟩ := mem_link hh
  intro i hi
  have hl := List.getElem?_eq_getElem hi
  rw [HierarchySelection.depthAt, hl]
  have hlevel : (h'.link d.name).levels[i]? =
      some ((HierarchySelection.new (h'.link d.name)).levels[i]).level := by
    simp [HierarchySelection.new]
  rw [Option.map_some, Option.getD_some, linkFrom_depth hlevel, Nat.zero_add]

namespace Query

/-- **Coherent selections.** After any changes of a new query on a linked cube, accepted or
rejected and whatever members they were given, the selection of each hierarchy is coherent: it
lists each level in use once, from the root down, and on each level members of that level only. -/
theorem selections_coherent (name : String) (e : CubeEntry) (cs : List Change) :
    ∀ s ∈ ((new name e.link).afterAll cs).hierarchies, s.Coherent ∧
      s.activeLevels.map some = s.active.map (s.levels[·]?) ∧
        s.activeLevels.Pairwise (·.level.depth < ·.level.depth) := by
  have hcoherent : ∀ s ∈ ((new name e.link).afterAll cs).hierarchies, s.Layered ∧ s.Coherent :=
    keeps_writes (fun h hh => ⟨layered_new hh, HierarchySelection.coherent_new h⟩)
      (fun s t hs h => ⟨hs.1.write h, hs.2.write hs.1 h⟩) name cs
  intro s hs
  obtain ⟨-, h⟩ := hcoherent s hs
  exact ⟨h, h.activeLevels_eq, h.activeLevels_deeper⟩

/-- A month comes into use ahead of its year, a country is taken for a year, and a sum is registered
again under its name. -/
def unsorted : List Change :=
  let sum (formula : String) : CalculatedMember :=
    { CalculatedMember.new ((sales.hierarchy? "[Time]").getD default) "Sum" formula with
      level := "[Time].[Year]" }
  [ .pickMember .inclusion "Time" "[Time].[2024].[5]",
    .pickMember .exclusion "Time" "[Time].[2024]",
    .hierarchy "Time" (.pick .inclusion
      [⟨"2025", "[Time].[2025]", "[Time].[Year]", "[Time]", 0, .regular⟩,
        ⟨"Peru", "[Store].[Peru]", "[Store].[Country]", "[Store]", 0, .regular⟩]),
    .hierarchy "Time" (.includeCalculated (sum "1") false),
    .hierarchy "Time" (.includeCalculated (sum "2") true) ]

theorem selections_coherent_unsorted :
    ∃ s ∈ ((new "q" sales).afterAll unsorted).hierarchies,
      (s.active = [0, 1] ∧ s.calculated.length = 1 ∧ s.activeCalculated = [0]) ∧ s.Coherent ∧
        s.activeLevels.Pairwise (·.level.depth < ·.level.depth) := by
  obtain ⟨s, hs, hlists⟩ : ∃ s ∈ ((new "q" sales).afterAll unsorted).hierarchies,
      s.active = [0, 1] ∧ s.calculated.length = 1 ∧ s.activeCalculated = [0] := by
    decide +kernel
  obtain ⟨hcoherent, -, hdeeper⟩ := selections_coherent "q" salesEntry unsorted s hs
  exact ⟨s, hs, hlists, hcoherent, hdeeper⟩

end Query
end CubeQuery
