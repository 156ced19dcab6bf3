import CubeQuery.Proofs.Coherent
import CubeQuery.Proofs.Ownership

/-!
# Names of levels

A level is found by its name or by its unique name, and the unique name is the name written below
that of the hierarchy. On a linked cube both ways lead to the same level (`levelIndexOf_below`). A
level comes into use only by being found in one of these ways, so every level in use is the one that
its name stands for (`Query.levelIndex_of_active`).
-/

namespace CubeQuery

open Identifier

/-! ## Paths below a name -/

theorem foldl_below_uniqueName {names : List String} (h : names ≠ []) (path : List String) :
    path.foldl below (uniqueName names) = uniqueName (names ++ path) := by
  induction path generalizing names with
  | nil => rw [List.append_nil, List.foldl_nil]
  | cons name path ih =>
    obtain ⟨first, names, rfl⟩ := List.exists_cons_of_ne_nil h
    rw [List.foldl_cons, ← uniqueName_concat, ih (by simp), List.append_assoc,
      List.singleton_append]

/-- What stands below a written path tells the names that lead to it. -/
theorem IsPathText.foldl_below_inj {text : String} (h : IsPathText text) {path path' : List String}
    (heq : path.foldl below text = path'.foldl below text) : path = path' := by
  obtain ⟨names, hne, rfl⟩ := h
  rw [foldl_below_uniqueName hne, foldl_below_uniqueName hne] at heq
  exact List.append_cancel_left (uniqueName_inj (by simp [hne]) (by simp [hne]) heq)

theorem IsPathText.below_right_inj {text a b : String} (h : IsPathText text)
    (heq : CubeQuery.below text a = CubeQuery.below text b) : a = b := by
  have hpaths : [a].foldl CubeQuery.below text = [b].foldl CubeQuery.below text := heq
  exact List.singleton_inj.1 (IsPathText.foldl_below_inj h hpaths)

/-! ## Levels of one hierarchy -/

namespace HierarchySelection

/-- The levels name the hierarchy as theirs. -/
structure Homed (s : HierarchySelection) : Prop where
  name : IsPathText s.uniqueName
  levels : ∀ l ∈ s.levels, l.level.hierarchy = s.uniqueName

variable {s t : HierarchySelection}

theorem levelIndex_eq_ok {name : String} {i : Nat} :
    s.levelIndex name = .ok i ↔ s.levels.findIdx? (·.level.name = name) = some i := by
  unfold levelIndex
  split <;> rename_i h <;> simp [h]

theorem levelIndexOf_eq_ok_iff {uniqueName : String} {i : Nat} :
    s.levelIndexOf uniqueName = .ok i ↔
      s.levels.findIdx? (·.level.uniqueName = uniqueName) = some i := by
  unfold levelIndexOf
  split <;> rename_i h <;> simp [h]

/-- The level of a name lies where the name leads to. -/
theorem level?_eq_some {name : String} {l : LevelSelection} :
    s.level? name = some l ↔ ∃ i, s.levelIndex name = .ok i ∧ s.levels[i]? = some l := by
  rw [level?, List.find?_eq_bind_findIdx?_getElem?, Option.bind_eq_some_iff]
  simp only [levelIndex_eq_ok]

namespace Homed

theorem of_ground (hs : s.Homed) (h : SameGround s t) : t.Homed := by
  have hname : t.uniqueName = s.uniqueName := uniqueName_of_ground h
  refine ⟨hname ▸ hs.name, fun l hl => ?_⟩
  have hlevel : l.level ∈ s.levels.map (·.level) := h.levels ▸ List.mem_map_of_mem hl
  obtain ⟨l', hl', heq⟩ := List.mem_map.1 hlevel
  rw [hname, ← heq]
  exact hs.levels l' hl'

theorem uniqueName_level (hs : s.Homed) {l : LevelSelection} (hl : l ∈ s.levels) :
    l.level.uniqueName = CubeQuery.below s.uniqueName l.level.name := by
  rw [Level.uniqueName, hs.levels l hl]

/-- A name and the unique name made of it stand for the same level. -/
theorem levelIndexOf_below (hs : s.Homed) {name : String} {i : Nat} :
    s.levelIndexOf (CubeQuery.below s.uniqueName name) = .ok i ↔ s.levelIndex name = .ok i := by
  have hsame : ∀ l ∈ s.levels,
      (l.level.uniqueName = CubeQuery.below s.uniqueName name ↔ l.level.name = name) := by
    intro l hl
    rw [hs.uniqueName_level hl]
    exact ⟨IsPathText.below_right_inj hs.name, congrArg _⟩
  rw [levelIndexOf_eq_ok_iff, levelIndex_eq_ok, List.findIdx?_eq_some_iff_getElem,
    List.findIdx?_eq_some_iff_getElem]
  simp [hsame]

theorem levelIndexOf_of_levelIndex (hs : s.Homed) {name : String} {i : Nat} {l : LevelSelection}
    (h : s.levelIndex name = .ok i) (hl : s.levels[i]? = some l) :
    s.levelIndexOf l.level.uniqueName = .ok i := by
  obtain ⟨hi, hname, -⟩ := List.findIdx?_eq_some_iff_getElem.1 (levelIndex_eq_ok.1 h)
  have hli : s.levels[i] = l := (List.getElem?_eq_some_iff.1 hl).2
  rw [hli, decide_eq_true_eq] at hname
  rw [hs.uniqueName_level (List.mem_of_getElem? hl), hname]
  exact hs.levelIndexOf_below.2 h

end Homed

/-! ## Levels that were found -/

/-- The position is what some name or unique name stands for. -/
def Found (s : HierarchySelection) (i : Nat) : Prop :=
  (∃ name, s.levelIndex name = .ok i) ∨ ∃ uniqueName, s.levelIndexOf uniqueName = .ok i

theorem Found.of_ground (h : SameGround s t) {i : Nat} (hi : s.Found i) : t.Found i := by
  rcases hi with ⟨name, hi⟩ | ⟨uniqueName, hi⟩
  · exact .inl ⟨name, (h.levelIndex_eq name).trans hi⟩
  · exact .inr ⟨uniqueName, (h.levelIndexOf_eq uniqueName).trans hi⟩

/-- A found level of a linked hierarchy is the one that its own name stands for. -/
theorem Found.levelIndex (hs : s.Homed) {i : Nat} (hi : s.Found i) {l : LevelSelection}
    (hl : s.levels[i]? = some l) : s.levelIndex l.level.name = .ok i := by
  rcases hi with ⟨name, hi⟩ | ⟨uniqueName, hi⟩
  · obtain ⟨hlt, hname, -⟩ := List.findIdx?_eq_some_iff_getElem.1 (levelIndex_eq_ok.1 hi)
    have hli : s.levels[i] = l := (List.getElem?_eq_some_iff.1 hl).2
    rw [hli, decide_eq_true_eq] at hname
    rwa [hname]
  · obtain ⟨l', hl', hname⟩ := levelIndexOf_eq_ok hi
    cases hl.symm.trans hl'
    rw [← hs.levelIndexOf_below, ← hs.uniqueName_level (List.mem_of_getElem? hl), hname]
    exact hi

theorem activate_found {i : Nat} (hi : s.Found i) (hs : ∀ j ∈ s.active, s.Found j) :
    ∀ j ∈ (s.activate i).active, s.Found j := by
  intro j hj
  rcases mem_activate.1 hj with rfl | hj
  · exact hi
  · exact hs j hj

theorem pickMember_found {p : Pick} {m : Member} (h : s.pickMember p m = .ok t)
    (hs : ∀ i ∈ s.active, s.Found i) : ∀ i ∈ t.active, t.Found i := by
  have hg := pickMember_ground h
  obtain ⟨i, hi, rfl⟩ := pickMember_eq_ok.1 h
  exact fun j hj =>
    (activate_found (.inr ⟨m.level, (levelOfMember_eq_ok hi).2⟩) hs j hj).of_ground hg

/-- A change puts into use only levels that it has found. -/
theorem change_found {c : HierarchyChange} (h : s.change c = .ok t)
    (hs : ∀ i ∈ s.active, s.Found i) : ∀ i ∈ t.active, t.Found i := by
  have hg := change_ground h
  have kept : t.active ⊆ s.active → ∀ i ∈ t.active, t.Found i :=
    fun hsub i hi => (hs i (hsub hi)).of_ground hg
  cases c with
  | includeLevel name =>
    obtain ⟨i, hi, rfl⟩ := includeLevel_eq_ok.1 h
    exact fun j hj => (activate_found (.inl ⟨name, hi⟩) hs j hj).of_ground hg
  | excludeLevel name =>
    obtain ⟨i, -, rfl⟩ := excludeLevel_eq_ok.1 h
    exact kept fun _ hj => List.mem_of_mem_filter hj
  | clear =>
    cases h
    exact kept (List.nil_subset _)
  | level name c =>
    obtain ⟨i, -, levels, -, rfl⟩ := updateLevel_eq_ok.1 h
    exact kept (List.Subset.refl _)
  | pick p ms => exact foldlM_keeps (fun _ _ _ hu h => pickMember_found h hu) hs h
  | range start stop =>
    obtain ⟨-, -, i, hi, rfl⟩ := includeRange_eq_ok.1 h
    exact fun j hj => (activate_found (.inr ⟨start.level, hi⟩) hs j hj).of_ground hg
  | includeCalculated m onLevel =>
    have h := includeCalculated_eq_ok.1 h
    split at h
    · obtain ⟨i, hi, u, k, hu, rfl⟩ := h
      have hgu := register_ground hu
      have hactive := register_active hu
      have hfound : ∀ j ∈ u.active, u.Found j :=
        fun j hj => (hs j (hactive ▸ hj)).of_ground hgu
      have hgt : SameGround u ((u.activate i).modifyLevel i (·.add m.asMember)) :=
        (activate_ground u i).trans
          (modifyLevel_ground _ i fun l => l.pick_level .inclusion m.asMember)
      rw [← hgu.levelIndexOf_eq] at hi
      exact fun j hj => (activate_found (.inr ⟨m.level, hi⟩) hfound j hj).of_ground hgt
    · obtain ⟨u, k, hu, rfl⟩ := h
      refine kept fun i hi => ?_
      rw [← register_active hu]
      split at hi <;> exact hi
  | excludeCalculated uniqueName =>
    cases h
    refine kept ?_
    unfold excludeCalculated
    split <;> exact List.Subset.refl _
  | order c =>
    obtain ⟨shape, -, h⟩ := bind_eq_ok.1 h
    cases h
    exact kept (List.Subset.refl _)
  | consistent | visualTotals | visualPattern =>
    cases h
    exact kept (List.Subset.refl _)

end HierarchySelection

/-! ## Queries -/

namespace Query

theorem found_afterAll (name : String) (cube : Cube) (cs : List Change) :
    ∀ s ∈ ((new name cube).afterAll cs).hierarchies, ∀ i ∈ s.active, s.Found i := by
  refine afterAll_keeps (P := fun q => ∀ s ∈ q.hierarchies, ∀ i ∈ s.active, s.Found i)
    (fun q c r hq hc => change_keeps (P := fun s => ∀ i ∈ s.active, s.Found i)
      (fun _ _ hs => hs) (fun _ _ _ _ hs hst => HierarchySelection.change_found hst hs)
      (fun m _ s t i hs hst j hj => ?_) hc hq) ?_ cs
  · rw [HierarchySelection.register_active hst] at hj
    exact (hs j hj).of_ground (HierarchySelection.register_ground hst)
  · intro s hs i hi
    obtain ⟨h, -, rfl⟩ := List.mem_map.1 hs
    cases hi

theorem homed_afterAll (name : String) (e : CubeEntry) (cs : List Change) :
    ∀ s ∈ ((new name e.link).afterAll cs).hierarchies, s.Homed := by
  intro s hs
  have hlisted : s.hierarchy ∈ e.link.hierarchies := by
    rw [← (sound_afterAll name e.link cs).registry]
    exact List.mem_map_of_mem hs
  have hlevels := (intact_afterAll name e.link cs s hs).levels
  refine ⟨isPathText_nameIn _ _, fun l hl => ?_⟩
  have hmem : l.level ∈ s.hierarchy.levels := hlevels ▸ List.mem_map_of_mem hl
  exact CubeEntry.level_hierarchy hlisted hmem

/-- A level in use is the one that its name stands for. -/
theorem levelIndex_of_active (name : String) (e : CubeEntry) (cs : List Change)
    {s : HierarchySelection} (hs : s ∈ ((new name e.link).afterAll cs).hierarchies) {i : Nat}
    (hi : i ∈ s.active) {l : LevelSelection} (hl : s.levels[i]? = some l) :
    s.levelIndex l.level.name = .ok i :=
  (found_afterAll name e.link cs s hs i hi).levelIndex (homed_afterAll name e cs s hs) hl

end Query
end CubeQuery
