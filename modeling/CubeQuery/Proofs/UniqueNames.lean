import CubeQuery.Calculated
import CubeQuery.Proofs.Distinct
import CubeQuery.Proofs.ReadBack

/-!
# Unique names

The unique names of a linked cube are written paths, and so are those of the calculated members that
the constructors make: a name below a written path is a written path again. What was looked up in a
cube is a member of the cube.
-/

namespace CubeQuery

/-! ## Names below names -/

namespace Identifier

theorem uniqueName_concat (first : String) (names : List String) (name : String) :
    uniqueName (first :: names ++ [name]) = below (uniqueName (first :: names)) name := by
  rw [← String.toList_inj, below, String.toList_append, String.toList_append]
  induction names generalizing first with
  | nil =>
    rw [List.singleton_append, toList_uniqueName_cons, uniqueName_singleton, uniqueName_singleton]
    simp
  | cons second names ih =>
    rw [List.cons_append, List.cons_append, toList_uniqueName_cons, ← List.cons_append, ih,
      toList_uniqueName_cons]
    simp

theorem IsPathText.below {text : String} (h : IsPathText text) (name : String) :
    IsPathText (below text name) := by
  obtain ⟨names, hne, rfl⟩ := h
  obtain ⟨first, names, rfl⟩ := List.exists_cons_of_ne_nil hne
  exact ⟨first :: names ++ [name], List.cons_ne_nil _ _, uniqueName_concat first names name⟩

theorem IsPathText.foldl_below {text : String} (h : IsPathText text) (path : List String) :
    IsPathText (path.foldl CubeQuery.below text) := by
  induction path generalizing text with
  | nil => exact h
  | cons name path ih => exact ih (h.below name)

end Identifier

open Identifier

theorem isPathText_nameIn (dimension name : String) :
    IsPathText (Hierarchy.nameIn dimension name) := by
  unfold Hierarchy.nameIn
  split
  · exact isPathText_quote dimension
  · exact isPathText_uniqueName (List.cons_ne_nil _ _)

theorem isPathText_measureUniqueName (name : String) : IsPathText (measureUniqueName name) :=
  isPathText_uniqueName (List.cons_ne_nil _ _)

/-! ## Members of a cube -/

namespace Hierarchy

/-- The members of all levels. -/
def members (h : Hierarchy) : List Member := h.levels.flatMap (·.members)

theorem mem_members_of_memberAt? {h : Hierarchy} {path : List String} {m : Member}
    (hm : h.memberAt? path = some m) : m ∈ h.members := by
  obtain ⟨l, hl, hm⟩ := List.exists_of_findSome?_eq_some hm
  obtain ⟨path', hpath, rfl⟩ := Option.map_eq_some_iff.1 hm
  exact List.mem_flatMap.2 ⟨l, hl, List.mem_map_of_mem (List.mem_of_find?_eq_some hpath)⟩

theorem mem_members_of_memberOn? {h : Hierarchy} {level name : String} {m : Member}
    (hm : h.memberOn? level name = some m) : m ∈ h.members := by
  obtain ⟨l, hl, hm⟩ := Option.bind_eq_some_iff.1 hm
  exact List.mem_flatMap.2 ⟨l, List.mem_of_find?_eq_some hl, List.mem_of_find?_eq_some hm⟩

theorem mem_members_of_member? {h : Hierarchy} {path : List String} {m : Member}
    (hm : h.member? path = some m) : m ∈ h.members := by
  unfold member? at hm
  split at hm
  · next m' hm' =>
    cases hm
    exact mem_members_of_memberAt? hm'
  · split at hm
    · exact mem_members_of_memberOn? hm
    · cases hm

end Hierarchy

namespace Cube

/-- The stored measures and the members of all hierarchies. -/
def members (c : Cube) : List Member := c.measureMembers ++ c.hierarchies.flatMap (·.members)

/-- A candidate for a path is a hierarchy of the cube with what the path leaves below it. -/
theorem mem_candidates {c : Cube} {path rest : List String} {h : Hierarchy} :
    (h, rest) ∈ c.candidates path ↔ h ∈ c.hierarchies ∧ h.rest? path = some rest := by
  rw [candidates, List.mem_mergeSort, List.mem_filterMap]
  constructor
  · rintro ⟨h', hh', hc⟩
    obtain ⟨rest', hrest, heq⟩ := Option.map_eq_some_iff.1 hc
    cases heq
    exact ⟨hh', hrest⟩
  · rintro ⟨hh, hrest⟩
    exact ⟨h, hh, by rw [hrest, Option.map_some]⟩

/-- What a path names is a member of the cube. -/
theorem mem_members_of_member? {c : Cube} {path : List String} {m : Member}
    (hm : c.member? path = some m) : m ∈ c.members := by
  have hcandidate : ∀ {h rest}, (h, rest) ∈ c.candidates path → h.member? rest = some m →
      m ∈ c.members := fun hc hm => List.mem_append_right _ (List.mem_flatMap.2
    ⟨_, (mem_candidates.1 hc).1, Hierarchy.mem_members_of_member? hm⟩)
  unfold member? at hm
  split at hm
  · split at hm
    · obtain ⟨measure, hfind, rfl⟩ := Option.map_eq_some_iff.1 hm
      exact List.mem_append_left _ (List.mem_map_of_mem (List.mem_of_find?_eq_some hfind))
    · obtain ⟨⟨h, rest⟩, hc, hm⟩ := List.exists_of_findSome?_eq_some hm
      exact hcandidate hc hm
  · obtain ⟨⟨h, rest⟩, hc, hm⟩ := List.exists_of_findSome?_eq_some hm
    exact hcandidate hc hm

theorem mem_members_of_memberNamed? {c : Cube} {uniqueName : String} {m : Member}
    (hm : c.memberNamed? uniqueName = some m) : m ∈ c.members := by
  obtain ⟨path, -, hm⟩ := Option.bind_eq_some_iff.1 hm
  exact mem_members_of_member? hm

end Cube

theorem Query.mem_of_lookupMember {q : Query} {name : String} {m : Member}
    (h : q.lookupMember name = .ok m) : m ∈ q.cube.members := by
  unfold lookupMember at h
  split at h
  · next m' hm' =>
    cases h
    exact Cube.mem_members_of_memberNamed? hm'
  · cases h

/-! ## Linked cubes -/

theorem linkFrom_hierarchy {hierarchy label : String} {depth : Nat} {es : List LevelEntry}
    {l : Level} (hl : l ∈ LevelEntry.linkFrom hierarchy label depth es) :
    l.hierarchy = hierarchy := by
  induction es generalizing depth with
  | nil => cases hl
  | cons e es ih =>
    rcases List.mem_cons.1 hl with rfl | hl
    · rfl
    · exact ih hl

/-- The levels of a linked hierarchy name it as theirs. -/
theorem CubeEntry.level_hierarchy {e : CubeEntry} {h : Hierarchy} (hh : h ∈ e.link.hierarchies)
    {l : Level} (hl : l ∈ h.levels) : l.hierarchy = h.uniqueName := by
  obtain ⟨d, -, h', -, rfl⟩ := mem_link hh
  exact linkFrom_hierarchy hl

/-- The unique names of the members of a linked cube are written paths. -/
theorem CubeEntry.isPathText_members (e : CubeEntry) :
    ∀ m ∈ e.link.members, IsPathText m.uniqueName := by
  intro m hm
  rcases List.mem_append.1 hm with hm | hm
  · obtain ⟨measure, -, rfl⟩ := List.mem_map.1 hm
    exact isPathText_measureUniqueName measure.name
  · obtain ⟨h, hh, hm⟩ := List.mem_flatMap.1 hm
    obtain ⟨l, hl, hm⟩ := List.mem_flatMap.1 hm
    obtain ⟨path, -, rfl⟩ := List.mem_map.1 hm
    refine IsPathText.foldl_below ?_ path
    rw [level_hierarchy hh hl]
    exact isPathText_nameIn h.dimension h.name

/-! ## Calculated members -/

/-- A calculated member as the constructors make it, below members of catalogs only. -/
inductive CalculatedMember.Constructed : CalculatedMember → Prop where
  | new (h : Hierarchy) (name formula : String) : Constructed (.new h name formula)
  | withParent {m : CalculatedMember} (hm : Constructed m) (e : CubeEntry) {p : Member}
      (hp : p ∈ e.link.members) : Constructed (m.withParent p)
  | withTwoPartName {m : CalculatedMember} (hm : Constructed m) : Constructed m.withTwoPartName
  | withLevel {m : CalculatedMember} (hm : Constructed m) (h : Hierarchy) (level : String) :
      Constructed (m.withLevel h level)
  | withProperties {m : CalculatedMember} (hm : Constructed m) (properties : Bindings String) :
      Constructed (m.withProperties properties)
  | withProperty {m : CalculatedMember} (hm : Constructed m) (name value : String) :
      Constructed (m.withProperty name value)

/-- Whatever characters its names hold, the unique name of a constructed member is a written
path. -/
theorem CalculatedMember.Constructed.isPathText {m : CalculatedMember} (h : m.Constructed) :
    IsPathText m.uniqueName := by
  induction h with
  | new h name formula => exact isPathText_uniqueName (List.cons_ne_nil _ _)
  | withParent hm e hp => exact (e.isPathText_members _ hp).below _
  | @withTwoPartName m hm ih =>
    unfold CalculatedMember.withTwoPartName
    split
    · exact ih
    · exact isPathText_uniqueName (List.cons_ne_nil _ _)
  | @withLevel m hm h level ih =>
    unfold CalculatedMember.withLevel
    split
    · exact ih
    · exact ih
  | withProperties hm properties ih => exact ih
  | withProperty hm name value ih => exact ih

end CubeQuery
