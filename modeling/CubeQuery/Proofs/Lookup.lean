import CubeQuery.Proofs.LevelNames

/-!
# What a path leads to

A path is looked up among the stored measures, if it is made of the name of their hierarchy and one
more, and else in the hierarchies whose names begin it, most names first: by the path that it leaves
below the hierarchy, or by the name of a level and that of a member. Whatever is found, the path
does lead there (`Cube.leadsTo_of_member?`). What a path leads to is not always found, for another
hierarchy can come first. It is found if no other hierarchy begins the path and measures are out of
the question (`CubeEntry.memberNamed?_of_sole`).
-/

namespace CubeQuery

open Identifier

/-! ## Names of a hierarchy -/

namespace Hierarchy

/-- The names that lead to a hierarchy. -/
def names (h : Hierarchy) : List String :=
  if h.name = h.dimension then [h.dimension] else [h.dimension, h.name]

theorem names_ne_nil (h : Hierarchy) : h.names ≠ [] := by
  unfold names
  split <;> simp

theorem uniqueName_eq (h : Hierarchy) : h.uniqueName = Identifier.uniqueName h.names := by
  unfold uniqueName nameIn names
  split
  · rw [uniqueName_singleton]
  · rfl

theorem segments?_names (h : Hierarchy) : segments? h.uniqueName = some h.names := by
  rw [uniqueName_eq, segments?_uniqueName h.names_ne_nil]

/-- The names tell the dimension and the hierarchy. -/
theorem key_eq_of_names {h h' : Hierarchy} (heq : h.names = h'.names) : h.key = h'.key := by
  unfold names at heq
  unfold key
  split at heq <;> split at heq <;> simp_all

/-- A hierarchy takes its names off the front of a path that goes on behind them. -/
theorem rest?_eq_some {h : Hierarchy} {path rest : List String} :
    h.rest? path = some rest ↔ rest ≠ [] ∧ path = h.names ++ rest := by
  unfold rest?
  rw [segments?_names, Option.bind_some]
  constructor
  · intro hrest
    split at hrest
    · next name others hpath =>
      cases hrest
      exact ⟨List.cons_ne_nil name others, (List.isPrefixOf?_eq_some_iff_append_eq.1 hpath).symm⟩
    · cases hrest
  · rintro ⟨hne, rfl⟩
    obtain ⟨name, others, rfl⟩ := List.exists_cons_of_ne_nil hne
    rw [List.isPrefixOf?_eq_some_iff_append_eq.2 rfl]

/-! ## Members of a hierarchy -/

/-- The member at a path is that of the first level that lists the path. -/
theorem memberAt?_eq (h : Hierarchy) (path : List String) :
    h.memberAt? path = (h.levels.find? (path ∈ ·.paths)).map (·.member path) := by
  have hlevel : ∀ l : Level, (l.paths.find? (· = path)).map l.member =
      if path ∈ l.paths then some (l.member path) else none := by
    intro l
    cases hfind : l.paths.find? (· = path) with
    | none =>
      have hnot : path ∉ l.paths := fun hpath => by
        simpa using List.find?_eq_none.1 hfind path hpath
      rw [if_neg hnot, Option.map_none]
    | some path' =>
      obtain rfl : path' = path := by simpa using List.find?_some hfind
      rw [if_pos (List.mem_of_find?_eq_some hfind), Option.map_some]
  unfold memberAt?
  simp only [hlevel]
  induction h.levels with
  | nil => rfl
  | cons l ls ih =>
    rw [List.findSome?_cons, List.find?_cons]
    by_cases hpath : path ∈ l.paths <;> simp [hpath, ih]

/-- A member of a hierarchy is found by its path, or by the name of its level and its own. -/
theorem member?_cases {h : Hierarchy} {path : List String} {m : Member}
    (hm : h.member? path = some m) : ∃ l ∈ h.levels, ∃ path' ∈ l.paths, m = l.member path' ∧
      (path = path' ∨ path = [l.name, m.name]) := by
  unfold member? at hm
  split at hm
  · next m' hat =>
    cases hm
    rw [memberAt?_eq] at hat
    obtain ⟨l, hl, rfl⟩ := Option.map_eq_some_iff.1 hat
    exact ⟨l, List.mem_of_find?_eq_some hl, path, by simpa using List.find?_some hl, rfl, .inl rfl⟩
  · split at hm
    · next level name _ =>
      obtain ⟨l, hl, hm⟩ := Option.bind_eq_some_iff.1 hm
      obtain ⟨path', hpath, rfl⟩ := List.mem_map.1 (List.mem_of_find?_eq_some hm)
      have hlevel : l.name = level := by simpa using List.find?_some hl
      have hname : (l.member path').name = name := by simpa using List.find?_some hm
      exact ⟨l, List.mem_of_find?_eq_some hl, path', hpath, rfl, .inr (by rw [hlevel, hname])⟩
    · cases hm

end Hierarchy

/-! ## Members of a cube -/

namespace Cube

/-- How a path leads to a member of a cube. -/
inductive LeadsTo (c : Cube) : List String → Member → Prop where
  /-- To the stored measure of a name, which is the first one so named. -/
  | measure {name : String} {s : StoredMeasure} (hs : c.measures.find? (·.name = name) = some s) :
      LeadsTo c [measuresName, name] s.member
  /-- Through a hierarchy and by the path of the member. -/
  | path {h : Hierarchy} {l : Level} {path : List String} (hh : h ∈ c.hierarchies)
      (hl : l ∈ h.levels) (hpath : path ∈ l.paths) (hne : path ≠ []) :
      LeadsTo c (h.names ++ path) (l.member path)
  /-- Through a hierarchy and by the name of the member on its level. -/
  | level {h : Hierarchy} {l : Level} {path : List String} (hh : h ∈ c.hierarchies)
      (hl : l ∈ h.levels) (hpath : path ∈ l.paths) :
      LeadsTo c (h.names ++ [l.name, (l.member path).name]) (l.member path)

/-- A path that does not name a measure is looked up in the hierarchies that begin it. -/
theorem member?_of_ne_measure {c : Cube} {path : List String}
    (h : ∀ name, path ≠ [measuresName, name]) :
    c.member? path = (c.candidates path).findSome? fun (h, rest) => h.member? rest := by
  unfold member?
  split
  · next a b =>
    rw [if_neg]
    rintro rfl
    exact h b rfl
  · rfl

/-- What is found for a path is what the path leads to. -/
theorem leadsTo_of_member? {c : Cube} {path : List String} {m : Member}
    (hm : c.member? path = some m) : c.LeadsTo path m := by
  by_cases hmeasure : ∃ name, path = [measuresName, name]
  · obtain ⟨name, rfl⟩ := hmeasure
    obtain ⟨s, hs, rfl⟩ := Option.map_eq_some_iff.1 hm
    exact .measure hs
  · rw [member?_of_ne_measure (not_exists.1 hmeasure)] at hm
    obtain ⟨⟨h, rest⟩, hcandidate, hfound⟩ := List.exists_of_findSome?_eq_some hm
    obtain ⟨hh, hrest⟩ := mem_candidates.1 hcandidate
    obtain ⟨hne, rfl⟩ := Hierarchy.rest?_eq_some.1 hrest
    obtain ⟨l, hl, path', hpath, rfl, rfl | rfl⟩ := Hierarchy.member?_cases hfound
    · exact .path hh hl hpath hne
    · exact .level hh hl hpath

/-- A path of one name leads to no member. -/
theorem member?_singleton (c : Cube) (name : String) : c.member? [name] = none := by
  rw [Option.eq_none_iff_forall_ne_some]
  intro m hm
  have hlong : ∀ {path m}, c.LeadsTo path m → 2 ≤ path.length := by
    rintro path m (_ | @⟨h, _, path, _, _, _, hne⟩ | @⟨h, _, _, _, _, _⟩)
    · exact Nat.le_refl 2
    · have hnames := List.length_pos_of_ne_nil h.names_ne_nil
      have hpath := List.length_pos_of_ne_nil hne
      rw [List.length_append]
      omega
    · simp
  exact absurd (hlong (leadsTo_of_member? hm)) (by simp)

/-- What is found if only one hierarchy begins a path. -/
theorem member?_of_sole {c : Cube} {h : Hierarchy} (hh : h ∈ c.hierarchies) {rest : List String}
    (hne : rest ≠ []) (hmeasure : ∀ name, h.names ++ rest ≠ [measuresName, name])
    (hsole : ∀ h' ∈ c.hierarchies, h'.names <+: h.names ++ rest →
      h'.names ≠ h.names ++ rest → h' = h) :
    c.member? (h.names ++ rest) = h.member? rest := by
  have hmem : (h, rest) ∈ c.candidates (h.names ++ rest) :=
    mem_candidates.2 ⟨hh, Hierarchy.rest?_eq_some.2 ⟨hne, rfl⟩⟩
  have hall : ∀ x ∈ c.candidates (h.names ++ rest), x = (h, rest) := by
    rintro ⟨h', rest'⟩ hcandidate
    obtain ⟨hh', hrest⟩ := mem_candidates.1 hcandidate
    obtain ⟨hne', hpath⟩ := Hierarchy.rest?_eq_some.1 hrest
    obtain rfl : h' = h := by
      refine hsole h' hh' ⟨rest', hpath.symm⟩ fun heq => hne' ?_
      rw [heq] at hpath
      exact List.append_right_eq_self.1 hpath.symm
    rw [List.append_cancel_left hpath]
  rw [member?_of_ne_measure hmeasure, List.eq_replicate_of_mem hall,
    List.findSome?_replicate_of_pos (List.length_pos_of_mem hmem)]

end Cube

/-! ## Linked cubes -/

namespace CubeEntry

variable {e : CubeEntry} {h : Hierarchy}

theorem uniqueName_level (hh : h ∈ e.link.hierarchies) {l : Level} (hl : l ∈ h.levels) :
    l.uniqueName = uniqueName (h.names ++ [l.name]) := by
  rw [← foldl_below_uniqueName h.names_ne_nil, ← Hierarchy.uniqueName_eq, ← level_hierarchy hh hl]
  rfl

/-- The unique name of a member is made of the names of its hierarchy and its path. -/
theorem uniqueName_member (hh : h ∈ e.link.hierarchies) {l : Level} (hl : l ∈ h.levels)
    (path : List String) : (l.member path).uniqueName = uniqueName (h.names ++ path) := by
  show path.foldl below l.hierarchy = _
  rw [level_hierarchy hh hl, Hierarchy.uniqueName_eq, foldl_below_uniqueName h.names_ne_nil]

theorem segments?_member (hh : h ∈ e.link.hierarchies) {l : Level} (hl : l ∈ h.levels)
    {path : List String} (hne : path ≠ []) :
    segments? (l.member path).uniqueName = some (h.names ++ path) := by
  rw [uniqueName_member hh hl, segments?_uniqueName (by simp [hne])]

/-- A listed member is looked up at its path, if no other hierarchy begins its unique name and the
name is not that of a measure. -/
theorem memberNamed?_of_sole (hh : h ∈ e.link.hierarchies) {l : Level} (hl : l ∈ h.levels)
    {path : List String} (hpath : path ∈ l.paths) (hne : path ≠ [])
    (hsole : ∀ h' ∈ e.link.hierarchies, h'.names <+: h.names ++ path →
      h'.names ≠ h.names ++ path → h' = h)
    (hmeasure : ∀ name, (l.member path).uniqueName ≠ measureUniqueName name) :
    ∃ l', h.levels.find? (path ∈ ·.paths) = some l' ∧
      e.link.memberNamed? (l.member path).uniqueName = some (l'.member path) := by
  have hunnamed : ∀ name, h.names ++ path ≠ [measuresName, name] := by
    intro name heq
    refine hmeasure name ?_
    rw [uniqueName_member hh hl, heq]
    rfl
  obtain ⟨l', hl'⟩ : ∃ l', h.levels.find? (path ∈ ·.paths) = some l' := by
    refine Option.isSome_iff_exists.1 (List.find?_isSome.2 ⟨l, hl, ?_⟩)
    exact decide_eq_true hpath
  refine ⟨l', hl', ?_⟩
  have hat : h.member? path = some (l'.member path) := by
    unfold Hierarchy.member?
    rw [Hierarchy.memberAt?_eq, hl', Option.map_some]
  rw [Cube.memberNamed?, segments?_member hh hl hne, Option.bind_some,
    Cube.member?_of_sole hh hne hunnamed hsole, hat]

/-- **Members found.** On a linked cube, what is found for a path is a stored measure or a listed
member to which the path leads. And a listed member is found by its unique name, if its hierarchy is
the only one of the cube whose names properly begin that name, and the name is not that of a
measure: what is found is the first member of the hierarchy at the same path, so that it bears the
very name. -/
theorem members_found (e : CubeEntry) :
    (∀ h ∈ e.link.hierarchies, segments? h.uniqueName = some h.names) ∧
    (∀ path m, e.link.member? path = some m → e.link.LeadsTo path m) ∧
    ∀ h ∈ e.link.hierarchies, ∀ l ∈ h.levels, ∀ path ∈ l.paths, path ≠ [] →
      ∀ names, segments? (l.member path).uniqueName = some names →
      (∀ h' ∈ e.link.hierarchies, h'.names <+: names → h'.names ≠ names → h' = h) →
      (∀ name, (l.member path).uniqueName ≠ measureUniqueName name) →
      ∃ l', h.levels.find? (path ∈ ·.paths) = some l' ∧
        e.link.memberNamed? (l.member path).uniqueName = some (l'.member path) ∧
        (l'.member path).uniqueName = (l.member path).uniqueName := by
  refine ⟨fun h _ => h.segments?_names, fun path m => Cube.leadsTo_of_member?, ?_⟩
  intro h hh l hl path hpath hne names hnames hsole hmeasure
  cases (segments?_member hh hl hne).symm.trans hnames
  obtain ⟨l', hl', hfound⟩ := memberNamed?_of_sole hh hl hpath hne hsole hmeasure
  refine ⟨l', hl', hfound, ?_⟩
  rw [uniqueName_member hh hl, uniqueName_member hh (List.mem_of_find?_eq_some hl')]

/-- Two hierarchies of products, one named like the dimension. It lists cars among the lines and
once more among the models. -/
def vehiclesEntry : CubeEntry where
  name := "Sales"
  dimensions := [
    { name := "Product"
      hierarchies := [
        { name := "Product"
          levels := [
            { name := "Line", members := [["Cars"], ["Planes"]] },
            { name := "Model", members := [["Cars"], ["Cars", "T"]] }] },
        { name := "Goods", levels := [{ name := "Kind", members := [["Cars"]] }] }] }]

def vehicleLine : Level := (vehiclesEntry.link.hierarchies.flatMap (·.levels)).headD default

/-- A model is found by the name of its level, and the cars among the models are those among the
lines. -/
theorem members_found_vehicles :
    (∃ m, vehiclesEntry.link.member? ["Product", "Model", "T"] = some m ∧
      vehiclesEntry.link.LeadsTo ["Product", "Model", "T"] m) ∧
    ∃ h ∈ vehiclesEntry.link.hierarchies, ∃ l ∈ h.levels, l.name = "Model" ∧ ["Cars"] ∈ l.paths ∧
      vehiclesEntry.link.memberNamed? (l.member ["Cars"]).uniqueName =
        some (vehicleLine.member ["Cars"]) := by
  obtain ⟨-, hsound, hcomplete⟩ := members_found vehiclesEntry
  refine ⟨?_, ?_⟩
  · obtain ⟨m, hm⟩ := Option.isSome_iff_exists.1 (by decide +kernel :
      (vehiclesEntry.link.member? ["Product", "Model", "T"]).isSome = true)
    exact ⟨m, hm, hsound _ m hm⟩
  · obtain ⟨h, hh, l, hl, hname, hpath, hsegments, hsole, hfirst⟩ :
        ∃ h ∈ vehiclesEntry.link.hierarchies, ∃ l ∈ h.levels, l.name = "Model" ∧
          ["Cars"] ∈ l.paths ∧
          segments? (l.member ["Cars"]).uniqueName = some ["Product", "Cars"] ∧
          (∀ h' ∈ vehiclesEntry.link.hierarchies, h'.names <+: ["Product", "Cars"] →
            h'.names ≠ ["Product", "Cars"] → h' = h) ∧
          h.levels.find? (["Cars"] ∈ ·.paths) = some vehicleLine := by
      decide +kernel
    have hmeasure : ∀ name, (l.member ["Cars"]).uniqueName ≠ measureUniqueName name := by
      intro name heq
      rw [heq, measureUniqueName, segments?_uniqueName (List.cons_ne_nil _ _)] at hsegments
      simp [measuresName] at hsegments
    obtain ⟨l', hl', hfound, -⟩ :=
      hcomplete h hh l hl ["Cars"] hpath (List.cons_ne_nil _ _) _ hsegments hsole hmeasure
    cases hfirst.symm.trans hl'
    exact ⟨h, hh, l, hl, hname, hpath, hfound⟩

end CubeEntry
end CubeQuery
