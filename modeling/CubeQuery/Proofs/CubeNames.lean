import CubeQuery.Proofs.Arrangement
import CubeQuery.Proofs.LevelValues

/-!
# Unique names of hierarchies and levels

A hierarchy has one name, if it is named like its dimension, or two, and a level has one more than
its hierarchy. So a level below one hierarchy can have as many names as a level below another, and
as a hierarchy. As written names are read back as they were, two hierarchies of one unique name have
the same dimension and name (`Hierarchy.uniqueName_eq_iff`), and two levels of one unique name have
the same names in front of their own (`CubeEntry.names_of_level`). On a cube whose names are
distinct, that makes every hierarchy and every level the only one of its unique name
(`Cube.Named`). A level and a hierarchy can still share one.

`hierarchies_found` adds that the unique name of a hierarchy is looked up to that hierarchy, in the
cube, where the first match counts, and in any query on it, where the last one does and a plain name
is tried next.
-/

namespace CubeQuery

open Identifier

/-! ## Hierarchies -/

theorem Hierarchy.uniqueName_eq_iff {h h' : Hierarchy} :
    h.uniqueName = h'.uniqueName ↔ h.key = h'.key := by
  constructor
  · intro heq
    rw [uniqueName_eq, uniqueName_eq] at heq
    exact key_eq_of_names (uniqueName_inj h.names_ne_nil h'.names_ne_nil heq)
  · intro hkey
    obtain ⟨hdimension, hname⟩ := Prod.mk.inj hkey
    rw [uniqueName, uniqueName, hdimension, hname]

/-- Unique names tell the hierarchies of a cube apart where dimensions and names do. -/
theorem Cube.distinct_iff {cube : Cube} :
    cube.Distinct ↔ (cube.hierarchies.map (·.key)).Nodup := by
  rw [Cube.Distinct, List.Nodup, List.Nodup, List.pairwise_map, List.pairwise_map]
  simp only [ne_eq, Hierarchy.uniqueName_eq_iff]

/-- The first hierarchy of a unique name is the only one. -/
theorem Cube.Distinct.hierarchy?_eq {cube : Cube} (hcube : cube.Distinct) {h : Hierarchy}
    (hh : h ∈ cube.hierarchies) : cube.hierarchy? h.uniqueName = some h := by
  obtain ⟨h', hfind⟩ : ∃ h', cube.hierarchy? h.uniqueName = some h' :=
    Option.isSome_iff_exists.1 (List.find?_isSome.2 ⟨h, hh, decide_eq_true rfl⟩)
  have hname : h'.uniqueName = h.uniqueName := by simpa using List.find?_some hfind
  rw [hfind, List.inj_on_of_nodup_map hcube (List.mem_of_find?_eq_some hfind) hh hname]

/-! ## Levels -/

/-- The levels of all hierarchies. -/
def Cube.levels (cube : Cube) : List Level := cube.hierarchies.flatMap (·.levels)

/-- Unique names tell the hierarchies of a cube, its levels, and the hierarchies of its levels. -/
structure Cube.Named (cube : Cube) : Prop where
  hierarchies : cube.Distinct
  levels : (cube.levels.map (·.uniqueName)).Nodup
  owner : ∀ h ∈ cube.hierarchies, ∀ h' ∈ cube.hierarchies, ∀ l ∈ h.levels, ∀ l' ∈ h'.levels,
    l.uniqueName = l'.uniqueName → h = h'

namespace CubeEntry

variable {e : CubeEntry} {h h' : Hierarchy} {l l' : Level}

/-- The last of a level's names is its own, and the others are those of its hierarchy. -/
theorem names_of_level (hh : h ∈ e.link.hierarchies) (hl : l ∈ h.levels)
    (hh' : h' ∈ e.link.hierarchies) (hl' : l' ∈ h'.levels) (heq : l.uniqueName = l'.uniqueName) :
    h.names = h'.names ∧ l.name = l'.name := by
  rw [uniqueName_level hh hl, uniqueName_level hh' hl'] at heq
  obtain ⟨hnames, hname⟩ := List.append_inj' (uniqueName_inj (by simp) (by simp) heq) rfl
  exact ⟨hnames, List.singleton_inj.1 hname⟩

theorem Distinct.nodup_levels (he : e.Distinct) :
    (e.link.levels.map (·.uniqueName)).Nodup := by
  rw [Cube.levels, List.map_flatMap]
  refine List.nodup_flatMap.2 ⟨fun h hh => ?_, ?_⟩
  · -- Within a hierarchy the own names differ.
    refine List.pairwise_map.2 ((List.pairwise_map.1 (he.levelNames hh)).imp_of_mem ?_)
    intro l l' hl hl' hne heq
    exact hne (names_of_level hh hl hh hl' heq).2
  · -- Levels of different hierarchies differ in the names in front.
    refine (List.pairwise_map.1 he.keys).imp_of_mem ?_
    intro h h' hh hh' hne name hname hname'
    obtain ⟨l, hl, rfl⟩ := List.mem_map.1 hname
    obtain ⟨l', hl', heq⟩ := List.mem_map.1 hname'
    exact hne (Hierarchy.key_eq_of_names (names_of_level hh hl hh' hl' heq.symm).1)

theorem Distinct.named (he : e.Distinct) : e.link.Named := by
  refine ⟨Cube.distinct_iff.2 he.keys, he.nodup_levels, ?_⟩
  intro h hh h' hh' l hl l' hl' heq
  exact he.hierarchy_eq hh hh' (names_of_level hh hl hh' hl' heq).1

end CubeEntry

/-! ## Looking up -/

namespace Query

/-- Whatever was changed, a unique name stands for the hierarchy that it stands for in the cube. -/
theorem Sound.hierarchy?_eq {cube : Cube} {q : Query} (hq : Sound cube q)
    (hcube : cube.Distinct) {i : Nat} {h : Hierarchy} (hi : cube.hierarchies[i]? = some h) :
    ∃ s, q.hierarchy? h.uniqueName = some s ∧ q.hierarchies[i]? = some s ∧ s.hierarchy = h := by
  rw [← hq.registry, List.getElem?_map] at hi
  obtain ⟨s, hs, rfl⟩ := Option.map_eq_some_iff.1 hi
  have hleads := leads_of_nodup (hq.nodup_uniqueNames hcube) hs
  exact ⟨s, by rw [hierarchy?, hleads.find?_eq, Option.bind_some, hs], hs, rfl⟩

end Query

/-- **Unique names.** On a cube whose dimensions, hierarchies of a dimension and levels of a
hierarchy have distinct names, of any characters, hierarchies and levels have unique names that are
unique, and that of a level tells its hierarchy. By its unique name every hierarchy is found in the
cube, and in each query that changes lead to, at its place. -/
theorem hierarchies_found {e : CubeEntry} (he : e.Distinct) :
    e.link.Named ∧
      ∀ (i : Nat) (h : Hierarchy), e.link.hierarchies[i]? = some h →
        e.link.hierarchy? h.uniqueName = some h ∧
          ∀ q, Query.Reachable e.link q →
            ∃ s, q.hierarchy? h.uniqueName = some s ∧ q.hierarchies[i]? = some s ∧
              s.hierarchy = h := by
  refine ⟨he.named, fun i h hi => ⟨?_, ?_⟩⟩
  · exact he.named.hierarchies.hierarchy?_eq (List.mem_of_getElem? hi)
  · rintro q ⟨name, cs, rfl⟩
    exact (Query.sound_afterAll name e.link cs).hierarchy?_eq he.named.hierarchies hi

/-- Years counted twice, and a dimension whose name looks like the path of a hierarchy. -/
def calendarEntry : CubeEntry where
  name := "Sales"
  dimensions := [
    { name := "Time"
      hierarchies := [
        { name := "Time", levels := [{ name := "Fiscal" }, { name := "Year" }] },
        { name := "Fiscal", levels := [{ name := "Year" }] }] },
    { name := "Time].[Fiscal"
      hierarchies := [{ name := "Time].[Fiscal", levels := [{ name := "Year" }] }] }]

/-- The fiscal years are on rows and the other dimension on columns. -/
def yearsByFiscal : Query :=
  (Query.new "q" calendarEntry.link).afterAll [
    .move "[Time].[Fiscal]" .rows none, .move "[Time]].[Fiscal]" .columns none]

/-- Though a level of another hierarchy has the same unique name, the fiscal hierarchy is found. -/
theorem hierarchies_found_fiscal :
    calendarEntry.Distinct ∧ Query.Reachable calendarEntry.link yearsByFiscal ∧
      calendarEntry.link.Named ∧
      (∃ l ∈ calendarEntry.link.levels, l.name = "Fiscal" ∧ l.uniqueName = "[Time].[Fiscal]") ∧
      ∃ h s, h.key = ("Time", "Fiscal") ∧
        calendarEntry.link.hierarchy? "[Time].[Fiscal]" = some h ∧
        yearsByFiscal.hierarchy? "[Time].[Fiscal]" = some s ∧ s.hierarchy = h := by
  have hdistinct : calendarEntry.Distinct := ⟨by decide, by decide, by decide⟩
  have hreachable : Query.Reachable calendarEntry.link yearsByFiscal := ⟨"q", _, rfl⟩
  obtain ⟨hnamed, hfound⟩ := hierarchies_found hdistinct
  obtain ⟨h, hi, hkey, hname⟩ : ∃ h, calendarEntry.link.hierarchies[1]? = some h ∧
      h.key = ("Time", "Fiscal") ∧ h.uniqueName = "[Time].[Fiscal]" :=
    ⟨_, rfl, by decide +kernel, by decide +kernel⟩
  obtain ⟨hcube, hquery⟩ := hfound 1 h hi
  obtain ⟨s, hs, -, hsame⟩ := hquery yearsByFiscal hreachable
  rw [hname] at hcube hs
  exact ⟨hdistinct, hreachable, hnamed, by decide +kernel, h, s, hkey, hcube, hs, hsame⟩

end CubeQuery
