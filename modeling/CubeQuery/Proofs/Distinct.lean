import CubeQuery.Proofs.Active
import CubeQuery.Proofs.SetNames

/-!
# What sets are declared for

On a cube whose names are distinct, the sets that a statement declares are declared for different
things (`setOrigins_nodup`): every hierarchy lies at one place, and every level is in use once.
-/

namespace CubeQuery

/-! ## Cubes with distinct names -/

/-- Dimensions, the hierarchies of a dimension and the levels of a hierarchy have distinct names. -/
structure CubeEntry.Distinct (e : CubeEntry) : Prop where
  dimensions : (e.dimensions.map (·.name)).Nodup
  hierarchies : ∀ d ∈ e.dimensions, (d.hierarchies.map (·.name)).Nodup
  levels : ∀ d ∈ e.dimensions, ∀ h ∈ d.hierarchies, (h.levels.map (·.name)).Nodup

/-- What tells a hierarchy from the others of its cube. -/
def Hierarchy.key (h : Hierarchy) : String × String := (h.dimension, h.name)

theorem linkFrom_names (hierarchy label : String) (depth : Nat) (es : List LevelEntry) :
    (LevelEntry.linkFrom hierarchy label depth es).map (·.name) = es.map (·.name) := by
  induction es generalizing depth with
  | nil => rfl
  | cons e es ih =>
    rw [LevelEntry.linkFrom, List.map_cons, List.map_cons, ih]
    rfl

theorem link_hierarchies (e : CubeEntry) :
    e.link.hierarchies = e.dimensions.flatMap fun d => d.hierarchies.map (·.link d.name) := by
  show (e.dimensions.map DimensionEntry.link).flatMap (·.hierarchies) = _
  rw [List.flatMap_map]
  rfl

theorem mem_link {e : CubeEntry} {h : Hierarchy} (hh : h ∈ e.link.hierarchies) :
    ∃ d ∈ e.dimensions, ∃ h' ∈ d.hierarchies, h = h'.link d.name := by
  rw [link_hierarchies, List.mem_flatMap] at hh
  obtain ⟨d, hd, hh⟩ := hh
  obtain ⟨h', hh', rfl⟩ := List.mem_map.1 hh
  exact ⟨d, hd, h', hh', rfl⟩

namespace CubeEntry.Distinct

theorem keys {e : CubeEntry} (he : e.Distinct) : (e.link.hierarchies.map (·.key)).Nodup := by
  rw [link_hierarchies, List.map_flatMap]
  refine List.nodup_flatMap.2 ⟨fun d hd => ?_, ?_⟩
  · rw [List.map_map]
    show (d.hierarchies.map ((d.name, ·) ∘ (·.name))).Nodup
    rw [← List.map_map]
    exact (he.hierarchies d hd).map fun a b hab => (Prod.mk.inj hab).2
  · refine (List.pairwise_map.1 he.dimensions).imp fun {d d'} hne => ?_
    intro key hkey hkey'
    simp only [List.map_map, List.mem_map] at hkey hkey'
    obtain ⟨h, -, rfl⟩ := hkey
    obtain ⟨h', -, heq⟩ := hkey'
    exact hne (Prod.mk.inj heq).1.symm

theorem levelNames {e : CubeEntry} (he : e.Distinct) {h : Hierarchy}
    (hh : h ∈ e.link.hierarchies) : (h.levels.map (·.name)).Nodup := by
  obtain ⟨d, hd, h', hh', rfl⟩ := mem_link hh
  rw [HierarchyEntry.link, linkFrom_names]
  exact he.levels d hd h' hh'

end CubeEntry.Distinct

/-! ## Picking by position -/

/-- Distinct positions pick distinct elements. -/
theorem nodup_pick {α β : Type} {f : α → β} {xs : List α} {is : List Nat}
    (hx : (xs.map f).Nodup) (hi : is.Nodup) : ((is.filterMap (xs[·]?)).map f).Nodup := by
  rw [List.map_filterMap]
  refine hi.filterMap fun i j b hb hb' => ?_
  rw [← List.getElem?_map] at hb hb'
  have hlt := (List.getElem?_eq_some_iff.1 hb).1
  exact (List.getElem?_inj hlt hx).1 (hb.trans hb'.symm)

namespace HierarchySelection

theorem activeLevels_names {s : HierarchySelection} (hs : s.Intact)
    (hl : (s.hierarchy.levels.map (·.name)).Nodup) :
    (s.activeLevels.map (·.level.name)).Nodup := by
  have hnames : s.levels.map (·.level.name) = s.hierarchy.levels.map (·.name) := by
    rw [← hs.levels, List.map_map]
    rfl
  exact nodup_pick (by rwa [hnames]) hs.active

theorem Intact.level_mem {s : HierarchySelection} (hs : s.Intact) {l : LevelSelection}
    (hl : l ∈ s.activeLevels) : l.level ∈ s.hierarchy.levels := by
  obtain ⟨i, -, hi⟩ := List.mem_filterMap.1 hl
  rw [← hs.levels]
  exact List.mem_map_of_mem (List.mem_of_getElem? hi)

/-! ## The sets of a hierarchy -/

theorem mem_setOrigins {s : HierarchySelection} {parameters : Parameters} {o : SetOrigin}
    (h : o ∈ s.setOrigins parameters) :
    ∃ l ∈ s.activeLevels,
      o = .level s.hierarchy.dimension s.hierarchy.name l.level.name := by
  unfold setOrigins at h
  split at h
  · obtain ⟨l, hl, rfl⟩ := List.mem_map.1 h
    exact ⟨l, hl, rfl⟩
  · cases h

theorem mem_operandOrigins {s : HierarchySelection} {parameters : Parameters} {axis : AxisName}
    {o : SetOrigin} (h : o ∈ s.operandOrigins parameters axis) :
    o ∈ s.setOrigins parameters ∨
      axis ≠ .slicer ∧ o = .operand axis s.hierarchy.dimension s.hierarchy.name := by
  rcases List.mem_append.1 h with h | h
  · exact .inl h
  · split at h
    · cases h
    · next haxis => exact .inr ⟨haxis, List.mem_singleton.1 h⟩

theorem setOrigins_nodup {s : HierarchySelection} {parameters : Parameters}
    (h : (s.activeLevels.map (·.level.name)).Nodup) : (s.setOrigins parameters).Nodup := by
  unfold setOrigins
  split
  · have hmap : (s.activeLevels.map fun l =>
        SetOrigin.level s.hierarchy.dimension s.hierarchy.name l.level.name) =
          (s.activeLevels.map (·.level.name)).map
            (SetOrigin.level s.hierarchy.dimension s.hierarchy.name) := by
      rw [List.map_map]
      rfl
    rw [hmap]
    exact h.map fun a b hab => (SetOrigin.level.inj hab).2.2
  · exact List.nodup_nil

theorem operandOrigins_nodup {s : HierarchySelection} {parameters : Parameters} {axis : AxisName}
    (h : (s.activeLevels.map (·.level.name)).Nodup) :
    (s.operandOrigins parameters axis).Nodup := by
  refine List.nodup_append.2 ⟨setOrigins_nodup h, ?_, ?_⟩
  · split
    · exact List.nodup_nil
    · exact List.nodup_singleton _
  · intro o ho o' ho'
    obtain ⟨l, -, rfl⟩ := mem_setOrigins ho
    split at ho'
    · cases ho'
    · rw [List.mem_singleton.1 ho']
      exact fun h => by cases h

end HierarchySelection

/-- The hierarchy whose set, or one of whose levels' sets, is declared. -/
def SetOrigin.key? : SetOrigin → Option (String × String)
  | .level d h _ => some (d, h)
  | .operand _ d h => some (d, h)
  | .axis _ => none

theorem operandOrigins_key {s : HierarchySelection} {parameters : Parameters} {axis : AxisName}
    {o : SetOrigin} (h : o ∈ s.operandOrigins parameters axis) :
    o.key? = some s.hierarchy.key := by
  rcases HierarchySelection.mem_operandOrigins h with h | ⟨-, rfl⟩
  · obtain ⟨l, -, rfl⟩ := HierarchySelection.mem_setOrigins h
    rfl
  · rfl

namespace Query

variable {q : Query}

/-! ## The sets of an axis -/

theorem mem_axisOrigins {options : Options} {l : Location} {axis : AxisName} {o : SetOrigin}
    (h : o ∈ q.axisOrigins options l axis) :
    (options.declaresAxes = true ∧ o = .axis axis) ∨
      ∃ s ∈ q.hierarchiesOn l, o ∈ s.operandOrigins q.parameters axis := by
  have single : ∀ s : HierarchySelection, q.hierarchiesOn l = [s] →
      o ∈ (s.setOrigins q.parameters ++
        if options.declaresAxes then [SetOrigin.axis axis] else []) →
      (options.declaresAxes = true ∧ o = .axis axis) ∨
        ∃ s ∈ q.hierarchiesOn l, o ∈ s.operandOrigins q.parameters axis := by
    intro s hon ho
    rcases List.mem_append.1 ho with ho | ho
    · refine .inr ⟨s, ?_, List.mem_append_left _ ho⟩
      rw [hon]
      exact List.mem_singleton_self s
    · split at ho
      · next hdeclares => exact .inl ⟨hdeclares, List.mem_singleton.1 ho⟩
      · cases ho
  unfold axisOrigins at h
  split at h
  · cases h
  · split at h
    · next s hon => exact single s hon h
    · next s hon => exact single s hon h
    · exact .inr (List.mem_flatMap.1 h)

theorem axisOrigins_nodup {options : Options} {l : Location} {axis : AxisName}
    (hkeys : ((q.hierarchiesOn l).map (·.hierarchy.key)).Nodup)
    (hlevels : ∀ s ∈ q.hierarchiesOn l, (s.activeLevels.map (·.level.name)).Nodup) :
    (q.axisOrigins options l axis).Nodup := by
  have single : ∀ s : HierarchySelection, q.hierarchiesOn l = [s] →
      (s.setOrigins q.parameters ++
        if options.declaresAxes then [SetOrigin.axis axis] else []).Nodup := by
    intro s hon
    have hs : (s.activeLevels.map (·.level.name)).Nodup := by
      refine hlevels s ?_
      rw [hon]
      exact List.mem_singleton_self s
    refine List.nodup_append.2 ⟨HierarchySelection.setOrigins_nodup hs, ?_, ?_⟩
    · split
      · exact List.nodup_singleton _
      · exact List.nodup_nil
    · intro o ho o' ho'
      obtain ⟨level, -, rfl⟩ := HierarchySelection.mem_setOrigins ho
      split at ho'
      · rw [List.mem_singleton.1 ho']
        exact fun h => by cases h
      · cases ho'
  unfold axisOrigins
  split
  · exact List.nodup_nil
  · split
    · next s hon => exact single s hon
    · next s hon => exact single s hon
    · refine List.nodup_flatMap.2 ⟨fun s hs => ?_, ?_⟩
      · exact HierarchySelection.operandOrigins_nodup (hlevels s hs)
      · refine (List.pairwise_map.1 hkeys).imp fun {s t} hne => ?_
        intro o hs ht
        have hkey := (operandOrigins_key hs).symm.trans (operandOrigins_key ht)
        exact hne (Option.some.inj hkey)

/-! ## The sets of a query -/

theorem keys_of_registry {e : CubeEntry} (he : e.Distinct) (hq : Sound e.link q) :
    (q.hierarchies.map (·.hierarchy.key)).Nodup := by
  have h := he.keys
  rw [← hq.registry, List.map_map] at h
  exact h

/-- A hierarchy on one axis is told from every hierarchy on another. -/
theorem keys_ne {e : CubeEntry} (he : e.Distinct) (hq : Sound e.link q) {l m : Location}
    (hlm : l ≠ m) {s t : HierarchySelection} (hs : s ∈ q.hierarchiesOn l)
    (ht : t ∈ q.hierarchiesOn m) : s.hierarchy.key ≠ t.hierarchy.key := by
  intro hkey
  obtain ⟨i, hi, hsi⟩ := List.mem_filterMap.1 hs
  obtain ⟨j, hj, htj⟩ := List.mem_filterMap.1 ht
  have hi' : (q.hierarchies.map (·.hierarchy.key))[i]? = some s.hierarchy.key := by
    rw [List.getElem?_map, hsi]
    rfl
  have hj' : (q.hierarchies.map (·.hierarchy.key))[j]? = some t.hierarchy.key := by
    rw [List.getElem?_map, htj]
    rfl
  have hlt := (List.getElem?_eq_some_iff.1 hi').1
  have hij : i = j := by
    refine (List.getElem?_inj hlt (keys_of_registry he hq)).1 ?_
    rw [hi', hj', hkey]
  subst hij
  rw [hq.listed] at hi hj
  exact hlm (Option.some.inj (hi.symm.trans hj))

/-- The sets that a statement declares are declared for different things. -/
theorem setOrigins_nodup {e : CubeEntry} (he : e.Distinct) (hq : Sound e.link q)
    (hintact : ∀ s ∈ q.hierarchies, s.Intact) (options : Options) :
    (q.setOrigins options).Nodup := by
  have hkeys : ∀ l, ((q.hierarchiesOn l).map (·.hierarchy.key)).Nodup := fun l =>
    nodup_pick (keys_of_registry he hq) (hq.nodup l)
  have hlevels : ∀ l, ∀ s ∈ q.hierarchiesOn l, (s.activeLevels.map (·.level.name)).Nodup := by
    intro l s hs
    obtain ⟨i, -, hi⟩ := List.mem_filterMap.1 hs
    have hmem : s ∈ q.hierarchies := List.mem_of_getElem? hi
    refine HierarchySelection.activeLevels_names (hintact s hmem) (he.levelNames ?_)
    rw [← hq.registry]
    exact List.mem_map_of_mem hmem
  have hnodup : ∀ l axis, (q.axisOrigins options l axis).Nodup := fun l axis =>
    axisOrigins_nodup (hkeys l) (hlevels l)
  have hdisjoint : ∀ {l m axis axis'}, l ≠ m → axis ≠ axis' →
      ∀ o ∈ q.axisOrigins options l axis, ∀ o' ∈ q.axisOrigins options m axis', o ≠ o' := by
    rintro l m axis axis' hlm haxis o ho _ ho' rfl
    rcases mem_axisOrigins ho with ⟨-, rfl⟩ | ⟨s, hs, hos⟩
    · rcases mem_axisOrigins ho' with ⟨-, h⟩ | ⟨t, -, hot⟩
      · exact haxis (SetOrigin.axis.inj h)
      · cases operandOrigins_key hot
    · have hkey := operandOrigins_key hos
      rcases mem_axisOrigins ho' with ⟨-, rfl⟩ | ⟨t, ht, hot⟩
      · cases hkey
      · have hkey' := hkey.symm.trans (operandOrigins_key hot)
        exact keys_ne he hq hlm hs ht (Option.some.inj hkey')
  refine List.nodup_append.2 ⟨List.nodup_append.2 ⟨hnodup _ _, hnodup _ _, ?_⟩, hnodup _ _, ?_⟩
  · exact hdisjoint (by decide) (by decide)
  · intro o ho
    rcases List.mem_append.1 ho with ho | ho
    · exact hdisjoint (by decide) (by decide) o ho
    · exact hdisjoint (by decide) (by decide) o ho

end Query

end CubeQuery
