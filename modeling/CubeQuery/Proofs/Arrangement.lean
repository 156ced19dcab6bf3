import CubeQuery.Proofs.Moves

/-!
# Where a definition puts hierarchies

A definition is replayed axis by axis, columns first. An entry moves its hierarchy to the end of the
axis and then picks on it; the picks reach no other hierarchy as long as a unique name leads to one
hierarchy only (`HierarchyChoice.touches_apply`). An axis takes its entries behind each other and
takes them away from all other axes (`Replayed`), so what counts in the end is the last axis that
lists a hierarchy. A second entry for a hierarchy on one axis would be a move to where it lies
already, and rejects the definition.

`definition_arranged` puts the three axes together.
-/

namespace CubeQuery

namespace Query

variable {i : Nat} {h : Hierarchy} {q r t : Query}

/-! ## What picks on one hierarchy leave alone -/

/-- The unique name of a hierarchy leads to it, at a position of the query. -/
structure Leads (q : Query) (h : Hierarchy) (i : Nat) : Prop where
  index : q.indexOf? h.uniqueName = some i
  here : (q.hierarchies[i]?).map (·.hierarchy) = some h

theorem Leads.find?_eq (hq : q.Leads h i) : q.find? h.uniqueName = some i := by
  rw [find?, hq.index]

theorem leads_of_nodup (hq : (q.hierarchies.map (·.uniqueName)).Nodup) {s : HierarchySelection}
    (hs : q.hierarchies[i]? = some s) : q.Leads s.hierarchy i := by
  obtain ⟨j, t, hj, ht, hname⟩ := exists_indexOf? (List.mem_of_getElem? hs)
  have hlt : j < (q.hierarchies.map (·.uniqueName)).length := by
    rw [List.length_map]
    exact (List.getElem?_eq_some_iff.1 ht).1
  have hij : j = i := by
    refine (List.getElem?_inj hlt hq).1 ?_
    rw [List.getElem?_map, List.getElem?_map, hs, ht, Option.map_some, Option.map_some, hname]
  exact ⟨hij ▸ hj, by rw [hs, Option.map_some]⟩

/-- The queries differ in what is picked of one hierarchy only. -/
structure Touches (i : Nat) (q r : Query) : Prop where
  registry : r.hierarchies.map (·.hierarchy) = q.hierarchies.map (·.hierarchy)
  others : ∀ j, j ≠ i → r.hierarchies[j]? = q.hierarchies[j]?
  rest : r = { q with hierarchies := r.hierarchies }

namespace Touches

theorem refl (i : Nat) (q : Query) : Touches i q q := ⟨rfl, fun _ _ => rfl, rfl⟩

theorem trans (h : Touches i q r) (h' : Touches i r t) : Touches i q t := by
  refine ⟨h'.registry.trans h.registry, fun j hj => (h'.others j hj).trans (h.others j hj), ?_⟩
  rw [h'.rest, h.rest]

theorem leads (hr : Touches i q r) (hq : q.Leads h i) : r.Leads h i := by
  have hindex : ∀ u : Query, u.indexOf? h.uniqueName =
      lastIndex? (·.uniqueName = h.uniqueName) (u.hierarchies.map (·.hierarchy)) := by
    intro u
    rw [lastIndex?_map]
    rfl
  refine ⟨?_, ?_⟩
  · rw [hindex, hr.registry, ← hindex, hq.index]
  · rw [← List.getElem?_map, hr.registry, List.getElem?_map, hq.here]

theorem set {s u : HierarchySelection} (hs : q.hierarchies[i]? = some s)
    (hu : u.hierarchy = s.hierarchy) :
    Touches i q { q with hierarchies := q.hierarchies.set i u } :=
  ⟨map_set_eq hs hu, fun _ hj => List.getElem?_set_ne (Ne.symm hj), rfl⟩

theorem of_update (hq : q.Leads h i)
    {f : HierarchySelection → Except Rejection HierarchySelection}
    (hf : ∀ s u, f s = .ok u → u.hierarchy = s.hierarchy)
    (hr : q.update h.uniqueName f = .ok r) : Touches i q r := by
  obtain ⟨j, s, u, hj, hs, hu, rfl⟩ := exists_of_update hr
  cases hq.find?_eq.symm.trans hj
  exact set hs (hf s u hu)

end Touches

theorem Leads.touches_pickMember (hq : q.Leads h i) {p : Pick} {m : String}
    (hr : q.pickMember p h.uniqueName m = .ok r) : Touches i q r := by
  obtain ⟨m, -, hr⟩ := bind_eq_ok.1 hr
  exact .of_update hq (fun _ _ hst => (HierarchySelection.pickMember_ground hst).hierarchy) hr

theorem Leads.touches_includeRange (hq : q.Leads h i) {start stop : String}
    (hr : q.includeRange h.uniqueName start stop = .ok r) : Touches i q r := by
  obtain ⟨first, -, hr⟩ := bind_eq_ok.1 hr
  obtain ⟨last, -, hr⟩ := bind_eq_ok.1 hr
  exact .of_update hq (fun _ _ hst => (HierarchySelection.includeRange_ground hst).hierarchy) hr

theorem Leads.touches_addCalculatedMember (hq : q.Leads h i) {m : CalculatedMember}
    (hm : m.hierarchy = h.uniqueName) (hr : q.addCalculatedMember m = .ok r) :
    Touches i q r := by
  obtain ⟨j, hj, -, hs, hh, rfl⟩ := addCalculatedMember_eq_ok.1 hr
  cases hq.index.symm.trans (hm ▸ hj)
  obtain ⟨s, t, hs, ht, rfl⟩ := (changeAt_eq_ok_of_lt (lastIndex?_lt hq.index)).1 hh
  obtain ⟨⟨u, k⟩, hu, ht⟩ := bind_eq_ok.1 ht
  cases ht
  exact .set hs (HierarchySelection.register_ground hu).hierarchy

end Query

/-! ## Entries for a hierarchy -/

section
variable {i : Nat} {h : Hierarchy} {q r : Query}

theorem LevelChoice.touches_apply {e : LevelChoice} (hq : q.Leads h i)
    (hr : e.apply h.uniqueName q = .ok r) : Query.Touches i q r := by
  obtain ⟨q', hq', hr⟩ := bind_eq_ok.1 hr
  have hinclude : Query.Touches i q q' := by
    refine .of_update hq (fun s t hst => ?_) hq'
    exact (HierarchySelection.change_ground (c := .includeLevel e.name) hst).hierarchy
  refine hinclude.trans ?_
  cases hd : e.detail with
  | none =>
    rw [hd] at hr
    cases hr
    exact .refl i _
  | some d =>
    rw [hd] at hr
    refine .of_update (hinclude.leads hq) (fun s t hst => ?_) hr
    obtain ⟨_, -, _, -, rfl⟩ := HierarchySelection.updateLevel_eq_ok.1 hst
    rfl

theorem CalculatedEntry.touches_apply {e : CalculatedEntry} (hq : q.Leads h i)
    (hr : e.apply h.uniqueName q = .ok r) : Query.Touches i q r := by
  obtain ⟨parent, -, hr⟩ := bind_eq_ok.1 hr
  obtain ⟨s, hs, rfl⟩ := Option.map_eq_some_iff.1 hq.here
  have hfound : q.hierarchy? s.hierarchy.uniqueName = some s := by
    rw [Query.hierarchy?, hq.find?_eq, Option.bind_some, hs]
  rw [hfound] at hr
  obtain ⟨q', hq', hr⟩ := bind_eq_ok.1 hr
  have hadd : Query.Touches i q q' := by
    refine hq.touches_addCalculatedMember ?_ hq'
    cases parent <;> cases e.level <;> first | rfl | exact CalculatedMember.withLevel_hierarchy ..
  refine hadd.trans (.of_update (hadd.leads hq) (fun u v huv => ?_) hr)
  exact (HierarchySelection.includeCalculated_ground huv).hierarchy

theorem HierarchyChoice.touches_apply {e : HierarchyChoice}
    (hnodup : (q.hierarchies.map (·.uniqueName)).Nodup) (hi : q.find? e.name = some i)
    (hr : e.apply q = .ok r) : Query.Touches i q r := by
  obtain ⟨s, hs⟩ := hierarchy?_of_apply hr
  have hq : q.Leads s.hierarchy i := by
    rw [Query.hierarchy?, hi, Option.bind_some] at hs
    exact Query.leads_of_nodup hnodup hs
  refine apply_keeps hs ?_ (.refl i q) hr
  constructor
  case level => exact fun _ _ _ hu h => hu.trans (LevelChoice.touches_apply (hu.leads hq) h)
  case pick => exact fun _ _ _ _ hu h => hu.trans ((hu.leads hq).touches_pickMember h)
  case range => exact fun _ _ _ _ hu h => hu.trans ((hu.leads hq).touches_includeRange h)
  case calculated =>
    exact fun _ _ _ hu h => hu.trans (CalculatedEntry.touches_apply (hu.leads hq) h)
  case settings =>
    refine fun u v hu h => hu.trans (.of_update (hu.leads hq) (fun s t hst => ?_) h)
    obtain ⟨shape, -, hst⟩ := bind_eq_ok.1 hst
    cases hst
    exact (HierarchySelection.reaches_ground (e.reaches_settings s)).hierarchy

end

/-! ## Names of a cube's hierarchies -/

/-- The position of the hierarchy of a cube that a name stands for: by its unique name, else the
first one of that plain name. -/
def Cube.position? (cube : Cube) (name : String) : Option Nat :=
  Query.lastIndex? (·.uniqueName = name) cube.hierarchies <|>
    cube.hierarchies.findIdx? (·.name = name)

/-- The hierarchies of the cube have unique names that are unique. -/
def Cube.Distinct (cube : Cube) : Prop := (cube.hierarchies.map (·.uniqueName)).Nodup

instance (cube : Cube) : Decidable cube.Distinct := inferInstanceAs (Decidable (List.Nodup _))

namespace Query

variable {cube : Cube} {q r t : Query}

theorem Sound.find?_eq (hq : Sound cube q) (name : String) :
    q.find? name = cube.position? name := by
  have last : q.indexOf? name = lastIndex? (·.uniqueName = name) cube.hierarchies := by
    rw [← hq.registry, lastIndex?_map]
    rfl
  have first : q.hierarchies.findIdx? (·.hierarchy.name = name) =
      cube.hierarchies.findIdx? (·.name = name) := by
    rw [← hq.registry, List.findIdx?_map]
    rfl
  rw [find?, last, first, Cube.position?]
  cases lastIndex? (·.uniqueName = name) cube.hierarchies <;> rfl

theorem Sound.nodup_uniqueNames (hq : Sound cube q) (hcube : cube.Distinct) :
    (q.hierarchies.map (·.uniqueName)).Nodup := by
  have h : (q.hierarchies.map (·.hierarchy)).map (·.uniqueName) =
      q.hierarchies.map (·.uniqueName) := List.map_map
  rw [← h, hq.registry]
  exact hcube

theorem Likewise.sound (h : q.Likewise r) (hq : Sound cube q) : Sound cube r := by
  refine ⟨placed_of_ground (.of_rest h.cube h.axes h.hierarchies) hq.toPlaced, ?_, ?_⟩
  · rw [h.cube, hq.onCube]
  · rw [h.hierarchies, hq.registry]

theorem Sound.of_reaches (hq : Sound cube q) (h : Reaches change q r) : Sound cube r :=
  h.keeps (fun _ _ _ => sound_change) hq

/-! ## Entries of an axis -/

/-- What entries for hierarchies of a cube do to a query: they put the hierarchies that they stand
for behind those that lie on the location, and pick on no others. -/
structure Replayed (cube : Cube) (l : Location) (es : List HierarchyChoice) (ids : List Nat)
    (q r : Query) : Prop where
  resolved : (es.map fun e => cube.position? e.name) = ids.map some
  nodup : ids.Nodup
  fresh : ∀ i ∈ ids, i ∉ (q.axes.get l).hierarchies
  lists : ∀ m, (r.axes.get m).hierarchies =
    (q.axes.get m).hierarchies.filter (· ∉ ids) ++ if m = l then ids else []
  others : ∀ i, i ∉ ids → r.hierarchies[i]? = q.hierarchies[i]?

namespace Replayed

variable {l : Location} {es es' : List HierarchyChoice} {ids ids' : List Nat}

theorem filterMap_eq (h : Replayed cube l es ids q r) :
    (es.filterMap fun e => cube.position? e.name) = ids := by
  have hsome := congrArg (List.filterMap id) h.resolved
  rwa [List.filterMap_map, List.filterMap_map, Function.id_comp, Function.id_comp,
    List.filterMap_some] at hsome

theorem isSome_position? (h : Replayed cube l es ids q r) :
    ∀ e ∈ es, (cube.position? e.name).isSome := by
  intro e he
  have hmem : cube.position? e.name ∈ ids.map some := h.resolved ▸ List.mem_map_of_mem he
  obtain ⟨i, -, hi⟩ := List.mem_map.1 hmem
  rw [← hi, Option.isSome_some]

theorem nodup_positions (h : Replayed cube l es ids q r) :
    (es.map fun e => cube.position? e.name).Nodup := by
  rw [h.resolved]
  exact h.nodup.map fun _ _ => Option.some.inj

theorem nil (cube : Cube) (l : Location) (q : Query) : Replayed cube l [] [] q q := by
  refine ⟨rfl, List.nodup_nil, fun _ h => (List.not_mem_nil h).elim, fun m => ?_, fun _ _ => rfl⟩
  simp

theorem append (h : Replayed cube l es ids q t) (h' : Replayed cube l es' ids' t r) :
    Replayed cube l (es ++ es') (ids ++ ids') q r := by
  -- The later entries find the earlier ones' hierarchies on the location, so they are others.
  have hlate : ∀ i ∈ ids', i ∉ ids ∧ i ∉ (q.axes.get l).hierarchies := by
    intro i hi
    have hnot := h'.fresh i hi
    rw [h.lists, if_pos rfl, List.mem_append, not_or] at hnot
    refine ⟨hnot.2, fun hmem => hnot.1 (List.mem_filter.2 ⟨hmem, ?_⟩)⟩
    simpa using hnot.2
  constructor
  case resolved => rw [List.map_append, List.map_append, h.resolved, h'.resolved]
  case nodup =>
    refine List.nodup_append'.2 ⟨h.nodup, h'.nodup, fun i hi hi' => ?_⟩
    exact (hlate i hi').1 hi
  case fresh =>
    intro i hi
    rcases List.mem_append.1 hi with hi | hi
    · exact h.fresh i hi
    · exact (hlate i hi).2
  case lists =>
    intro m
    have hkept : ids.filter (· ∉ ids') = ids :=
      List.filter_eq_self.2 fun i hi => by simpa using fun hi' => (hlate i hi').1 hi
    have htwice : ((q.axes.get m).hierarchies.filter (· ∉ ids)).filter (· ∉ ids') =
        (q.axes.get m).hierarchies.filter (· ∉ ids ++ ids') := by
      rw [List.filter_filter]
      refine List.filter_congr fun i _ => ?_
      simp [Bool.and_comm]
    rw [h'.lists, h.lists, List.filter_append, htwice]
    split
    · rw [hkept, List.append_assoc]
    · simp
  case others =>
    intro i hi
    rw [List.mem_append, not_or] at hi
    rw [h'.others i hi.2, h.others i hi.1]

end Replayed

/-- One entry moves its hierarchy to the end of the axis. -/
theorem Sound.replayed_entry (hq : Sound cube q) (hcube : cube.Distinct) {l : Location}
    {e : HierarchyChoice} (hmove : q.move e.name l none = .ok t) (happly : e.apply t = .ok r) :
    ∃ i, Replayed cube l [e] [i] q r := by
  have ht : Sound cube t := sound_change (c := .move e.name l none) hq hmove
  obtain ⟨i, hi, hnot, haxes, hrest⟩ := hq.toPlaced.axes_of_move hmove
  have hnot : i ∉ (q.axes.get l).hierarchies := fun hmem => hnot ⟨hmem, rfl⟩
  have htouch : Touches i t r := by
    refine HierarchyChoice.touches_apply (ht.nodup_uniqueNames hcube) ?_ happly
    rw [ht.find?_eq, ← hq.find?_eq, hi]
  -- What is picked afterwards leaves the lists as the move made them.
  have hr : r.axes = t.axes := by rw [htouch.rest]
  refine ⟨i, ?resolved, List.nodup_singleton i, ?fresh, ?lists, ?others⟩
  case resolved => simp [← hq.find?_eq, hi]
  case fresh =>
    intro j hj
    rwa [List.mem_singleton.1 hj]
  case lists =>
    intro m
    rw [hr, haxes]
    split <;> simp [Axis.erase, Axis.insert]
  case others =>
    intro j hj
    have hji : j ≠ i := fun h => hj (List.mem_singleton.2 h)
    rw [htouch.others j hji, ← hrest]
    exact List.getElem?_modify_ne _ _ hji.symm

theorem Sound.replayed (hq : Sound cube q) (hcube : cube.Distinct) {l : Location}
    {es : List HierarchyChoice}
    (h : es.foldlM (fun q e => do HierarchyChoice.apply e (← q.move e.name l none)) q = .ok r) :
    ∃ ids, Replayed cube l es ids q r := by
  induction es generalizing q with
  | nil =>
    cases h
    exact ⟨[], .nil cube l r⟩
  | cons e es ih =>
    rw [List.foldlM_cons] at h
    obtain ⟨t, ht, h⟩ := bind_eq_ok.1 h
    obtain ⟨u, hu, ht⟩ := bind_eq_ok.1 ht
    obtain ⟨i, hi⟩ := hq.replayed_entry hcube hu ht
    have hsound : Sound cube t := hq.of_reaches
      ((Reaches.step (.move e.name l none) hu).trans (HierarchyChoice.reaches_apply ht))
    obtain ⟨ids, hids⟩ := ih hsound h
    exact ⟨i :: ids, hi.append hids⟩

theorem Sound.replayed_axis (hq : Sound cube q) (hcube : cube.Distinct) {l : Location}
    {e : AxisEntry} (h : e.apply l q = .ok r) : ∃ ids, Replayed cube l e.hierarchies ids q r := by
  obtain ⟨t, ht, h⟩ := bind_eq_ok.1 h
  obtain ⟨shape, -, h⟩ := bind_eq_ok.1 h
  cases h
  obtain ⟨ids, hids⟩ := hq.replayed hcube ht
  refine ⟨ids, hids.resolved, hids.nodup, hids.fresh, fun m => ?_, hids.others⟩
  rw [← hids.lists, Axes.get_modify]
  split <;> rfl

end Query

/-! ## Definitions -/

namespace Definition

/-- The entries for a location. None is for the hierarchies that lie aside. -/
def entries (d : Definition) : Location → List HierarchyChoice
  | .unused => []
  | .columns => d.columns.hierarchies
  | .rows => d.rows.hierarchies
  | .filter => d.filter.hierarchies

/-- The positions of the hierarchies that the entries for a location stand for. -/
def listed (d : Definition) (cube : Cube) (l : Location) : List Nat :=
  (d.entries l).filterMap fun e => cube.position? e.name

/-- Some entry stands for the hierarchy at a position. -/
def Names (d : Definition) (cube : Cube) (i : Nat) : Prop :=
  ∃ l ∈ Location.all, i ∈ d.listed cube l

instance (d : Definition) (cube : Cube) (i : Nat) : Decidable (d.Names cube i) :=
  inferInstanceAs (Decidable (∃ l ∈ Location.all, i ∈ d.listed cube l))

/-- The query places and picks hierarchies as the definition lists them. -/
structure Arranged (d : Definition) (cube : Cube) (q : Query) : Prop where
  resolved : ∀ l, ∀ e ∈ d.entries l, (cube.position? e.name).isSome
  /-- No two entries of an axis stand for one hierarchy. -/
  distinct : ∀ l, ((d.entries l).map fun e => cube.position? e.name).Nodup
  columns : (q.axes.get .columns).hierarchies =
    (d.listed cube .columns).filter fun i => i ∉ d.listed cube .rows ∧ i ∉ d.listed cube .filter
  rows : (q.axes.get .rows).hierarchies =
    (d.listed cube .rows).filter fun i => i ∉ d.listed cube .filter
  filter : (q.axes.get .filter).hierarchies = d.listed cube .filter
  /-- What no entry stands for lies aside, in the order of the cube. -/
  unused : (q.axes.get .unused).hierarchies =
    (List.range cube.hierarchies.length).filter fun i => ¬d.Names cube i
  /-- Nothing is picked of it. -/
  untouched : ∀ i, ¬d.Names cube i →
    q.hierarchies[i]? = (cube.hierarchies[i]?).map HierarchySelection.new

theorem not_names_iff {d : Definition} {cube : Cube} {i : Nat} :
    ¬d.Names cube i ↔ i ∉ d.listed cube .columns ∧ i ∉ d.listed cube .rows ∧
      i ∉ d.listed cube .filter := by
  simp [Names, Location.all, listed, entries]

theorem Arranged.likewise {d : Definition} {cube : Cube} {q r : Query} (h : d.Arranged cube q)
    (hr : q.Likewise r) : d.Arranged cube r := by
  obtain ⟨resolved, distinct, columns, rows, filter, unused, untouched⟩ := h
  rw [← hr.axes] at columns rows filter unused
  rw [← hr.hierarchies] at untouched
  exact ⟨resolved, distinct, columns, rows, filter, unused, untouched⟩

/-- The axes take their entries one after the other, so a hierarchy stays with the last one. -/
theorem arranged_of_replayed {d : Definition} {cube : Cube} {q₀ q₁ q₂ q : Query}
    {cs rs fs : List Nat} (hnew : (Query.new d.name cube).Likewise q₀)
    (hc : Query.Replayed cube .columns d.columns.hierarchies cs q₀ q₁)
    (hr : Query.Replayed cube .rows d.rows.hierarchies rs q₁ q₂)
    (hf : Query.Replayed cube .filter d.filter.hierarchies fs q₂ q) : d.Arranged cube q := by
  obtain rfl : d.listed cube .columns = cs := hc.filterMap_eq
  obtain rfl : d.listed cube .rows = rs := hr.filterMap_eq
  obtain rfl : d.listed cube .filter = fs := hf.filterMap_eq
  -- The axes of a new query are empty, so each ends up with what its own entries put there.
  have lists : ∀ l, (q₀.axes.get l).hierarchies =
      if l = .unused then List.range cube.hierarchies.length else [] := by
    intro l
    rw [hnew.axes]
    cases l <;> rfl
  constructor
  case resolved =>
    intro l
    cases l with
    | unused => exact List.forall_mem_nil _
    | columns => exact hc.isSome_position?
    | rows => exact hr.isSome_position?
    | filter => exact hf.isSome_position?
  case distinct =>
    intro l
    cases l with
    | unused => exact List.nodup_nil
    | columns => exact hc.nodup_positions
    | rows => exact hr.nodup_positions
    | filter => exact hf.nodup_positions
  case columns =>
    rw [hf.lists, hr.lists, hc.lists, lists]
    simp [List.filter_filter, Bool.and_comm]
  case rows =>
    rw [hf.lists, hr.lists, hc.lists, lists]
    simp
  case filter =>
    rw [hf.lists, hr.lists, hc.lists, lists]
    simp
  case unused =>
    rw [hf.lists, hr.lists, hc.lists, lists]
    simp [List.filter_filter, not_names_iff, Bool.and_left_comm, Bool.and_comm]
  case untouched =>
    intro i hi
    obtain ⟨hcolumns, hrows, hfilter⟩ := not_names_iff.1 hi
    rw [hf.others i hfilter, hr.others i hrows, hc.others i hcolumns, hnew.hierarchies,
      Query.new, List.getElem?_map]

end Definition

/-- **Placement.** A definition that builds on a catalog whose cubes have distinct hierarchies lists
no hierarchy twice on an axis. Each axis holds what its entries stand for, in their order, except
what a later axis lists again. The other hierarchies of the cube lie aside as they are in a new
query. -/
theorem definition_arranged {d : Definition} {catalog : Catalog} {q : Query}
    (hdistinct : ∀ cube ∈ catalog.cubes, cube.Distinct) (h : d.build catalog = .ok q) :
    ∃ cube, catalog.cube? d.cube = some cube ∧ d.Arranged cube q := by
  obtain ⟨cube, q₁, q₂, q₃, q₄, hcube, measures, h₂, h₃, h₄, block⟩ := Definition.axes_of_build h
  have hdistinct : cube.Distinct := hdistinct cube (List.mem_of_find?_eq_some hcube)
  have s₁ := measures.sound (Query.sound_new d.name cube)
  have s₂ := s₁.of_reaches (AxisEntry.reaches_apply h₂)
  have s₃ := s₂.of_reaches (AxisEntry.reaches_apply h₃)
  obtain ⟨cs, hcs⟩ := s₁.replayed_axis hdistinct h₂
  obtain ⟨rs, hrs⟩ := s₂.replayed_axis hdistinct h₃
  obtain ⟨fs, hfs⟩ := s₃.replayed_axis hdistinct h₄
  exact ⟨cube, hcube, (Definition.arranged_of_replayed measures hcs hrs hfs).likewise block⟩

/-- Sales by time, store and customer. -/
def salesToCustomers : CubeEntry where
  name := "Sales"
  dimensions := salesEntry.dimensions ++ [
    { name := "Customer"
      hierarchies := [
        { name := "Customer", levels := [{ name := "Name", members := [["Ana"]] }] }] }]

/-- Countries and years on columns, and countries again, by the unique name, on rows. -/
def countriesTwice : Definition where
  name := "q"
  cube := "Sales"
  columns := {
    hierarchies := [
      { name := "Store", levels := [{ name := "Country" }] },
      { name := "Time", levels := [{ name := "Year" }] }] }
  rows := { hierarchies := [{ name := "[Store]", included := ["[Store].[Peru]"] }] }

/-- The stores end up on rows, and the customers stay aside. -/
theorem definition_arranged_countriesTwice :
    (∀ cube ∈ [salesToCustomers.link], cube.Distinct) ∧
      ∃ q, countriesTwice.build ⟨[salesToCustomers.link]⟩ = .ok q ∧
        countriesTwice.Arranged salesToCustomers.link q ∧
          (q.axes.get .columns).hierarchies = [0] ∧ (q.axes.get .rows).hierarchies = [1] ∧
            (q.axes.get .unused).hierarchies = [2] := by
  have hdistinct : ∀ cube ∈ [salesToCustomers.link], cube.Distinct :=
    List.forall_mem_singleton.2 (by decide +kernel)
  obtain ⟨q, hq⟩ : ∃ q, countriesTwice.build ⟨[salesToCustomers.link]⟩ = .ok q :=
    isOk_eq_true.1 (by decide +kernel)
  obtain ⟨cube, hcube, h⟩ := definition_arranged hdistinct hq
  have hsales : Catalog.cube? ⟨[salesToCustomers.link]⟩ countriesTwice.cube =
      some salesToCustomers.link := by decide +kernel
  cases hsales.symm.trans hcube
  refine ⟨hdistinct, q, hq, h, h.columns.trans ?_, h.rows.trans ?_, h.unused.trans ?_⟩ <;>
    decide +kernel

end CubeQuery
