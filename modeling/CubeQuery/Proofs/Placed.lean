import CubeQuery.Proofs.Building
import Mathlib.Data.List.Nodup

/-!
# Every hierarchy lies at one place

The place of a hierarchy is stored twice, in the list of an axis and in the hierarchy's own
location. `Placed` says that the two agree: no axis lists a hierarchy twice, and an axis lists
exactly the hierarchies that name it. Moves and swaps rewrite both by hand and keep it
(`placed_move`, `placed_swapAxes`); other changes touch neither.

`Partition` is what follows for a query on a cube: the four lists together hold every hierarchy
of the cube exactly once, and the selections stand for the hierarchies of the cube in its order.
-/

namespace CubeQuery.Query

/-! ## Locations -/

/-- The location that the hierarchy at a position names, if there is one. -/
def location? (q : Query) (i : Nat) : Option Location :=
  (q.hierarchies[i]?).map (·.location)

theorem location?_of_lt {q : Query} {i : Nat} (h : i < q.hierarchies.length) :
    q.location? i = some (q.locationAt i) := by
  rw [location?, locationAt, List.getElem?_eq_getElem h]
  rfl

theorem lt_of_location? {q : Query} {i : Nat} {l : Location} (h : q.location? i = some l) :
    i < q.hierarchies.length := by
  obtain ⟨s, hs, -⟩ := Option.map_eq_some_iff.1 h
  exact (List.getElem?_eq_some_iff.1 hs).1

/-- Relocating writes its location to the listed hierarchies and nothing else. -/
theorem getElem?_relocate (hs : List HierarchySelection) (ids : List Nat) (l : Location) (j : Nat) :
    (relocate hs ids l)[j]? =
      (hs[j]?).map fun s => if j ∈ ids then { s with location := l } else s := by
  induction ids generalizing hs with
  | nil => simp [relocate]
  | cons i ids ih =>
    show (relocate (hs.modify i ({ · with location := l })) ids l)[j]? = _
    rw [ih, List.getElem?_modify]
    by_cases hij : i = j
    · subst hij
      cases hs[i]? <;> simp
    · have hji : j ≠ i := fun h => hij h.symm
      cases hs[j]? <;> simp [hij, hji]

/-- Relocating gives its location to the listed hierarchies and to no other. -/
theorem location_relocate (hs : List HierarchySelection) (ids : List Nat) (l : Location)
    (j : Nat) :
    ((relocate hs ids l)[j]?).map (·.location) =
      if j ∈ ids then ((hs[j]?).map (·.location)).map fun _ => l
      else (hs[j]?).map (·.location) := by
  rw [getElem?_relocate, Option.map_map]
  split
  · rw [Option.map_map]
    rfl
  · rfl

/-- Relocating changes nothing but locations. -/
theorem relocate_map {β : Type} {f : HierarchySelection → β}
    (hf : ∀ (s : HierarchySelection) (l : Location), f { s with location := l } = f s)
    (hs : List HierarchySelection) (ids : List Nat) (l : Location) :
    (relocate hs ids l).map f = hs.map f := by
  induction ids generalizing hs with
  | nil => rfl
  | cons i ids ih => exact (ih _).trans (map_modify_eq fun s _ => hf s l)

theorem relocate_registry (hs : List HierarchySelection) (ids : List Nat) (l : Location) :
    (relocate hs ids l).map (·.hierarchy) = hs.map (·.hierarchy) :=
  relocate_map (fun _ _ => rfl) hs ids l

theorem relocate_calculated (hs : List HierarchySelection) (ids : List Nat) (l : Location) :
    (relocate hs ids l).flatMap (·.calculated) = hs.flatMap (·.calculated) := by
  rw [List.flatMap_def, relocate_map (fun _ _ => rfl), ← List.flatMap_def]

/-! ## Lists -/

theorem mem_insert {a : Axis} {i j : Nat} {p : Option Nat} :
    j ∈ (a.insert i p).hierarchies ↔ j = i ∨ j ∈ a.hierarchies := by
  cases p with
  | none => simp [Axis.insert, or_comm]
  | some k => exact List.mem_insertIdx (Nat.min_le_right k a.hierarchies.length)

theorem nodup_insert {a : Axis} {i : Nat} {p : Option Nat} (h : a.hierarchies.Nodup)
    (hi : i ∉ a.hierarchies) : (a.insert i p).hierarchies.Nodup := by
  have hcons : (i :: a.hierarchies).Nodup := List.nodup_cons.2 ⟨hi, h⟩
  cases p with
  | none => exact ((List.perm_append_singleton i a.hierarchies).nodup_iff).2 hcons
  | some k =>
    have hk : min k a.hierarchies.length ≤ a.hierarchies.length := Nat.min_le_right _ _
    exact ((List.perm_insertIdx i a.hierarchies hk).nodup_iff).2 hcons

/-! ## The invariant -/

/-- Both records of the places agree. -/
structure Placed (q : Query) : Prop where
  nodup : ∀ l, (q.axes.get l).hierarchies.Nodup
  listed : ∀ l i, i ∈ (q.axes.get l).hierarchies ↔ q.location? i = some l

theorem placed_new (name : String) (cube : Cube) : (new name cube).Placed := by
  constructor
  · intro l
    cases l with
    | unused => exact List.nodup_range
    | columns | rows | filter => exact List.nodup_nil
  · intro l i
    have hloc : (new name cube).location? i =
        (cube.hierarchies[i]?).map fun _ => Location.unused := by
      simp [location?, new, HierarchySelection.new, Function.comp_def]
    rw [hloc]
    cases l with
    | unused => simp [new, Axes.get, List.getElem?_eq_some_iff]
    | columns | rows | filter => simp [new, Axes.get]

theorem placed_of_ground {q r : Query} (h : SameGround q r) (hq : q.Placed) : r.Placed := by
  have hloc : ∀ i, r.location? i = q.location? i := by
    intro i
    have hmap : r.hierarchies.map (·.location) = q.hierarchies.map (·.location) :=
      h.map_eq fun _ _ hst => hst.location
    rw [location?, location?, ← List.getElem?_map, ← List.getElem?_map, hmap]
  constructor
  · intro l
    rw [h.lists]
    exact hq.nodup l
  · intro l i
    rw [h.lists, hloc]
    exact hq.listed l i

/-- The hierarchy is gone from every list once its source has let go of it. -/
theorem Placed.mem_erased {q : Query} (hq : q.Placed) {i : Nat} {source : Location}
    (hloc : q.location? i = some source) {l : Location} {j : Nat} :
    j ∈ ((q.axes.modify source (·.erase i)).get l).hierarchies ↔
      j ≠ i ∧ q.location? j = some l := by
  rw [Axes.get_modify]
  split
  · next hl =>
    subst hl
    simp [Axis.erase, hq.listed, and_comm]
  · next hl =>
    rw [hq.listed]
    refine ⟨fun hj => ⟨?_, hj⟩, fun hj => hj.2⟩
    rintro rfl
    rw [hloc] at hj
    exact hl (Option.some.inj hj)

theorem Placed.nodup_erased {q : Query} (hq : q.Placed) (i : Nat) (source l : Location) :
    ((q.axes.modify source (·.erase i)).get l).hierarchies.Nodup := by
  rw [Axes.get_modify]
  split
  · exact (hq.nodup l).filter _
  · exact hq.nodup l

theorem placed_move {q r : Query} {name : String} {target : Location} {p : Option Nat}
    (hq : q.Placed) (h : q.move name target p = .ok r) : r.Placed := by
  obtain ⟨i, hi, -, rfl⟩ := move_eq_ok.1 h
  have hloc := location?_of_lt (find?_lt hi)
  generalize q.locationAt i = source at hloc ⊢
  constructor
  · intro l
    show (((q.axes.modify source (·.erase i)).modify target (·.insert i p)).get l).hierarchies.Nodup
    rw [Axes.get_modify]
    split
    · refine nodup_insert (hq.nodup_erased i source l) fun hmem => ?_
      exact ((hq.mem_erased hloc).1 hmem).1 rfl
    · exact hq.nodup_erased i source l
  · intro l j
    show j ∈ (((q.axes.modify source (·.erase i)).modify target (·.insert i p)).get l).hierarchies ↔
      ((relocate q.hierarchies [i] target)[j]?).map (·.location) = some l
    rw [Axes.get_modify, location_relocate]
    by_cases hj : j = i
    · subst hj
      obtain ⟨s, hs, -⟩ := Option.map_eq_some_iff.1 hloc
      by_cases hl : target = l
      · simp [hl, mem_insert, hs]
      · simp [hl, hq.mem_erased hloc, hs]
    · by_cases hl : target = l
      · simp [hl, mem_insert, hq.mem_erased hloc, hj, location?]
      · simp [hl, hq.mem_erased hloc, hj, location?]

/-- Where the hierarchies of a location lay before the axes were swapped. -/
def swapped : Location → Location
  | .columns => .rows
  | .rows => .columns
  | l => l

theorem placed_swapAxes {q : Query} (hq : q.Placed) : q.swapAxes.Placed := by
  constructor
  · intro l
    cases l with
    | unused => exact hq.nodup .unused
    | columns => exact hq.nodup .rows
    | rows => exact hq.nodup .columns
    | filter => exact hq.nodup .filter
  · intro l j
    show j ∈ (q.swapAxes.axes.get l).hierarchies ↔
      ((relocate (relocate q.hierarchies (q.axes.get .columns).hierarchies .rows)
        (q.axes.get .rows).hierarchies .columns)[j]?).map (·.location) = some l
    rw [location_relocate, location_relocate]
    simp only [hq.listed]
    have hj : j ∈ (q.swapAxes.axes.get l).hierarchies ↔ q.location? j = some (swapped l) := by
      rw [← hq.listed]
      cases l <;> rfl
    rw [hj, location?]
    cases (q.hierarchies[j]?).map (·.location) with
    | none => simp
    | some m => cases m <;> cases l <;> decide

/-! ## Runs -/

/-- The hierarchies of a cube, parted among the four lists of a query. -/
structure Partition (cube : Cube) (q : Query) : Prop where
  onCube : q.cube = cube
  /-- The selections stand for the hierarchies of the cube, in its order. -/
  registry : q.hierarchies.map (·.hierarchy) = cube.hierarchies
  /-- The four lists together hold every hierarchy once and nothing else. -/
  once : (Location.all.flatMap fun l => (q.axes.get l).hierarchies).Perm
    (List.range cube.hierarchies.length)
  /-- A hierarchy is on the list of the location that it names, and on no other. -/
  listed : ∀ l i, i ∈ (q.axes.get l).hierarchies ↔ q.location? i = some l

theorem Placed.once {q : Query} (h : q.Placed) :
    (Location.all.flatMap fun l => (q.axes.get l).hierarchies).Perm
      (List.range q.hierarchies.length) := by
  have hdisjoint : ∀ l m, l ≠ m →
      List.Disjoint (q.axes.get l).hierarchies (q.axes.get m).hierarchies := by
    intro l m hlm i hl hm
    rw [h.listed] at hl hm
    exact hlm (Option.some.inj (hl.symm.trans hm))
  have hnodup : (Location.all.flatMap fun l => (q.axes.get l).hierarchies).Nodup := by
    refine List.nodup_flatMap.2 ⟨fun l _ => h.nodup l, ?_⟩
    have hall : Location.all.Pairwise (· ≠ ·) := by decide
    exact hall.imp fun hlm => hdisjoint _ _ hlm
  refine (List.perm_ext_iff_of_nodup hnodup List.nodup_range).2 fun i => ?_
  rw [List.mem_flatMap, List.mem_range]
  constructor
  · rintro ⟨l, -, hi⟩
    exact lt_of_location? ((h.listed l i).1 hi)
  · intro hi
    refine ⟨q.locationAt i, ?_, (h.listed _ i).2 (location?_of_lt hi)⟩
    cases q.locationAt i <;> decide

/-- A query on a cube whose two records of the places agree. -/
structure Sound (cube : Cube) (q : Query) : Prop extends Placed q where
  onCube : q.cube = cube
  registry : q.hierarchies.map (·.hierarchy) = cube.hierarchies

theorem sound_new (name : String) (cube : Cube) : Sound cube (new name cube) := by
  refine ⟨placed_new name cube, rfl, ?_⟩
  simp [new, HierarchySelection.new, Function.comp_def]

theorem sound_change {cube : Cube} {q r : Query} {c : Change} (h : Sound cube q)
    (hc : q.change c = .ok r) : Sound cube r := by
  rcases change_cases hc with hg | ⟨name, l, p, hm⟩ | rfl
  · exact ⟨placed_of_ground hg h.toPlaced, hg.cube.trans h.onCube, hg.registry.trans h.registry⟩
  · refine ⟨placed_move h.toPlaced hm, ?_, ?_⟩
    · obtain ⟨i, -, -, rfl⟩ := move_eq_ok.1 hm
      exact h.onCube
    · obtain ⟨i, -, -, rfl⟩ := move_eq_ok.1 hm
      exact (relocate_registry _ _ _).trans h.registry
  · refine ⟨placed_swapAxes h.toPlaced, h.onCube, ?_⟩
    exact (relocate_registry _ _ _).trans ((relocate_registry _ _ _).trans h.registry)

theorem Sound.partition {cube : Cube} {q : Query} (h : Sound cube q) : Partition cube q := by
  have hlength : q.hierarchies.length = cube.hierarchies.length := by
    rw [← h.registry, List.length_map]
  exact ⟨h.onCube, h.registry, hlength ▸ h.toPlaced.once, h.listed⟩

theorem sound_afterAll (name : String) (cube : Cube) (cs : List Change) :
    Sound cube ((new name cube).afterAll cs) :=
  afterAll_keeps (fun _ _ _ => sound_change) (sound_new name cube) cs

/-- **One place for each hierarchy.** After any changes of a new query, accepted or rejected, the
four lists part the hierarchies of the cube, each hierarchy names the location of its list, and the
selections keep to the order of the cube. The same holds of every query built from a definition,
and after any changes of it. -/
theorem hierarchies_parted (name : String) (cube : Cube) :
    (∀ cs, Partition cube ((new name cube).afterAll cs)) ∧
      ∀ (d : Definition) (catalog : Catalog) (q : Query), d.build catalog = .ok q →
        ∃ cube, catalog.cube? d.cube = some cube ∧ ∀ cs, Partition cube (q.afterAll cs) := by
  refine ⟨fun cs => (sound_afterAll name cube cs).partition, fun d catalog q h => ?_⟩
  obtain ⟨cube, cs, hcube, rfl⟩ := Definition.build_eq_afterAll h
  refine ⟨cube, hcube, fun ds => ?_⟩
  rw [← afterAll_append]
  exact (sound_afterAll d.name cube (cs ++ ds)).partition

/-- Years on rows and countries on the filter axis. -/
def salesByYear : Definition where
  name := "q"
  cube := "Sales"
  rows := { hierarchies := [{ name := "Time", levels := [{ name := "Year" }] }] }
  filter := { hierarchies := [{ name := "Store" }] }

theorem hierarchies_parted_salesByYear :
    ∃ q, salesByYear.build ⟨[sales]⟩ = .ok q ∧
      Partition sales (q.afterAll [.swapAxes, .move "Store" .columns (some 7)]) := by
  obtain ⟨q, hq⟩ : ∃ q, salesByYear.build ⟨[sales]⟩ = .ok q :=
    isOk_eq_true.1 (by decide +kernel)
  obtain ⟨cube, hcube, h⟩ := (hierarchies_parted "q" sales).2 salesByYear ⟨[sales]⟩ q hq
  have hsales : Catalog.cube? ⟨[sales]⟩ salesByYear.cube = some sales := by decide +kernel
  cases hsales.symm.trans hcube
  exact ⟨q, hq, h _⟩

end CubeQuery.Query
