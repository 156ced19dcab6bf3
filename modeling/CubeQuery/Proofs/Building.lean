import CubeQuery.Definition.Build
import CubeQuery.Proofs.Runs

/-!
# Building queries does what changes do

`Definition.build_eq_afterAll`: for each definition that builds, some sequence of changes leads
from the new query on its cube to the query that is built. So whatever holds after every sequence
of changes holds of queries that are built, and of what changes make of them.

`HierarchyChoice.apply_keeps` and `Definition.stages_of_build` take apart what is done for a
hierarchy, and for a whole definition. Only the axes of a definition place and pick hierarchies
(`Definition.axes_of_build`).
-/

namespace CubeQuery

/-! ## Sets -/

theorem SetShape.reaches_filters (s : SetShape) (fs : List SetFilter) :
    Reaches change s { s with filters := s.filters ++ fs } := by
  induction fs generalizing s with
  | nil =>
    rw [List.append_nil]
    exact Reaches.refl s
  | cons f fs ih =>
    have h := ih (s.addFilter f)
    rw [show (s.addFilter f).filters ++ fs = s.filters ++ f :: fs by simp [addFilter]] at h
    exact (Reaches.step (.addFilter f) rfl).trans h

/-- An override, if there is one, and further filters. -/
theorem SetShape.reaches_merge (s : SetShape) (text : Option String) (fs : List SetFilter) :
    Reaches change s { override := text <|> s.override, filters := s.filters ++ fs } := by
  cases text with
  | none => exact s.reaches_filters fs
  | some text => exact (Reaches.step (.override text) rfl).trans (reaches_filters _ fs)

theorem OrderedShape.reaches_base (s : OrderedShape) {base : SetShape}
    (h : Reaches SetShape.change s.base base) : Reaches change s { s with base := base } := by
  refine Reaches.lift (fun base => { s with base := base }) (fun a b c hc => ?_) h
  refine ⟨.shape c, ?_⟩
  simp only [change, hc, ok_bind, pure_eq_ok]

theorem ShapeEntry.reaches_apply {e : ShapeEntry} {hierarchy : Option String}
    {s t : OrderedShape} (h : e.apply hierarchy s = .ok t) :
    Reaches OrderedShape.change s t := by
  obtain ⟨mode, hmode, h⟩ := bind_eq_ok.1 h
  obtain ⟨filters, -, h⟩ := bind_eq_ok.1 h
  cases h
  have hsort : ∀ u : OrderedShape, Reaches OrderedShape.change u
      { u with sort := e.sort.map (fun t => (t.order, t.expression)) <|> u.sort } := by
    intro u
    cases e.sort with
    | none => exact Reaches.refl u
    | some t => exact Reaches.step (.sort t.order t.expression) rfl
  refine (s.reaches_base (s.base.reaches_merge e.override filters)).trans ((hsort _).trans ?_)
  rcases mapM_eq_ok.1 hmode with ⟨-, rfl⟩ | ⟨text, m, -, hm, rfl⟩
  · exact Reaches.refl _
  · refine Reaches.step (.hierarchize text) ?_
    rw [OrderedShape.change, hm]
    rfl

/-! ## Levels -/

theorem LevelSelection.reaches_shape (s : LevelSelection) {shape : SetShape}
    (h : Reaches SetShape.change s.shape shape) : Reaches change s { s with shape := shape } := by
  refine Reaches.lift (fun shape => { s with shape := shape }) (fun a b c hc => ?_) h
  refine ⟨.shape c, ?_⟩
  simp only [change, hc, ok_bind, pure_eq_ok]

theorem LevelDetail.reaches_apply {d : LevelDetail} {hierarchy : String} {s t : LevelSelection}
    (h : d.apply hierarchy s = .ok t) : Reaches LevelSelection.change s t := by
  obtain ⟨filters, -, h⟩ := bind_eq_ok.1 h
  cases h
  have hparameter : ∀ u : LevelSelection, Reaches LevelSelection.change u
      { u with
        parameter := d.parameter <|> u.parameter
        parameterPick := if d.parameter.isSome then d.parameterPick else u.parameterPick } := by
    intro u
    cases d.parameter with
    | none => exact Reaches.refl u
    | some name =>
      exact (Reaches.step (.bind name) rfl).trans
        (Reaches.step (.parameterPick d.parameterPick) rfl)
  refine (s.reaches_shape (s.shape.reaches_merge d.override filters)).trans
    ((hparameter _).trans ?_)
  cases d.range with
  | none => exact Reaches.refl _
  | some r => exact Reaches.step (.range r.1 r.2) rfl

/-! ## Hierarchies -/

theorem HierarchySelection.reaches_shape (s : HierarchySelection) {shape : OrderedShape}
    (h : Reaches OrderedShape.change s.shape shape) :
    Reaches change s { s with shape := shape } := by
  refine Reaches.lift (fun shape => { s with shape := shape }) (fun a b c hc => ?_) h
  refine ⟨.order c, ?_⟩
  simp only [change, hc, ok_bind, pure_eq_ok]

theorem HierarchyChoice.reaches_settings (e : HierarchyChoice) (s : HierarchySelection) :
    Reaches HierarchySelection.change s (e.settings s) := by
  refine (Reaches.step (.consistent (e.consistent.getD s.consistent)) rfl).trans ?_
  unfold settings
  generalize { s with consistent := e.consistent.getD s.consistent } = u
  have htotals : Reaches HierarchySelection.change u
      (if e.visualTotals then u.setVisualTotals true else u) := by
    split
    · exact Reaches.step (.visualTotals true) rfl
    · exact Reaches.refl u
  refine htotals.trans ?_
  cases e.visualPattern with
  | none => exact Reaches.refl _
  | some pattern => exact Reaches.step (.visualPattern pattern) rfl

/-! ## Queries -/

theorem LevelChoice.reaches_apply {e : LevelChoice} {hierarchy : String} {q r : Query}
    (h : e.apply hierarchy q = .ok r) : Reaches Query.change q r := by
  obtain ⟨q', hq, h⟩ := bind_eq_ok.1 h
  have hinclude : Reaches Query.change q q' :=
    Reaches.step (.hierarchy hierarchy (.includeLevel e.name)) hq
  refine hinclude.trans ?_
  cases hd : e.detail with
  | none =>
    rw [hd] at h
    cases h
    exact Reaches.refl _
  | some d =>
    rw [hd] at h
    refine Query.reaches_update (fun s t hst => ?_) h
    exact HierarchySelection.reaches_updateLevel (fun _ _ => LevelDetail.reaches_apply) hst

theorem CalculatedEntry.reaches_apply {e : CalculatedEntry} {hierarchy : String} {q r : Query}
    (h : e.apply hierarchy q = .ok r) : Reaches Query.change q r := by
  obtain ⟨parent, -, h⟩ := bind_eq_ok.1 h
  cases hh : q.hierarchy? hierarchy with
  | none =>
    rw [hh] at h
    cases h
  | some s =>
    rw [hh] at h
    obtain ⟨q', hq, h⟩ := bind_eq_ok.1 h
    exact (Reaches.step (.addCalculatedMember _) hq).trans
      (Reaches.step (.hierarchy hierarchy (.includeCalculated _ e.onLevel)) h)

/-- Every part of a choice keeps `P`, for the hierarchy of the given unique name. -/
structure HierarchyChoice.Keeps (e : HierarchyChoice) (name : String) (P : Query → Prop) :
    Prop where
  level : ∀ (l : LevelChoice) (u v : Query), P u → l.apply name u = .ok v → P v
  pick : ∀ (p : Pick) (m : String) (u v : Query), P u → u.pickMember p name m = .ok v → P v
  range : ∀ (start stop : String) (u v : Query), P u → u.includeRange name start stop = .ok v → P v
  calculated : ∀ (m : CalculatedEntry) (u v : Query), P u → m.apply name u = .ok v → P v
  settings : ∀ u v : Query, P u → (u.update name fun h => do
    return { e.settings h with shape := ← e.shape.apply (some name) h.shape }) = .ok v → P v

theorem HierarchyChoice.hierarchy?_of_apply {e : HierarchyChoice} {q r : Query}
    (h : e.apply q = .ok r) : ∃ s, q.hierarchy? e.name = some s := by
  unfold apply at h
  cases hs : q.hierarchy? e.name with
  | none =>
    rw [hs] at h
    cases h
  | some s => exact ⟨s, rfl⟩

/-- What every part of a choice keeps, the choice keeps. -/
theorem HierarchyChoice.apply_keeps {P : Query → Prop} {e : HierarchyChoice} {q r : Query}
    {s : HierarchySelection} (hs : q.hierarchy? e.name = some s) (hk : e.Keeps s.uniqueName P)
    (hq : P q) (h : e.apply q = .ok r) : P r := by
  unfold apply at h
  rw [hs] at h
  obtain ⟨q₁, h₁, h⟩ := bind_eq_ok.1 h
  obtain ⟨q₂, h₂, h⟩ := bind_eq_ok.1 h
  obtain ⟨q₃, h₃, h⟩ := bind_eq_ok.1 h
  have levels : P q₁ := foldlM_keeps (fun u l v => hk.level l u v) hq h₁
  have included : P q₂ := foldlM_keeps (fun u m v => hk.pick .inclusion m u v) levels h₂
  have excluded : P q₃ := foldlM_keeps (fun u m v => hk.pick .exclusion m u v) included h₃
  -- What follows is the same with a range and without one.
  have rest : ∀ {q₄ : Query}, P q₄ → (do
      let q ← e.calculated.foldlM (fun q m => CalculatedEntry.apply m s.uniqueName q) q₄
      q.update s.uniqueName fun h => do
        return { e.settings h with
          shape := ← e.shape.apply (some s.uniqueName) h.shape }) = .ok r → P r := by
    intro q₄ hq₄ h
    obtain ⟨q₅, h₅, h⟩ := bind_eq_ok.1 h
    exact hk.settings q₅ r (foldlM_keeps (fun u m v => hk.calculated m u v) hq₄ h₅) h
  cases hr : e.range with
  | none =>
    rw [hr] at h
    exact rest excluded h
  | some range =>
    rw [hr] at h
    obtain ⟨q₄, h₄, h⟩ := bind_eq_ok.1 h
    exact rest (hk.range range.start range.stop q₃ q₄ excluded h₄) h

theorem HierarchyChoice.reaches_apply {e : HierarchyChoice} {q r : Query}
    (h : e.apply q = .ok r) : Reaches Query.change q r := by
  obtain ⟨s, hs⟩ := hierarchy?_of_apply h
  refine apply_keeps hs ?_ (Reaches.refl q) h
  constructor
  case level => exact fun _ _ _ hu h => hu.trans (LevelChoice.reaches_apply h)
  case pick => exact fun p m _ _ hu h => hu.trans (Reaches.step (.pickMember p s.uniqueName m) h)
  case range =>
    exact fun start stop _ _ hu h => hu.trans (Reaches.step (.range s.uniqueName start stop) h)
  case calculated => exact fun _ _ _ hu h => hu.trans (CalculatedEntry.reaches_apply h)
  case settings =>
    refine fun u v hu h => hu.trans (Query.reaches_update (fun u t hut => ?_) h)
    obtain ⟨shape, hs, hut⟩ := bind_eq_ok.1 hut
    cases hut
    have hshape : (e.settings u).shape = u.shape := by
      unfold settings
      cases e.visualPattern <;> split <;> rfl
    refine (e.reaches_settings u).trans (HierarchySelection.reaches_shape _ ?_)
    rw [hshape]
    exact ShapeEntry.reaches_apply hs

theorem Axis.reaches_shape (a : Axis) {shape : OrderedShape}
    (h : Reaches OrderedShape.change a.shape shape) :
    Reaches change a { a with shape := shape } := by
  refine Reaches.lift (fun shape => { a with shape := shape }) (fun b b' c hc => ?_) h
  refine ⟨.order c, ?_⟩
  simp only [change, hc, ok_bind, pure_eq_ok]

theorem AxisEntry.reaches_apply {e : AxisEntry} {l : Location} {q r : Query}
    (h : e.apply l q = .ok r) : Reaches Query.change q r := by
  obtain ⟨q', hq, h⟩ := bind_eq_ok.1 h
  obtain ⟨shape, hs, h⟩ := bind_eq_ok.1 h
  cases h
  have hierarchies : Reaches Query.change q q' := by
    refine Reaches.foldlM (fun u c t hut => ?_) hq
    obtain ⟨u', hu, hut⟩ := bind_eq_ok.1 hut
    exact (Reaches.step (.move c.name l none) hu).trans (HierarchyChoice.reaches_apply hut)
  have axis : Reaches Axis.change (q'.axes.get l)
      { q'.axes.get l with nonEmpty := e.nonEmpty, shape := shape } :=
    (Reaches.step (.nonEmpty e.nonEmpty) rfl).trans
      (Axis.reaches_shape { q'.axes.get l with nonEmpty := e.nonEmpty }
        (ShapeEntry.reaches_apply hs))
  have hmodify : q'.axes.modify l ({ · with nonEmpty := e.nonEmpty, shape := shape }) =
      q'.axes.modify l fun _ => { q'.axes.get l with nonEmpty := e.nonEmpty, shape := shape } := by
    cases l <;> rfl
  rw [hmodify]
  exact hierarchies.trans (q'.reaches_set_axis l axis)

theorem BlockEntry.reaches_apply {e : BlockEntry} {q r : Query} (h : e.apply q = .ok r) :
    Reaches Query.change q r :=
  (Reaches.step (.block (.axis e.axis)) rfl).trans
    ((Reaches.step (.block (.side e.side)) rfl).trans
      (Reaches.foldlM (fun _ name _ => Reaches.step (Change.addMeasure name)) h))

namespace Definition

theorem reaches_bind (q : Query) (parameter : String × Option String) :
    Reaches Query.change q (bind q parameter) := by
  obtain ⟨name, value⟩ := parameter
  cases value with
  | none => exact Reaches.step (.declareParameters [name]) rfl
  | some value => exact Reaches.step (.setParameter name value) rfl

/-- The new query with the settings that a definition asks for, given the mode that its text for
one stands for. -/
def start (d : Definition) (cube : Cube) (mode : Option HierarchizeMode) : Query :=
  let q := { Query.new d.name cube with lowestLevelsOnly := d.lowestLevelsOnly }
  let q := q.setVisualTotals d.visualTotals
  { q with
    visualPattern := d.visualPattern <|> q.visualPattern
    defaultHierarchize := mode.getD q.defaultHierarchize }

/-- The stages of a definition that builds: its settings and parameters, the calculated measures,
the axes one after the other, and the measures. -/
theorem stages_of_build {d : Definition} {catalog : Catalog} {q : Query}
    (h : d.build catalog = .ok q) :
    ∃ cube mode q₁ q₂ q₃ q₄, catalog.cube? d.cube = some cube ∧
      d.defaultHierarchize.mapM HierarchizeMode.ofText = .ok mode ∧
      d.calculatedMeasures.foldlM
        (fun q m => return (← q.createCalculatedMeasure m.name m.formula m.properties).1)
        (d.parameters.entries.foldl bind (d.start cube mode)) = .ok q₁ ∧
      d.columns.apply .columns q₁ = .ok q₂ ∧ d.rows.apply .rows q₂ = .ok q₃ ∧
      d.filter.apply .filter q₃ = .ok q₄ ∧
      (d.block.elim (.ok q₄) fun b => b.apply q₄) = .ok q := by
  unfold build at h
  cases hcube : catalog.cube? d.cube with
  | none =>
    rw [hcube] at h
    cases h
  | some cube =>
    rw [hcube] at h
    obtain ⟨mode, hmode, h⟩ := bind_eq_ok.1 h
    obtain ⟨q₁, h₁, h⟩ := bind_eq_ok.1 h
    obtain ⟨q₂, h₂, h⟩ := bind_eq_ok.1 h
    obtain ⟨q₃, h₃, h⟩ := bind_eq_ok.1 h
    obtain ⟨q₄, h₄, h⟩ := bind_eq_ok.1 h
    refine ⟨cube, mode, q₁, q₂, q₃, q₄, rfl, hmode, h₁, h₂, h₃, h₄, ?_⟩
    rw [← h]
    cases d.block <;> rfl

theorem reaches_start {d : Definition} (cube : Cube) {mode : Option HierarchizeMode}
    (hmode : d.defaultHierarchize.mapM HierarchizeMode.ofText = .ok mode) :
    Reaches Query.change (Query.new d.name cube) (d.start cube mode) := by
  have pattern : ∀ u : Query, Reaches Query.change u
      { u with visualPattern := d.visualPattern <|> u.visualPattern } := by
    intro u
    cases d.visualPattern with
    | none => exact Reaches.refl u
    | some text => exact Reaches.step (.visualPattern text) rfl
  have hierarchize : ∀ u : Query, Reaches Query.change u
      { u with defaultHierarchize := mode.getD u.defaultHierarchize } := by
    intro u
    rcases mapM_eq_ok.1 hmode with ⟨-, rfl⟩ | ⟨text, m, -, hm, rfl⟩
    · exact Reaches.refl u
    · refine Reaches.step (.defaultHierarchize text) ?_
      rw [Query.change, hm]
      rfl
  exact (Reaches.step (.lowestLevelsOnly d.lowestLevelsOnly) rfl).trans
    ((Reaches.step (.visualTotals d.visualTotals) rfl).trans
      ((pattern _).trans (hierarchize _)))

theorem reaches_build {d : Definition} {catalog : Catalog} {q : Query}
    (h : d.build catalog = .ok q) :
    ∃ cube, catalog.cube? d.cube = some cube ∧ Reaches Query.change (Query.new d.name cube) q := by
  obtain ⟨cube, mode, q₁, q₂, q₃, q₄, hcube, hmode, h₁, h₂, h₃, h₄, h⟩ := stages_of_build h
  have parameters := Reaches.foldl reaches_bind d.parameters.entries
  have measures : Reaches Query.change _ q₁ := Reaches.foldlM (fun _ m _ hm =>
    Reaches.step (Change.createCalculatedMeasure m.name m.formula m.properties) hm) h₁
  have axes : Reaches Query.change q₁ q₄ :=
    (AxisEntry.reaches_apply h₂).trans
      ((AxisEntry.reaches_apply h₃).trans (AxisEntry.reaches_apply h₄))
  have block : Reaches Query.change q₄ q := by
    cases hb : d.block with
    | none =>
      rw [hb] at h
      cases h
      exact Reaches.refl q
    | some b =>
      rw [hb] at h
      exact BlockEntry.reaches_apply h
  exact ⟨cube, hcube,
    (reaches_start cube hmode).trans ((parameters _).trans (measures.trans (axes.trans block)))⟩

/-- A definition builds nothing that a sequence of changes could not make. -/
theorem build_eq_afterAll {d : Definition} {catalog : Catalog} {q : Query}
    (h : d.build catalog = .ok q) :
    ∃ cube cs, catalog.cube? d.cube = some cube ∧ q = (Query.new d.name cube).afterAll cs := by
  obtain ⟨cube, hcube, hr⟩ := reaches_build h
  obtain ⟨cs, hcs⟩ := Query.afterAll_of_reaches hr
  exact ⟨cube, cs, hcube, hcs.symm⟩

end Definition

/-! ## Settings, parameters and measures -/

namespace Query

/-- The queries place and pick the same. -/
structure Likewise (q r : Query) : Prop where
  cube : r.cube = q.cube
  axes : r.axes = q.axes
  hierarchies : r.hierarchies = q.hierarchies

variable {q r t : Query}

theorem Likewise.refl (q : Query) : Likewise q q := ⟨rfl, rfl, rfl⟩

theorem Likewise.trans (h : Likewise q r) (h' : Likewise r t) : Likewise q t :=
  ⟨h'.cube.trans h.cube, h'.axes.trans h.axes, h'.hierarchies.trans h.hierarchies⟩

theorem likewise_bind (q : Query) (p : String × Option String) :
    Likewise q (Definition.bind q p) := by
  unfold Definition.bind
  split
  · exact ⟨rfl, rfl, rfl⟩
  · obtain ⟨ps, hps⟩ := q.declareParameter_rest p.1
    rw [hps]
    exact ⟨rfl, rfl, rfl⟩

theorem likewise_createCalculatedMeasure {name formula : String} {ps : Bindings String}
    {m : CalculatedMeasure} (h : q.createCalculatedMeasure name formula ps = .ok (r, m)) :
    Likewise q r := by
  obtain ⟨-, -, rfl⟩ := createCalculatedMeasure_eq_ok.1 h
  exact ⟨rfl, rfl, rfl⟩

theorem likewise_addMeasure {name : String} (h : q.addMeasure name = .ok r) : Likewise q r := by
  obtain ⟨m, -, h⟩ := bind_eq_ok.1 h
  cases h
  exact ⟨rfl, rfl, rfl⟩

theorem likewise_block {e : BlockEntry} (h : e.apply q = .ok r) : Likewise q r := by
  have placed : Likewise q { q with block := { q.block with axis := e.axis, side := e.side } } :=
    ⟨rfl, rfl, rfl⟩
  exact foldlM_keeps (fun _ _ _ hu h => hu.trans (likewise_addMeasure h)) placed h

end Query

namespace Definition

/-- Only the axes of a definition place and pick. -/
theorem axes_of_build {d : Definition} {catalog : Catalog} {q : Query}
    (h : d.build catalog = .ok q) :
    ∃ cube q₁ q₂ q₃ q₄, catalog.cube? d.cube = some cube ∧ (Query.new d.name cube).Likewise q₁ ∧
      d.columns.apply .columns q₁ = .ok q₂ ∧ d.rows.apply .rows q₂ = .ok q₃ ∧
      d.filter.apply .filter q₃ = .ok q₄ ∧ q₄.Likewise q := by
  obtain ⟨cube, mode, q₁, q₂, q₃, q₄, hcube, -, h₁, h₂, h₃, h₄, h⟩ := stages_of_build h
  have parameters : (Query.new d.name cube).Likewise
      (d.parameters.entries.foldl bind (d.start cube mode)) :=
    List.foldlRecOn _ bind (motive := (Query.new d.name cube).Likewise) ⟨rfl, rfl, rfl⟩
      fun u hu p _ => hu.trans (u.likewise_bind p)
  have measures : (Query.new d.name cube).Likewise q₁ := by
    refine foldlM_keeps (fun u m v hu hv => hu.trans ?_) parameters h₁
    obtain ⟨⟨w, m⟩, hw, hv⟩ := bind_eq_ok.1 hv
    cases hv
    exact Query.likewise_createCalculatedMeasure hw
  refine ⟨cube, q₁, q₂, q₃, q₄, hcube, measures, h₂, h₃, h₄, ?_⟩
  cases hb : d.block with
  | none =>
    rw [hb] at h
    cases h
    exact .refl _
  | some b =>
    rw [hb] at h
    exact Query.likewise_block h

end Definition
end CubeQuery
