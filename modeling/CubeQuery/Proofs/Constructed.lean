import CubeQuery.Proofs.Placed
import CubeQuery.Proofs.UniqueNames
import CubeQuery.Proofs.Writes

/-!
# Queries made of a catalog

The calculated members that a query registers come from the changes made to it. If the constructors
made those that the changes bring (`Change.FromCatalog`), they made all that the query registers. A
definition brings only such members: it looks up every parent in its cube
(`Definition.build_fromCatalog`).
-/

namespace CubeQuery

/-- The change brings no calculated member but one that the constructors made. -/
def HierarchyChange.FromCatalog : HierarchyChange → Prop
  | .includeCalculated m _ => m.Constructed
  | _ => True

/-- The change brings no calculated member but one that the constructors made, and gives a new one
no parent but a member of a catalog. -/
def Change.FromCatalog : Change → Prop
  | .hierarchy _ c => c.FromCatalog
  | .addCalculatedMember m => m.Constructed
  | .createCalculatedMember _ _ _ _ (some p) => ∃ e : CubeEntry, p ∈ e.link.members
  | _ => True

/-! ## Hierarchies -/

namespace HierarchySelection

/-- No calculated member is registered but constructed ones. -/
def Registers (s t : HierarchySelection) : Prop :=
  ∀ m ∈ t.calculated, m ∈ s.calculated ∨ m.Constructed

theorem registers_of_eq {s t : HierarchySelection} (h : t.calculated = s.calculated) :
    Registers s t := fun _ hm => .inl (h ▸ hm)

theorem activate_calculated (s : HierarchySelection) (i : Nat) :
    (s.activate i).calculated = s.calculated := by
  unfold activate
  split <;> rfl

theorem clear_calculated (s : HierarchySelection) : s.clear.calculated = s.calculated :=
  clear_keeps (P := fun t => t.calculated = s.calculated) rfl (fun _ _ h => h) fun _ h => h

theorem pickMember_calculated {s t : HierarchySelection} {p : Pick} {m : Member}
    (h : s.pickMember p m = .ok t) : t.calculated = s.calculated := by
  obtain ⟨i, -, rfl⟩ := pickMember_eq_ok.1 h
  exact activate_calculated s i

theorem includeRange_calculated {s t : HierarchySelection} {start stop : Member}
    (h : s.includeRange start stop = .ok t) : t.calculated = s.calculated := by
  obtain ⟨-, -, i, -, rfl⟩ := includeRange_eq_ok.1 h
  exact activate_calculated s i

theorem updateLevel_calculated {s t : HierarchySelection} {name : String}
    {f : LevelSelection → Except Rejection LevelSelection} (h : s.updateLevel name f = .ok t) :
    t.calculated = s.calculated := by
  obtain ⟨i, -, levels, -, rfl⟩ := updateLevel_eq_ok.1 h
  rfl

/-- Registering takes up nothing but the member registered. -/
theorem mem_calculated_register {s t : HierarchySelection} {m m' : CalculatedMember} {i : Nat}
    (h : s.register m = .ok (t, i)) (hm' : m' ∈ t.calculated) : m' ∈ s.calculated ∨ m' = m := by
  rcases register_eq_ok.1 h with ⟨-, ⟨-, rfl⟩ | ⟨-, -, rfl⟩⟩
  · exact List.mem_or_eq_of_mem_set hm'
  · exact (List.mem_append.1 hm').imp_right List.mem_singleton.1

theorem register_registers {s t : HierarchySelection} {m : CalculatedMember} {i : Nat}
    (hm : m.Constructed) (h : s.register m = .ok (t, i)) : Registers s t := by
  intro m' hm'
  rcases mem_calculated_register h hm' with hold | rfl
  · exact .inl hold
  · exact .inr hm

/-- A calculated member comes into use by being registered. -/
theorem includeCalculated_calculated {s t : HierarchySelection} {m : CalculatedMember}
    {onLevel : Bool} (h : s.includeCalculated m onLevel = .ok t) :
    ∃ u k, s.register m = .ok (u, k) ∧ t.calculated = u.calculated := by
  have h := includeCalculated_eq_ok.1 h
  split at h
  · obtain ⟨level, -, u, k, hu, rfl⟩ := h
    exact ⟨u, k, hu, activate_calculated u level⟩
  · obtain ⟨u, k, hu, rfl⟩ := h
    refine ⟨u, k, hu, ?_⟩
    split <;> rfl

/-- No other change registers anything. -/
theorem change_calculated {s t : HierarchySelection} {c : HierarchyChange}
    (h : s.change c = .ok t) :
    t.calculated = s.calculated ∨ ∃ m onLevel, c = .includeCalculated m onLevel := by
  cases c with
  | includeLevel name =>
    obtain ⟨i, -, rfl⟩ := includeLevel_eq_ok.1 h
    exact .inl (activate_calculated s i)
  | excludeLevel name =>
    obtain ⟨i, -, rfl⟩ := excludeLevel_eq_ok.1 h
    exact .inl rfl
  | clear =>
    cases h
    exact .inl (clear_calculated s)
  | level name c => exact .inl (updateLevel_calculated h)
  | pick p ms =>
    exact .inl (foldlM_keeps (P := fun u => u.calculated = s.calculated)
      (fun _ _ _ hs h => (pickMember_calculated h).trans hs) rfl h)
  | range start stop => exact .inl (includeRange_calculated h)
  | includeCalculated m onLevel => exact .inr ⟨m, onLevel, rfl⟩
  | excludeCalculated uniqueName =>
    cases h
    unfold excludeCalculated
    split <;> exact .inl rfl
  | order c =>
    obtain ⟨shape, -, h⟩ := bind_eq_ok.1 h
    cases h
    exact .inl rfl
  | consistent | visualTotals | visualPattern =>
    cases h
    exact .inl rfl

theorem change_registers {s t : HierarchySelection} {c : HierarchyChange} (hc : c.FromCatalog)
    (h : s.change c = .ok t) : Registers s t := by
  rcases change_calculated h with hsame | ⟨m, onLevel, rfl⟩
  · exact registers_of_eq hsame
  · obtain ⟨u, k, hu, hcalculated⟩ := includeCalculated_calculated h
    intro m' hm'
    exact register_registers hc hu m' (hcalculated ▸ hm')

end HierarchySelection

/-! ## Queries -/

namespace Query

/-- A query on a linked cube whose calculated members were made by the constructors, below members
of catalogs only. -/
structure FromCatalog (q : Query) : Prop where
  cube : ∃ e : CubeEntry, q.cube = e.link
  members : ∀ m ∈ q.calculatedMembers, m.Constructed

theorem fromCatalog_new (name : String) (e : CubeEntry) : (new name e.link).FromCatalog := by
  refine ⟨⟨e, rfl⟩, fun m hm => ?_⟩
  obtain ⟨s, hs, hm⟩ := List.mem_flatMap.1 hm
  obtain ⟨h, -, rfl⟩ := List.mem_map.1 hs
  cases hm

namespace FromCatalog

variable {q r : Query} (hq : q.FromCatalog)

include hq

theorem of_members (hc : r.cube = q.cube) (hm : r.calculatedMembers = q.calculatedMembers) :
    r.FromCatalog :=
  ⟨hc ▸ hq.cube, hm ▸ hq.members⟩

theorem of_rest (hc : r.cube = q.cube) (hh : r.hierarchies = q.hierarchies) : r.FromCatalog :=
  hq.of_members hc (by rw [calculatedMembers, hh, calculatedMembers])

theorem of_changeAt {f : HierarchySelection → Except Rejection HierarchySelection}
    (hf : ∀ s t, f s = .ok t → HierarchySelection.Registers s t) {i : Nat}
    {hs : List HierarchySelection} (h : changeAt f q.hierarchies i = .ok hs) :
    { q with hierarchies := hs }.FromCatalog := by
  refine ⟨hq.cube, fun m hmem => ?_⟩
  obtain ⟨t, ht, hm⟩ := List.mem_flatMap.1 hmem
  have hold : ∀ s ∈ q.hierarchies, ∀ m ∈ s.calculated, m.Constructed := fun s hs m hm =>
    hq.members m (List.mem_flatMap.2 ⟨s, hs, hm⟩)
  rcases changeAt_eq_ok.1 h with ⟨-, rfl⟩ | ⟨s, u, hs, hu, rfl⟩
  · exact hold t ht m hm
  · rcases List.mem_or_eq_of_mem_set ht with ht | rfl
    · exact hold t ht m hm
    · exact (hf s t hu m hm).elim (hold s (List.mem_of_getElem? hs) m) id

theorem update {name : String} {f : HierarchySelection → Except Rejection HierarchySelection}
    (hf : ∀ s t, f s = .ok t → HierarchySelection.Registers s t)
    (h : q.update name f = .ok r) : r.FromCatalog := by
  obtain ⟨i, -, hs, hh, rfl⟩ := update_eq_ok.1 h
  exact hq.of_changeAt hf hh

theorem addCalculatedMember {m : CalculatedMember} (hm : m.Constructed)
    (h : q.addCalculatedMember m = .ok r) : r.FromCatalog := by
  obtain ⟨i, -, -, hs, hh, rfl⟩ := addCalculatedMember_eq_ok.1 h
  refine hq.of_changeAt (fun s t hst => ?_) hh
  obtain ⟨⟨u, j⟩, hu, hst⟩ := bind_eq_ok.1 hst
  cases hst
  exact HierarchySelection.register_registers hm hu

theorem change {c : Change} (hc : c.FromCatalog) (h : q.change c = .ok r) : r.FromCatalog := by
  have hmade : ∀ m, q.Defines c m → m.Constructed := by
    intro m hm
    cases hm with
    | add => exact hc
    | @create _ s _ name formula properties parent =>
      have hnew := (CalculatedMember.Constructed.new s.hierarchy name formula).withProperties
        properties
      cases parent with
      | none => exact hnew
      | some p =>
        obtain ⟨e, hp⟩ := hc
        exact hnew.withParent e hp
  have hasked : ∀ c', q.Asks c c' → c'.FromCatalog := by
    intro c' hc'
    cases hc' with
    | hierarchy => exact hc
    | pick | range => trivial
  have hselections : ∀ s ∈ r.hierarchies, ∀ m ∈ s.calculated, m.Constructed := by
    refine change_keeps (P := fun s => ∀ m ∈ s.calculated, m.Constructed) (fun _ _ hs => hs)
      (fun c' hc' s t hs hst m hm => ?_) (fun m hm s t i hs hst m' hm' => ?_) h
      fun s hs m hm => hq.members m (List.mem_flatMap.2 ⟨s, hs, hm⟩)
    · exact (HierarchySelection.change_registers (hasked c' hc') hst m hm).elim (hs m) id
    · exact (HierarchySelection.register_registers (hmade m hm) hst m' hm').elim (hs m') id
  obtain ⟨e, he⟩ := hq.cube
  refine ⟨⟨e, (change_cube h).trans he⟩, fun m hm => ?_⟩
  obtain ⟨s, hs, hm⟩ := List.mem_flatMap.1 hm
  exact hselections s hs m hm

theorem afterAll {cs : List Change} (hcs : ∀ c ∈ cs, c.FromCatalog) :
    (q.afterAll cs).FromCatalog :=
  afterAll_keeps_of (fun _ _ _ hc hq h => hq.change hc h) hq hcs

end FromCatalog
end Query

/-! ## Building -/

theorem HierarchyChoice.settings_calculated (e : HierarchyChoice) (s : HierarchySelection) :
    (e.settings s).calculated = s.calculated := by
  unfold settings
  cases e.visualPattern <;> split <;> rfl

section
variable {q r : Query} (hq : q.FromCatalog)

include hq

theorem LevelChoice.apply_fromCatalog {e : LevelChoice} {hierarchy : String}
    (h : e.apply hierarchy q = .ok r) : r.FromCatalog := by
  obtain ⟨q', hq', h⟩ := bind_eq_ok.1 h
  have hincluded : q'.FromCatalog := by
    refine hq.update (fun s t hst => ?_) hq'
    exact HierarchySelection.change_registers (c := .includeLevel e.name) trivial hst
  split at h
  · cases h
    exact hincluded
  · exact hincluded.update (fun _ _ hst => HierarchySelection.registers_of_eq
      (HierarchySelection.updateLevel_calculated hst)) h

theorem Query.FromCatalog.lookupMember {name : String} {m : Member}
    (h : q.lookupMember name = .ok m) : ∃ e : CubeEntry, m ∈ e.link.members := by
  obtain ⟨e, he⟩ := hq.cube
  exact ⟨e, he ▸ Query.mem_of_lookupMember h⟩

/-- The parent of a defined member is looked up in the cube of the query. -/
theorem CalculatedEntry.apply_fromCatalog {e : CalculatedEntry} {hierarchy : String}
    (h : e.apply hierarchy q = .ok r) : r.FromCatalog := by
  obtain ⟨parent, hparent, h⟩ := bind_eq_ok.1 h
  split at h
  · cases h
  · next s hs =>
    obtain ⟨q', hq', h⟩ := bind_eq_ok.1 h
    refine (hq.addCalculatedMember ?made hq').update (fun _ _ hst =>
      HierarchySelection.change_registers (c := .includeCalculated _ _) ?made hst) h
    have hnew := (CalculatedMember.Constructed.new s.hierarchy e.name e.formula).withProperties
      e.properties
    rcases mapM_eq_ok.1 hparent with ⟨-, rfl⟩ | ⟨name, p, -, hp, rfl⟩
    · dsimp only
      split
      · exact hnew.withLevel s.hierarchy _
      · exact hnew
    · obtain ⟨entry, hp⟩ := hq.lookupMember hp
      refine .withParent ?_ entry hp
      split
      · exact hnew.withLevel s.hierarchy _
      · exact hnew

theorem HierarchyChoice.apply_fromCatalog {e : HierarchyChoice} (h : e.apply q = .ok r) :
    r.FromCatalog := by
  obtain ⟨s, hs⟩ := hierarchy?_of_apply h
  refine apply_keeps hs ?_ hq h
  constructor
  case level => exact fun _ _ _ hu h => LevelChoice.apply_fromCatalog hu h
  case pick => exact fun p m _ _ hu h => hu.change (c := .pickMember p s.uniqueName m) trivial h
  case range =>
    exact fun start stop _ _ hu h => hu.change (c := .range s.uniqueName start stop) trivial h
  case calculated => exact fun _ _ _ hu h => CalculatedEntry.apply_fromCatalog hu h
  case settings =>
    refine fun u v hu h => hu.update (fun s t hst => HierarchySelection.registers_of_eq ?_) h
    obtain ⟨shape, -, hst⟩ := bind_eq_ok.1 hst
    cases hst
    exact e.settings_calculated s

theorem AxisEntry.apply_fromCatalog {e : AxisEntry} {l : Location} (h : e.apply l q = .ok r) :
    r.FromCatalog := by
  obtain ⟨q', hq', h⟩ := bind_eq_ok.1 h
  obtain ⟨shape, -, h⟩ := bind_eq_ok.1 h
  cases h
  have hierarchies : q'.FromCatalog := by
    refine foldlM_keeps (fun u c t hu hut => ?_) hq hq'
    obtain ⟨u', hmove, hut⟩ := bind_eq_ok.1 hut
    exact HierarchyChoice.apply_fromCatalog (hu.change (c := .move c.name l none) trivial hmove) hut
  exact hierarchies.of_rest rfl rfl

end

/-- A query that a definition builds on a catalog is made of the catalog. -/
theorem Definition.build_fromCatalog {d : Definition} {entries : List CubeEntry} {q : Query}
    (h : d.build (Catalog.ofEntries entries) = .ok q) : q.FromCatalog := by
  obtain ⟨cube, q₁, q₂, q₃, q₄, hcube, measures, h₂, h₃, h₄, block⟩ := axes_of_build h
  obtain ⟨e, -, rfl⟩ := List.mem_map.1 (List.mem_of_find?_eq_some hcube)
  have hq₁ : q₁.FromCatalog :=
    (Query.fromCatalog_new d.name e).of_rest measures.cube measures.hierarchies
  have hq₄ : q₄.FromCatalog := AxisEntry.apply_fromCatalog
    (AxisEntry.apply_fromCatalog (AxisEntry.apply_fromCatalog hq₁ h₂) h₃) h₄
  exact hq₄.of_rest block.cube block.hierarchies

end CubeQuery
