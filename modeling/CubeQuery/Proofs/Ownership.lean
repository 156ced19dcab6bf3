import CubeQuery.Proofs.Declared

/-!
# Whose members a selection holds

Members come to the selection of a hierarchy by being included, by being excluded, as the ends of a
range, or as calculated members. Each of these ways checks the hierarchy for itself. A range checks
that of its start only and compares the levels of both ends. That is enough on a linked cube, where
the name of a level begins with the name of its hierarchy (`hierarchy_eq_of_level_eq`). So if
changes bring no other members than those of the cube, everything that a selection holds belongs to
its hierarchy (`Query.owning_afterAll`).
-/

namespace CubeQuery

open Identifier

/-! ## Levels tell their hierarchies -/

/-- A name below a written path tells the path. -/
theorem below_inj {a b x y : String} (ha : IsPathText a) (hb : IsPathText b)
    (h : below a x = below b y) : a = b := by
  obtain ⟨as, has, rfl⟩ := ha
  obtain ⟨bs, hbs, rfl⟩ := hb
  obtain ⟨a, as, rfl⟩ := List.exists_cons_of_ne_nil has
  obtain ⟨b, bs, rfl⟩ := List.exists_cons_of_ne_nil hbs
  rw [← uniqueName_concat, ← uniqueName_concat] at h
  rw [(List.append_inj' (uniqueName_inj (by simp) (by simp) h) rfl).1]

/-- The level of the member is named below its hierarchy. -/
def Member.Listed (m : Member) : Prop :=
  IsPathText m.hierarchy ∧ ∃ name, m.level = below m.hierarchy name

theorem listed_stored (m : StoredMeasure) : m.member.Listed := by
  refine ⟨isPathText_quote measuresName, "MeasuresLevel", ?_⟩
  have h := uniqueName_concat measuresName [] "MeasuresLevel"
  rwa [uniqueName_singleton] at h

namespace CubeEntry

variable (e : CubeEntry)

theorem listed : ∀ m ∈ e.link.members, m.Listed := by
  intro m hm
  rcases List.mem_append.1 hm with hm | hm
  · obtain ⟨measure, -, rfl⟩ := List.mem_map.1 hm
    exact listed_stored measure
  · obtain ⟨h, hh, hm⟩ := List.mem_flatMap.1 hm
    obtain ⟨l, hl, hm⟩ := List.mem_flatMap.1 hm
    obtain ⟨path, -, rfl⟩ := List.mem_map.1 hm
    refine ⟨?_, l.name, rfl⟩
    show IsPathText l.hierarchy
    rw [level_hierarchy hh hl]
    exact isPathText_nameIn h.dimension h.name

/-- Members of one level are members of one hierarchy. -/
theorem hierarchy_eq_of_level_eq {m m' : Member} (hm : m ∈ e.link.members)
    (hm' : m' ∈ e.link.members) (h : m.level = m'.level) : m.hierarchy = m'.hierarchy := by
  obtain ⟨hpath, name, hname⟩ := e.listed m hm
  obtain ⟨hpath', name', hname'⟩ := e.listed m' hm'
  exact below_inj hpath hpath' (by rw [← hname, h, hname'])

/-- The members of a hierarchy name it as theirs. -/
theorem mem_members_of_mem_hierarchy {h : Hierarchy} (hh : h ∈ e.link.hierarchies) {m : Member}
    (hm : m ∈ h.members) : m ∈ e.link.members ∧ m.hierarchy = h.uniqueName := by
  refine ⟨List.mem_append_right _ (List.mem_flatMap.2 ⟨h, hh, hm⟩), ?_⟩
  obtain ⟨l, hl, hm⟩ := List.mem_flatMap.1 hm
  obtain ⟨path, -, rfl⟩ := List.mem_map.1 hm
  exact level_hierarchy hh hl

end CubeEntry

/-! ## The members of a selection -/

/-- The members between which a range lies. -/
def LevelRange.ends : LevelRange → List Member
  | .members start stop => [start, stop]
  | .expressions .. => []

namespace LevelSelection

/-- The members picked on a level: included, excluded, or at the ends of its range. -/
def members (s : LevelSelection) : List Member :=
  s.included ++ s.excluded ++ s.range.toList.flatMap (·.ends)

theorem mem_members {s : LevelSelection} {m : Member} :
    m ∈ s.members ↔ m ∈ s.included ∨ m ∈ s.excluded ∨ ∃ r ∈ s.range, m ∈ r.ends := by
  simp [members]

theorem mem_members_pick {s : LevelSelection} {p : Pick} {m m' : Member}
    (h : m' ∈ (s.pick p m).members) : m' ∈ s.members ∨ m' = m := by
  rw [mem_members] at h ⊢
  cases p with
  | inclusion =>
    simp only [pick, add] at h
    split at h
    · exact .inl h
    · rcases h with h | h
      · rcases List.mem_append.1 h with h | h
        · exact .inl (.inl h)
        · exact .inr (List.mem_singleton.1 h)
      · exact .inl (.inr h)
  | exclusion =>
    rcases h with h | h | h
    · exact .inl (.inl (List.mem_filter.1 h).1)
    · simp only [pick, exclude] at h
      split at h
      · exact .inl (.inr (.inl h))
      · rcases List.mem_append.1 h with h | h
        · exact .inl (.inr (.inl h))
        · exact .inr (List.mem_singleton.1 h)
    · exact .inl (.inr (.inr h))

theorem mem_members_range {s : LevelSelection} {start stop m : Member}
    (h : m ∈ { s with range := some (.members start stop) }.members) :
    m ∈ s.members ∨ m = start ∨ m = stop := by
  rw [mem_members] at h ⊢
  rcases h with h | h | ⟨r, hr, h⟩
  · exact .inl (.inl h)
  · exact .inl (.inr (.inl h))
  · cases hr
    refine .inr ?_
    simpa [LevelRange.ends] using h

/-- What else is changed on a level brings no members to it. -/
theorem members_change_subset {s t : LevelSelection} {c : LevelChange} (h : s.change c = .ok t) :
    t.members ⊆ s.members := by
  intro m hm
  rw [mem_members] at hm ⊢
  cases c with
  | range start stop =>
    cases h
    rcases hm with hm | hm | ⟨r, hr, hm⟩
    · exact .inl hm
    · exact .inr (.inl hm)
    · cases hr
      cases hm
  | clearRange =>
    cases h
    rcases hm with hm | hm | ⟨r, hr, -⟩
    · exact .inl hm
    · exact .inr (.inl hm)
    · cases hr
  | shape c =>
    obtain ⟨shape, -, h⟩ := bind_eq_ok.1 h
    cases h
    exact hm
  | bind | unbind | parameterPick =>
    cases h
    exact hm

end LevelSelection

namespace HierarchySelection

/-- The members picked on all levels, in use or not. -/
def members (s : HierarchySelection) : List Member := s.levels.flatMap (·.members)

theorem members_activate (s : HierarchySelection) (i : Nat) :
    (s.activate i).members = s.members := by
  unfold activate
  split <;> rfl

theorem mem_members_modifyLevel {s : HierarchySelection} {i : Nat}
    {f : LevelSelection → LevelSelection} {m : Member} (h : m ∈ (s.modifyLevel i f).members) :
    m ∈ s.members ∨ ∃ l, s.levels[i]? = some l ∧ m ∈ (f l).members := by
  obtain ⟨l', hl', hm⟩ := List.mem_flatMap.1 h
  obtain ⟨j, hj⟩ := List.mem_iff_getElem?.1 hl'
  have hj : (s.levels.modify i f)[j]? = some l' := hj
  rw [List.getElem?_modify] at hj
  obtain ⟨l, hl, rfl⟩ := Option.map_eq_some_iff.1 hj
  split at hm
  · next hij => exact .inr ⟨l, hij ▸ hl, hm⟩
  · exact .inl (List.mem_flatMap.2 ⟨l, List.mem_of_getElem? hl, hm⟩)

/-- What a level is changed to brings only members that it had, or such as are told of. -/
theorem mem_members_activated {s : HierarchySelection} {i : Nat}
    {f : LevelSelection → LevelSelection} {Q : Member → Prop}
    (hf : ∀ l m, m ∈ (f l).members → m ∈ l.members ∨ Q m) {m : Member}
    (h : m ∈ ((s.activate i).modifyLevel i f).members) : m ∈ s.members ∨ Q m := by
  rcases mem_members_modifyLevel h with h | ⟨l, hl, h⟩
  · exact .inl (members_activate s i ▸ h)
  · refine (hf l m h).imp_left fun h => ?_
    rw [← members_activate s i]
    exact List.mem_flatMap.2 ⟨l, List.mem_of_getElem? hl, h⟩

theorem members_clear_subset (s : HierarchySelection) : s.clear.members ⊆ s.members := by
  refine clear_keeps (P := fun t => t.members ⊆ s.members) (List.Subset.refl _)
    (fun t i ht m hm => ?_) fun _ ht => ht
  rcases mem_members_modifyLevel hm with hm | ⟨l, -, hm⟩
  · exact ht hm
  · cases hm

end HierarchySelection

/-! ## Changes that take members from the cube -/

/-- The change brings no members but those of the cube. -/
def HierarchyChange.TakesFrom (cube : Cube) : HierarchyChange → Prop
  | .pick _ ms => ∀ m ∈ ms, m ∈ cube.members
  | .range start stop => start ∈ cube.members ∧ stop ∈ cube.members
  | _ => True

/-- The change brings no members but those of the cube. Members given by their names are looked up
there. -/
def Change.TakesFrom (cube : Cube) : Change → Prop
  | .hierarchy _ c => c.TakesFrom cube
  | _ => True

namespace HierarchySelection

/-- A member of the hierarchy has the name: one that the cube lists, or one calculated here. Stored
measures count as members of the hierarchy of the measures. -/
def Owns (cube : Cube) (s : HierarchySelection) (name : String) : Prop :=
  (∃ m ∈ cube.members, m.hierarchy = s.uniqueName ∧ m.uniqueName = name) ∨
    ∃ m ∈ s.calculated, m.hierarchy = s.uniqueName ∧ m.uniqueName = name

instance (cube : Cube) (s : HierarchySelection) (name : String) : Decidable (s.Owns cube name) :=
  inferInstanceAs (Decidable (_ ∨ _))

/-- The member is new, and it is one of the hierarchy: the cube lists it, or it stands for a
calculated member. -/
def Brings (cube : Cube) (t : HierarchySelection) (m : Member) : Prop :=
  (m ∈ cube.members ∧ m.hierarchy = t.uniqueName) ∨ ∃ m' ∈ t.calculated, m = m'.asMember

section
variable {cube : Cube} {s t : HierarchySelection}

theorem pickMember_members {p : Pick} {m : Member} (h : s.pickMember p m = .ok t) :
    m.hierarchy = s.uniqueName ∧ ∀ m' ∈ t.members, m' ∈ s.members ∨ m' = m := by
  obtain ⟨i, hi, rfl⟩ := pickMember_eq_ok.1 h
  refine ⟨(levelOfMember_eq_ok hi).1, fun m' hm' => ?_⟩
  exact mem_members_activated (fun _ _ => LevelSelection.mem_members_pick) hm'

theorem pickMembers_members {p : Pick} {ms : List Member} (hms : ∀ m ∈ ms, m ∈ cube.members)
    (h : s.pickMembers p ms = .ok t) : ∀ m ∈ t.members, m ∈ s.members ∨ Brings cube t m := by
  induction ms generalizing s with
  | nil =>
    cases h
    exact fun m hm => .inl hm
  | cons m ms ih =>
    obtain ⟨hm, hms⟩ := List.forall_mem_cons.1 hms
    rw [pickMembers, List.foldlM_cons] at h
    obtain ⟨u, hu, h⟩ := bind_eq_ok.1 h
    obtain ⟨hhierarchy, hmembers⟩ := pickMember_members hu
    have hground := (pickMember_ground hu).trans (pickMembers_ground h)
    intro m' hm'
    rcases ih hms h m' hm' with hm' | hm'
    · rcases hmembers m' hm' with hm' | rfl
      · exact .inl hm'
      · exact .inr (.inl ⟨hm, hhierarchy.trans (uniqueName_of_ground hground).symm⟩)
    · exact .inr hm'

/-- The end of a range lies on the hierarchy of its start, because it lies on the same level. -/
theorem includeRange_members {e : CubeEntry} {start stop : Member}
    (hstart : start ∈ e.link.members) (hstop : stop ∈ e.link.members)
    (h : s.includeRange start stop = .ok t) :
    ∀ m ∈ t.members, m ∈ s.members ∨ Brings e.link t m := by
  have hname := uniqueName_of_ground (includeRange_ground h)
  obtain ⟨hlevel, hhierarchy, i, -, rfl⟩ := includeRange_eq_ok.1 h
  have hstop' : stop.hierarchy = s.uniqueName := by
    rw [← e.hierarchy_eq_of_level_eq hstart hstop hlevel, hhierarchy]
  intro m hm
  rcases mem_members_activated (fun _ _ => LevelSelection.mem_members_range) hm with hm | rfl | rfl
  · exact .inl hm
  · exact .inr (.inl ⟨hstart, hhierarchy.trans hname.symm⟩)
  · exact .inr (.inl ⟨hstop, hstop'.trans hname.symm⟩)

theorem register_members {m : CalculatedMember} {i : Nat} (h : s.register m = .ok (t, i)) :
    t.members = s.members := by
  rcases register_eq_ok.1 h with ⟨-, ⟨-, rfl⟩ | ⟨-, -, rfl⟩⟩ <;> rfl

theorem includeCalculated_members {m : CalculatedMember} {onLevel : Bool}
    (h : s.includeCalculated m onLevel = .ok t) :
    ∀ m' ∈ t.members, m' ∈ s.members ∨ Brings cube t m' := by
  have hm := mem_of_includeCalculated h
  have h := includeCalculated_eq_ok.1 h
  split at h
  · obtain ⟨i, -, u, j, hu, rfl⟩ := h
    intro m' hm'
    rw [← register_members hu]
    rcases mem_members_activated (f := (·.pick .inclusion m.asMember))
      (fun _ _ => LevelSelection.mem_members_pick) hm' with hm' | rfl
    · exact .inl hm'
    · exact .inr (.inr ⟨m, hm, rfl⟩)
  · obtain ⟨u, j, hu, rfl⟩ := h
    intro m' hm'
    rw [← register_members hu]
    split at hm' <;> exact .inl hm'

/-- A change brings only members of the hierarchy, if it takes them from the cube. -/
theorem change_members {e : CubeEntry} {c : HierarchyChange} (hc : c.TakesFrom e.link)
    (h : s.change c = .ok t) : ∀ m ∈ t.members, m ∈ s.members ∨ Brings e.link t m := by
  have kept : t.members ⊆ s.members → ∀ m ∈ t.members, m ∈ s.members ∨ Brings e.link t m :=
    fun hsub m hm => .inl (hsub hm)
  cases c with
  | includeLevel name =>
    obtain ⟨i, -, rfl⟩ := includeLevel_eq_ok.1 h
    exact kept (by rw [members_activate]; exact List.Subset.refl _)
  | excludeLevel name =>
    obtain ⟨i, -, rfl⟩ := excludeLevel_eq_ok.1 h
    exact kept (List.Subset.refl _)
  | clear =>
    cases h
    exact kept (members_clear_subset s)
  | level name c =>
    obtain ⟨i, -, levels, hl, rfl⟩ := updateLevel_eq_ok.1 h
    rcases changeAt_eq_ok.1 hl with ⟨-, rfl⟩ | ⟨l, l', hget, hl', rfl⟩
    · exact kept (List.Subset.refl _)
    · refine kept fun m hm => ?_
      obtain ⟨l'', hmem, hm'⟩ := List.mem_flatMap.1 hm
      rcases List.mem_or_eq_of_mem_set hmem with hmem | rfl
      · exact List.mem_flatMap.2 ⟨l'', hmem, hm'⟩
      · exact List.mem_flatMap.2
          ⟨l, List.mem_of_getElem? hget, LevelSelection.members_change_subset hl' hm'⟩
  | pick p ms => exact pickMembers_members hc h
  | range start stop => exact includeRange_members hc.1 hc.2 h
  | includeCalculated m onLevel => exact includeCalculated_members h
  | excludeCalculated uniqueName =>
    cases h
    refine kept ?_
    unfold excludeCalculated
    split <;> exact List.Subset.refl _
  | order c =>
    obtain ⟨shape, -, h⟩ := bind_eq_ok.1 h
    cases h
    exact kept (List.Subset.refl _)
  | consistent | visualTotals | visualPattern =>
    cases h
    exact kept (List.Subset.refl _)

end

/-! ## The invariant -/

/-- All that is calculated or picked here belongs to the hierarchy. -/
structure Own (cube : Cube) (s : HierarchySelection) : Prop where
  calculated : ∀ m ∈ s.calculated, m.hierarchy = s.uniqueName
  picked : ∀ m ∈ s.members, s.Owns cube m.uniqueName

theorem own_new (cube : Cube) (h : Hierarchy) : (new h).Own cube := by
  refine ⟨List.forall_mem_nil _, fun m hm => ?_⟩
  obtain ⟨l, hl, hm⟩ := List.mem_flatMap.1 hm
  obtain ⟨l, -, rfl⟩ := List.mem_map.1 hl
  cases hm

/-- Only members of the hierarchy are registered. -/
theorem Write.calculated_own {s t : HierarchySelection} (h : s.Write t)
    (hs : ∀ m ∈ s.calculated, m.hierarchy = s.uniqueName) :
    ∀ m ∈ t.calculated, m.hierarchy = t.uniqueName := by
  have hname : t.uniqueName = s.uniqueName := congrArg Hierarchy.uniqueName h.ground.1
  rw [hname]
  cases h with
  | activate i =>
    rw [activate_calculated]
    exact hs
  | register m i h =>
    rcases register_eq_ok.1 h with ⟨hm, ⟨-, rfl⟩ | ⟨-, -, rfl⟩⟩
    · intro m' hm'
      rcases List.mem_or_eq_of_mem_set hm' with hm' | rfl
      · exact hs m' hm'
      · exact hm
    · exact List.forall_mem_append.2 ⟨hs, List.forall_mem_singleton.2 hm⟩
  | level | retire | use | drop => exact hs
  | setting hh hl ha hc =>
    rw [hc]
    exact hs

theorem Writes.calculated_own {s t : HierarchySelection} (h : Writes s t)
    (hs : ∀ m ∈ s.calculated, m.hierarchy = s.uniqueName) :
    ∀ m ∈ t.calculated, m.hierarchy = t.uniqueName := by
  induction h with
  | refl => exact hs
  | tail _ hstep ih => exact hstep.calculated_own ih

namespace Own

variable {cube : Cube} {s t : HierarchySelection}

/-- A calculated member may be replaced, but its name stays with the hierarchy. -/
theorem owns_of_writes (hs : s.Own cube) (h : Writes s t) {name : String} (hn : s.Owns cube name) :
    t.Owns cube name := by
  have hname : t.uniqueName = s.uniqueName := by
    induction h with
    | refl => rfl
    | tail _ hstep ih => exact (congrArg Hierarchy.uniqueName hstep.ground.1).trans ih
  rcases hn with ⟨m, hm, hhierarchy, hn⟩ | ⟨m, hm, -, hn⟩
  · exact .inl ⟨m, hm, hhierarchy.trans hname.symm, hn⟩
  · obtain ⟨m', hm', hn'⟩ := List.mem_map.1
      (h.names_subset (List.mem_map_of_mem (f := (·.uniqueName)) hm))
    exact .inr ⟨m', hm', h.calculated_own hs.calculated m' hm', hn'.trans hn⟩

theorem of_writes (hs : s.Own cube) (h : Writes s t)
    (hm : ∀ m ∈ t.members, m ∈ s.members ∨ Brings cube t m) : t.Own cube := by
  have hcalculated := h.calculated_own hs.calculated
  refine ⟨hcalculated, fun m hmem => ?_⟩
  rcases hm m hmem with hold | ⟨hlisted, hhierarchy⟩ | ⟨m', hm', rfl⟩
  · exact hs.owns_of_writes h (hs.picked m hold)
  · exact .inl ⟨m, hlisted, hhierarchy, rfl⟩
  · exact .inr ⟨m', hm', hcalculated m' hm', rfl⟩

theorem change {e : CubeEntry} (hs : s.Own e.link) {c : HierarchyChange} (hc : c.TakesFrom e.link)
    (h : s.change c = .ok t) : t.Own e.link :=
  hs.of_writes (change_writes h) (change_members hc h)

theorem register (hs : s.Own cube) {m : CalculatedMember} {i : Nat}
    (h : s.register m = .ok (t, i)) : t.Own cube :=
  hs.of_writes (.single (.register m i h)) fun _ hm => .inl (register_members h ▸ hm)

theorem relocated (hs : s.Own cube) (l : Location) : { s with location := l }.Own cube :=
  ⟨hs.calculated, hs.picked⟩

end Own
end HierarchySelection

/-! ## Queries -/

namespace Query

open HierarchySelection (Own)

/-- On a linked cube everything in the selections belongs to their hierarchies. -/
structure Owning (e : CubeEntry) (q : Query) : Prop where
  cube : q.cube = e.link
  own : ∀ s ∈ q.hierarchies, s.Own e.link

theorem owning_new (name : String) (e : CubeEntry) : (new name e.link).Owning e := by
  refine ⟨rfl, fun s hs => ?_⟩
  obtain ⟨h, -, rfl⟩ := List.mem_map.1 hs
  exact HierarchySelection.own_new e.link h

theorem Owning.change {e : CubeEntry} {q r : Query} (hq : q.Owning e) {c : Change}
    (hc : c.TakesFrom e.link) (h : q.change c = .ok r) : r.Owning e := by
  have hasked : ∀ c', q.Asks c c' → c'.TakesFrom e.link := by
    rw [← hq.cube] at hc ⊢
    intro c' hc'
    cases hc' with
    | hierarchy => exact hc
    | pick p hierarchy hm => exact List.forall_mem_singleton.2 (mem_of_lookupMember hm)
    | range hierarchy hfirst hlast =>
      exact ⟨mem_of_lookupMember hfirst, mem_of_lookupMember hlast⟩
  exact ⟨(change_cube h).trans hq.cube, change_keeps (fun _ l hs => hs.relocated l)
    (fun c' hc' _ _ hs hst => hs.change (hasked c' hc') hst)
    (fun _ _ _ _ _ hs hst => hs.register hst) h hq.own⟩

/-- Whatever else is changed: as long as members come from the cube, everything that the selections
hold belongs to their hierarchies. -/
theorem owning_afterAll (name : String) (e : CubeEntry) {cs : List Change}
    (hcs : ∀ c ∈ cs, c.TakesFrom e.link) : ((new name e.link).afterAll cs).Owning e :=
  afterAll_keeps_of (fun _ _ _ hc hq h => hq.change hc h) (owning_new name e) hcs

end Query
end CubeQuery
