import CubeQuery.Proofs.Runs

/-!
# What changes write

Whatever a change asks for, what it does to the selection of a hierarchy is a chain of a few kinds
of writes, each made under what the change has checked by then (`Evolves.writes`). What every write
keeps, all selections of a query keep, whatever is done to the query (`Query.keeps_writes`): an
invariant of selections takes one case for each kind of write and none for the changes.
-/

namespace CubeQuery

open Relation

/-- A write to what is picked on a level of the named hierarchy. -/
inductive LevelSelection.Write (hierarchy : String) (l : LevelSelection) :
    LevelSelection → Prop where
  /-- A member of the level is picked. -/
  | pick (p : Pick) (m : Member) (hh : m.hierarchy = hierarchy)
      (hl : m.level = l.level.uniqueName) : Write hierarchy l (l.pick p m)
  | clear : Write hierarchy l l.clear
  /-- The picked members stay. -/
  | setting {l' : LevelSelection} (hl : l'.level = l.level) (hi : l'.included = l.included)
      (he : l'.excluded = l.excluded) : Write hierarchy l l'

theorem LevelSelection.Write.level_eq {hierarchy : String} {l l' : LevelSelection}
    (h : l.Write hierarchy l') : l'.level = l.level := by
  cases h with
  | pick p m => exact l.pick_level p m
  | clear => rfl
  | setting hl => exact hl

theorem LevelSelection.change_write {l l' : LevelSelection} {c : LevelChange}
    (h : l.change c = .ok l') (hierarchy : String) : l.Write hierarchy l' := by
  cases c with
  | shape c =>
    obtain ⟨shape, -, h⟩ := bind_eq_ok.1 h
    cases h
    exact .setting rfl rfl rfl
  | range | clearRange | bind | unbind | parameterPick => cases h; exact .setting rfl rfl rfl

namespace HierarchySelection

/-- A write to what is picked of a hierarchy. -/
inductive Write (s : HierarchySelection) : HierarchySelection → Prop where
  | activate (i : Nat) (hi : i < s.levels.length) : Write s (s.activate i)
  /-- Levels go out of use. -/
  | retire (is : List Nat) (h : is.Sublist s.active) : Write s { s with active := is }
  | level (i : Nat) (f : LevelSelection → LevelSelection)
      (hf : ∀ l, s.levels[i]? = some l → l.Write s.uniqueName (f l)) : Write s (s.modifyLevel i f)
  | register (m : CalculatedMember) (i : Nat) {t : HierarchySelection}
      (h : s.register m = .ok (t, i)) : Write s t
  /-- A calculated member comes into use ahead of the levels. -/
  | use (i : Nat) (hi : i < s.calculated.length) (hn : i ∉ s.activeCalculated) :
      Write s { s with activeCalculated := s.activeCalculated ++ [i] }
  /-- Calculated members go out of use. -/
  | drop (is : List Nat) (h : is.Sublist s.activeCalculated) :
      Write s { s with activeCalculated := is }
  /-- Levels and calculated members stay. -/
  | setting {t : HierarchySelection} (hh : t.hierarchy = s.hierarchy) (hl : t.levels = s.levels)
      (ha : t.active = s.active) (hc : t.calculated = s.calculated)
      (hu : t.activeCalculated = s.activeCalculated) : Write s t

/-- A chain of writes. -/
abbrev Writes : HierarchySelection → HierarchySelection → Prop := ReflTransGen Write

/-! ## What the checks establish -/

theorem lt_of_levelIndex {s : HierarchySelection} {name : String} {i : Nat}
    (h : s.levelIndex name = .ok i) : i < s.levels.length := by
  unfold levelIndex at h
  split at h
  · next j hj =>
    cases h
    exact (List.findIdx?_eq_some_iff_getElem.1 hj).1
  · cases h

/-- The level found for a unique name bears it. -/
theorem levelIndexOf_eq_ok {s : HierarchySelection} {uniqueName : String} {i : Nat}
    (h : s.levelIndexOf uniqueName = .ok i) :
    ∃ l, s.levels[i]? = some l ∧ l.level.uniqueName = uniqueName := by
  unfold levelIndexOf at h
  split at h
  · next j hj =>
    cases h
    obtain ⟨hi, hname, -⟩ := List.findIdx?_eq_some_iff_getElem.1 hj
    exact ⟨s.levels[i], List.getElem?_eq_getElem hi, of_decide_eq_true hname⟩
  · cases h

/-- A unique name is found among the levels exactly if one of them bears it. -/
theorem exists_levelIndexOf_iff {s : HierarchySelection} {uniqueName : String} :
    (∃ i, s.levelIndexOf uniqueName = .ok i) ↔
      ∃ l ∈ s.levels, l.level.uniqueName = uniqueName := by
  constructor
  · rintro ⟨i, hi⟩
    obtain ⟨l, hl, hname⟩ := levelIndexOf_eq_ok hi
    exact ⟨l, List.mem_of_getElem? hl, hname⟩
  · rintro ⟨l, hl, hname⟩
    unfold levelIndexOf
    cases h : s.levels.findIdx? (·.level.uniqueName = uniqueName) with
    | some i => exact ⟨i, rfl⟩
    | none => simpa [hname] using List.findIdx?_eq_none_iff.1 h l hl

theorem levelOfMember_eq_ok {s : HierarchySelection} {p : Pick} {m : Member} {i : Nat}
    (h : s.levelOfMember p m = .ok i) :
    m.hierarchy = s.uniqueName ∧ s.levelIndexOf m.level = .ok i := by
  unfold levelOfMember at h
  split at h
  · cases h
  · next hm => exact ⟨Decidable.not_not.1 hm, h⟩

theorem register_uniqueName {s t : HierarchySelection} {m : CalculatedMember} {i : Nat}
    (h : s.register m = .ok (t, i)) : m.hierarchy = t.uniqueName := by
  rw [uniqueName_of_ground (register_ground h)]
  exact (register_eq_ok.1 h).1

theorem register_lt {s t : HierarchySelection} {m : CalculatedMember} {i : Nat}
    (h : s.register m = .ok (t, i)) : i < t.calculated.length := by
  rcases register_eq_ok.1 h with ⟨-, ⟨hi, rfl⟩ | ⟨-, rfl, rfl⟩⟩
  · rw [List.length_set]
    exact (List.findIdx?_eq_some_iff_getElem.1 hi).1
  · simp

/-! ## Chains -/

/-- A level comes into use, and something is written to it. -/
theorem writes_activated {s : HierarchySelection} {i : Nat} {l : LevelSelection}
    {f : LevelSelection → LevelSelection} (hl : s.levels[i]? = some l)
    (hf : l.Write s.uniqueName (f l)) : Writes s ((s.activate i).modifyLevel i f) := by
  have hname := uniqueName_of_ground (activate_ground s i)
  refine .tail (.single (.activate i (List.getElem?_eq_some_iff.1 hl).1)) (.level i f ?_)
  intro l' hl'
  rw [activate_levels, hl] at hl'
  cases hl'
  rwa [hname]

theorem writes_pickMember {s t : HierarchySelection} {p : Pick} {m : Member}
    (h : s.pickMember p m = .ok t) : Writes s t := by
  obtain ⟨i, hi, rfl⟩ := pickMember_eq_ok.1 h
  obtain ⟨hm, hi⟩ := levelOfMember_eq_ok hi
  obtain ⟨l, hl, hname⟩ := levelIndexOf_eq_ok hi
  exact writes_activated hl (.pick p m hm hname.symm)

theorem writes_clear (s : HierarchySelection) : Writes s s.clear :=
  clear_keeps .refl (fun _ i h => h.tail (.level i _ fun _ _ => .clear))
    fun _ h => h.tail (.retire [] (List.nil_sublist _))

theorem writes_includeCalculated {s t : HierarchySelection} {m : CalculatedMember}
    {onLevel : Bool} (h : s.includeCalculated m onLevel = .ok t) : Writes s t := by
  have h := includeCalculated_eq_ok.1 h
  split at h
  · obtain ⟨i, hi, u, j, hu, rfl⟩ := h
    rw [← (register_ground hu).levelIndexOf_eq] at hi
    obtain ⟨l, hl, hname⟩ := levelIndexOf_eq_ok hi
    exact .head (.register m j hu)
      (writes_activated hl (.pick .inclusion m.asMember (register_uniqueName hu) hname.symm))
  · obtain ⟨u, j, hu, rfl⟩ := h
    refine .head (.register m j hu) ?_
    split
    · exact .refl
    · next hj => exact .single (.use j (register_lt hu) hj)

/-- A change is a chain of writes. -/
theorem change_writes {s t : HierarchySelection} {c : HierarchyChange}
    (h : s.change c = .ok t) : Writes s t := by
  cases c with
  | includeLevel name =>
    obtain ⟨i, hi, rfl⟩ := includeLevel_eq_ok.1 h
    exact .single (.activate i (lt_of_levelIndex hi))
  | excludeLevel name =>
    obtain ⟨i, -, rfl⟩ := excludeLevel_eq_ok.1 h
    exact .single (.retire _ List.filter_sublist)
  | clear =>
    cases h
    exact writes_clear s
  | level name c =>
    obtain ⟨i, -, levels, hl, rfl⟩ := updateLevel_eq_ok.1 h
    rcases changeAt_eq_ok.1 hl with ⟨-, rfl⟩ | ⟨l, l', hget, hl', rfl⟩
    · exact .refl
    · rw [List.set_eq_modify]
      refine .single (.level i (fun _ => l') fun k hk => ?_)
      rw [hget] at hk
      cases hk
      exact LevelSelection.change_write hl' _
  | pick p ms => exact foldlM_keeps (fun _ _ _ hs h => hs.trans (writes_pickMember h)) .refl h
  | range start stop =>
    obtain ⟨-, -, i, hi, rfl⟩ := includeRange_eq_ok.1 h
    obtain ⟨l, hl, -⟩ := levelIndexOf_eq_ok hi
    exact writes_activated hl (.setting rfl rfl rfl)
  | includeCalculated m onLevel => exact writes_includeCalculated h
  | excludeCalculated uniqueName =>
    cases h
    unfold excludeCalculated
    split
    · exact .single (.drop _ List.filter_sublist)
    · exact .refl
  | order c =>
    obtain ⟨shape, -, h⟩ := bind_eq_ok.1 h
    cases h
    exact .single (.setting rfl rfl rfl rfl rfl)
  | consistent | visualTotals | visualPattern =>
    cases h
    exact .single (.setting rfl rfl rfl rfl rfl)

theorem Evolves.writes {s t : HierarchySelection} (h : Evolves s t) : Writes s t := by
  cases h with
  | same h =>
    subst h
    exact .refl
  | change c h => exact change_writes h
  | register m i h => exact .single (.register m i h)

/-- A write keeps the hierarchy and its levels. -/
theorem Write.ground {s t : HierarchySelection} (h : s.Write t) :
    t.hierarchy = s.hierarchy ∧ t.levels.map (·.level) = s.levels.map (·.level) := by
  cases h with
  | activate i => exact ⟨(activate_ground s i).hierarchy, (activate_ground s i).levels⟩
  | level i f hf => exact ⟨rfl, map_modify_eq fun l hl => (hf l hl).level_eq⟩
  | register m i h => exact ⟨(register_ground h).hierarchy, (register_ground h).levels⟩
  | retire | use | drop => exact ⟨rfl, rfl⟩
  | setting hh hl => exact ⟨hh, by rw [hl]⟩

end HierarchySelection

/-! ## Queries -/

namespace Query

/-- What does not depend on where a hierarchy lies holds of all after some were relocated. -/
theorem relocate_keeps {P : HierarchySelection → Prop}
    (hP : ∀ s l, P s → P { s with location := l }) {hs : List HierarchySelection}
    {ids : List Nat} {l : Location} (h : ∀ s ∈ hs, P s) : ∀ s ∈ relocate hs ids l, P s := by
  induction ids generalizing hs with
  | nil => exact h
  | cons i ids ih =>
    refine ih fun s hs' => ?_
    obtain ⟨j, hj⟩ := List.mem_iff_getElem?.1 hs'
    rw [List.getElem?_modify] at hj
    obtain ⟨u, hu, rfl⟩ := Option.map_eq_some_iff.1 hj
    have hPu := h u (List.mem_of_getElem? hu)
    split
    · exact hP u l hPu
    · exact hPu

/-- What a change of a query asks of the hierarchy it names. Members given by their names are
looked up first. -/
inductive Asks (q : Query) : Change → HierarchyChange → Prop where
  | hierarchy (name : String) (c : HierarchyChange) : Asks q (.hierarchy name c) c
  | pick (p : Pick) (hierarchy : String) {member : String} {m : Member}
      (hm : q.lookupMember member = .ok m) : Asks q (.pickMember p hierarchy member) (.pick p [m])
  | range (hierarchy : String) {start stop : String} {first last : Member}
      (hfirst : q.lookupMember start = .ok first) (hlast : q.lookupMember stop = .ok last) :
      Asks q (.range hierarchy start stop) (.range first last)

/-- The calculated member that a change of a query defines. -/
inductive Defines (q : Query) : Change → CalculatedMember → Prop where
  | add (m : CalculatedMember) : Defines q (.addCalculatedMember m) m
  | create {hierarchy : String} {s : HierarchySelection} (hs : q.hierarchy? hierarchy = some s)
      (name formula : String) (properties : Bindings String) (parent : Option Member) :
      Defines q (.createCalculatedMember hierarchy name formula properties parent)
        (parent.elim id (fun p m => m.withParent p)
          ((CalculatedMember.new s.hierarchy name formula).withProperties properties))

theorem addCalculatedMember_keeps {P : HierarchySelection → Prop} {q r : Query}
    {m : CalculatedMember} (hregister : ∀ s t i, P s → s.register m = .ok (t, i) → P t)
    (h : q.addCalculatedMember m = .ok r) (hq : ∀ s ∈ q.hierarchies, P s) :
    ∀ s ∈ r.hierarchies, P s := by
  obtain ⟨i, -, -, hs, hh, rfl⟩ := addCalculatedMember_eq_ok.1 h
  refine changeAt_keeps (fun s t hs hst => ?_) hh hq
  obtain ⟨⟨u, j⟩, hu, hst⟩ := bind_eq_ok.1 hst
  cases hst
  exact hregister s u j hs hu

/-- What does not depend on places, and is kept by all that a change asks for and defines, the
change keeps of all selections. -/
theorem change_keeps {P : HierarchySelection → Prop} {q r : Query} {c : Change}
    (hplace : ∀ s l, P s → P { s with location := l })
    (hchange : ∀ c', q.Asks c c' → ∀ s t, P s → s.change c' = .ok t → P t)
    (hregister : ∀ m, q.Defines c m → ∀ s t i, P s → s.register m = .ok (t, i) → P t)
    (h : q.change c = .ok r) (hq : ∀ s ∈ q.hierarchies, P s) : ∀ s ∈ r.hierarchies, P s := by
  have hupdate : ∀ {name : String} {f : HierarchySelection → Except Rejection HierarchySelection},
      (∀ s t, P s → f s = .ok t → P t) → q.update name f = .ok r → ∀ s ∈ r.hierarchies, P s := by
    intro name f hf h
    obtain ⟨i, -, hs, hh, rfl⟩ := update_eq_ok.1 h
    exact changeAt_keeps hf hh hq
  have hrest : r.hierarchies = q.hierarchies → ∀ s ∈ r.hierarchies, P s := fun heq => heq ▸ hq
  cases c with
  | move name target position =>
    obtain ⟨i, -, -, rfl⟩ := move_eq_ok.1 h
    exact relocate_keeps hplace hq
  | swapAxes =>
    cases h
    exact relocate_keeps hplace (relocate_keeps hplace hq)
  | hierarchy name c => exact hupdate (hchange c (.hierarchy name c)) h
  | pickMember p hierarchy member =>
    obtain ⟨m, hm, h⟩ := bind_eq_ok.1 h
    refine hupdate (fun s t hs hst => hchange _ (.pick p hierarchy hm) s t hs ?_) h
    show [m].foldlM (fun s m => s.pickMember p m) s = .ok t
    rw [List.foldlM_cons, hst]
    rfl
  | range hierarchy start stop =>
    obtain ⟨first, hfirst, h⟩ := bind_eq_ok.1 h
    obtain ⟨last, hlast, h⟩ := bind_eq_ok.1 h
    exact hupdate (hchange _ (.range hierarchy hfirst hlast)) h
  | addCalculatedMember m => exact addCalculatedMember_keeps (hregister m (.add m)) h hq
  | createCalculatedMember hierarchy name formula properties parent =>
    obtain ⟨⟨r', m⟩, hm, h⟩ := bind_eq_ok.1 h
    cases h
    obtain ⟨s, hs, hadd, rfl⟩ := createCalculatedMember_eq_ok.1 hm
    exact addCalculatedMember_keeps
      (hregister _ (.create hs name formula properties parent)) hadd hq
  | createCalculatedMeasure name formula properties =>
    obtain ⟨⟨r', m⟩, hm, h⟩ := bind_eq_ok.1 h
    cases h
    obtain ⟨-, -, rfl⟩ := createCalculatedMeasure_eq_ok.1 hm
    exact hq
  | axis | addMeasure | defaultHierarchize =>
    obtain ⟨_, -, h⟩ := bind_eq_ok.1 h
    cases h
    exact hq
  | declareParameters names =>
    cases h
    obtain ⟨p, hp⟩ := q.declareParameters_rest names
    rwa [hp]
  | retrieveParameters =>
    cases h
    obtain ⟨p, hp⟩ := q.declareParameters_rest q.parameterNames
    rwa [retrieveParameters, hp]
  | setAggregators key names =>
    cases h
    refine hrest ?_
    unfold setAggregators
    split <;> rfl
  | block | lowestLevelsOnly | visualTotals | visualPattern | setParameter | setParameters =>
    cases h
    exact hq

/-- What every write keeps of a selection, a change keeps of all selections. -/
theorem change_selections {P : HierarchySelection → Prop}
    (hw : ∀ s t, P s → s.Write t → P t) {q r : Query} {c : Change} (h : q.change c = .ok r)
    (hq : ∀ s ∈ q.hierarchies, P s) : ∀ s ∈ r.hierarchies, P s := by
  have hwrites : ∀ {s t}, P s → HierarchySelection.Writes s t → P t := by
    intro s t hs hst
    induction hst with
    | refl => exact hs
    | tail _ hstep ih => exact hw _ _ ih hstep
  exact change_keeps (fun s _ hs => hw s _ hs (.setting rfl rfl rfl rfl rfl))
    (fun _ _ _ _ hs hst => hwrites hs (HierarchySelection.change_writes hst))
    (fun m _ s t i hs hst => hw s t hs (.register m i hst)) h hq

/-- What holds of the selections of a new query and is kept by every write holds of all selections
after any changes. -/
theorem keeps_writes {P : HierarchySelection → Prop} {cube : Cube}
    (hnew : ∀ h ∈ cube.hierarchies, P (HierarchySelection.new h))
    (hw : ∀ s t, P s → s.Write t → P t) (name : String) (cs : List Change) :
    ∀ s ∈ ((new name cube).afterAll cs).hierarchies, P s := by
  refine afterAll_keeps (P := fun q => ∀ s ∈ q.hierarchies, P s)
    (fun q c r hq hc => change_selections hw hc hq) ?_ cs
  intro s hs
  obtain ⟨h, hh, rfl⟩ := List.mem_map.1 hs
  exact hnew h hh

end Query
end CubeQuery
