import CubeQuery.Proofs.Accepted
import Mathlib.Data.List.Forall2

/-!
# What changes leave alone

A change of what is picked of a hierarchy never changes which hierarchy it is, where it lies or
which levels it has (`HierarchySelection.change_ground`). So every change of a query is one of
three: it keeps the ground of all hierarchies and the lists of the axes, it moves one hierarchy, or
it swaps the axes (`Query.change_cases`).
-/

namespace CubeQuery

/-! ## Levels -/

theorem LevelSelection.pick_level (s : LevelSelection) (p : Pick) (m : Member) :
    (s.pick p m).level = s.level := by
  cases p with
  | inclusion =>
    show (s.add m).level = s.level
    unfold add
    split <;> rfl
  | exclusion => rfl

theorem LevelSelection.change_level {s t : LevelSelection} {c : LevelChange}
    (h : s.change c = .ok t) : t.level = s.level := by
  cases c with
  | shape c =>
    obtain ⟨shape, -, h⟩ := bind_eq_ok.1 h
    cases h
    rfl
  | range | clearRange | bind | unbind | parameterPick => cases h; rfl

/-- Where the new element agrees with the one it replaces, so do the lists. -/
theorem map_set_eq {α β : Type} {f : α → β} {xs : List α} {i : Nat} {x y : α}
    (hx : xs[i]? = some x) (h : f y = f x) : (xs.set i y).map f = xs.map f := by
  obtain ⟨hi, rfl⟩ := List.getElem?_eq_some_iff.1 hx
  have hi' : i < (xs.map f).length := by rwa [List.length_map]
  rw [List.map_set, h, show f xs[i] = (xs.map f)[i] from (List.getElem_map f).symm,
    List.set_getElem_self]

/-- Where the changed element agrees with what it was, so do the lists. -/
theorem map_modify_eq {α β : Type} {g : α → β} {f : α → α} {xs : List α} {i : Nat}
    (h : ∀ x, xs[i]? = some x → g (f x) = g x) : (xs.modify i f).map g = xs.map g := by
  refine List.ext_getElem? fun j => ?_
  rw [List.getElem?_map, List.getElem?_map, List.getElem?_modify]
  cases hj : xs[j]? with
  | none => rfl
  | some x =>
    by_cases hij : i = j
    · subst hij
      simp [h x hj]
    · simp [hij]

/-- An element that is sorted out makes no difference, wherever it stands. -/
theorem filter_insertIdx {α : Type} {p : α → Bool} {x : α} (hx : p x = false) {xs : List α}
    {k : Nat} : (xs.insertIdx k x).filter p = xs.filter p := by
  induction xs generalizing k with
  | nil => cases k <;> simp [hx]
  | cons y xs ih =>
    cases k with
    | zero => simp [hx]
    | succ k => simp only [List.insertIdx_succ_cons, List.filter_cons, ih]

namespace HierarchySelection

/-- Selections of one hierarchy at one location, with the same levels. -/
structure SameGround (s t : HierarchySelection) : Prop where
  hierarchy : t.hierarchy = s.hierarchy
  location : t.location = s.location
  levels : t.levels.map (·.level) = s.levels.map (·.level)

theorem SameGround.refl (s : HierarchySelection) : SameGround s s := ⟨rfl, rfl, rfl⟩

theorem SameGround.trans {s t u : HierarchySelection} (h : SameGround s t)
    (h' : SameGround t u) : SameGround s u :=
  ⟨h'.hierarchy.trans h.hierarchy, h'.location.trans h.location, h'.levels.trans h.levels⟩

theorem uniqueName_of_ground {s t : HierarchySelection} (h : SameGround s t) :
    t.uniqueName = s.uniqueName := congrArg Hierarchy.uniqueName h.hierarchy

/-- A name stands for a level at the same position. -/
theorem SameGround.levelIndex_eq {s t : HierarchySelection} (h : SameGround s t) (name : String) :
    t.levelIndex name = s.levelIndex name := by
  have key : ∀ ls : List LevelSelection, ls.findIdx? (·.level.name = name) =
      (ls.map (·.level)).findIdx? (·.name = name) := by
    intro ls
    rw [List.findIdx?_map]
    rfl
  simp only [levelIndex, uniqueName, h.hierarchy, key, h.levels]

theorem SameGround.levelIndexOf_eq {s t : HierarchySelection} (h : SameGround s t)
    (uniqueName : String) : t.levelIndexOf uniqueName = s.levelIndexOf uniqueName := by
  have key : ∀ ls : List LevelSelection, ls.findIdx? (·.level.uniqueName = uniqueName) =
      (ls.map (·.level)).findIdx? (·.uniqueName = uniqueName) := by
    intro ls
    rw [List.findIdx?_map]
    rfl
  simp only [levelIndexOf, key, h.levels]

theorem modifyLevel_ground (s : HierarchySelection) (i : Nat)
    {f : LevelSelection → LevelSelection} (hf : ∀ l, (f l).level = l.level) :
    SameGround s (s.modifyLevel i f) :=
  ⟨rfl, rfl, map_modify_eq fun l _ => hf l⟩

theorem activate_ground (s : HierarchySelection) (i : Nat) : SameGround s (s.activate i) := by
  unfold activate
  split <;> exact ⟨rfl, rfl, rfl⟩

theorem activate_levels (s : HierarchySelection) (i : Nat) : (s.activate i).levels = s.levels := by
  unfold activate
  split <;> rfl

theorem updateLevel_ground {s t : HierarchySelection} {name : String}
    {f : LevelSelection → Except Rejection LevelSelection}
    (hf : ∀ l l', f l = .ok l' → l'.level = l.level) (h : s.updateLevel name f = .ok t) :
    SameGround s t := by
  obtain ⟨i, -, levels, hl, rfl⟩ := updateLevel_eq_ok.1 h
  refine ⟨rfl, rfl, ?_⟩
  rcases changeAt_eq_ok.1 hl with ⟨-, rfl⟩ | ⟨l, l', hi, hl', rfl⟩
  · rfl
  · exact map_set_eq hi (hf l l' hl')

/-- What holds whichever levels are cleared and put out of use holds when all of them are. -/
theorem clear_keeps {P : HierarchySelection → Prop} {s : HierarchySelection} (hs : P s)
    (hlevel : ∀ t i, P t → P (t.modifyLevel i (·.clear)))
    (hactive : ∀ t, P t → P { t with active := [] }) : P s.clear := by
  have key : ∀ (is : List Nat) (t : HierarchySelection), P t →
      P (is.foldl (fun t i => t.modifyLevel i (·.clear)) t) := by
    intro is
    induction is with
    | nil => exact fun t ht => ht
    | cons i is ih => exact fun t ht => ih _ (hlevel t i ht)
  exact hactive _ (key s.active s hs)

theorem clear_ground (s : HierarchySelection) : SameGround s s.clear :=
  clear_keeps (SameGround.refl s) (fun t i h => h.trans (modifyLevel_ground t i fun _ => rfl))
    fun _ h => ⟨h.hierarchy, h.location, h.levels⟩

/-! ## Members -/

theorem pickMember_ground {s t : HierarchySelection} {p : Pick} {m : Member}
    (h : s.pickMember p m = .ok t) : SameGround s t := by
  obtain ⟨i, -, rfl⟩ := pickMember_eq_ok.1 h
  exact (activate_ground s i).trans (modifyLevel_ground _ i fun l => l.pick_level p m)

theorem pickMembers_ground {s t : HierarchySelection} {p : Pick} {ms : List Member}
    (h : s.pickMembers p ms = .ok t) : SameGround s t :=
  foldlM_keeps (fun _ _ _ hs h => hs.trans (pickMember_ground h)) (SameGround.refl s) h

theorem includeRange_ground {s t : HierarchySelection} {start stop : Member}
    (h : s.includeRange start stop = .ok t) : SameGround s t := by
  obtain ⟨-, -, i, -, rfl⟩ := includeRange_eq_ok.1 h
  exact (activate_ground s i).trans (modifyLevel_ground _ i fun _ => rfl)

/-! ## Calculated members -/

theorem register_ground {s t : HierarchySelection} {m : CalculatedMember} {i : Nat}
    (h : s.register m = .ok (t, i)) : SameGround s t := by
  rcases register_eq_ok.1 h with ⟨-, ⟨-, rfl⟩ | ⟨-, -, rfl⟩⟩ <;> exact ⟨rfl, rfl, rfl⟩

theorem includeCalculated_ground {s t : HierarchySelection} {m : CalculatedMember}
    {onLevel : Bool} (h : s.includeCalculated m onLevel = .ok t) : SameGround s t := by
  rw [includeCalculated_eq_ok] at h
  split at h
  · obtain ⟨level, -, u, i, hu, rfl⟩ := h
    refine (register_ground hu).trans ((activate_ground u level).trans ?_)
    exact modifyLevel_ground _ level fun l => l.pick_level .inclusion m.asMember
  · obtain ⟨u, i, hu, rfl⟩ := h
    refine (register_ground hu).trans ?_
    split <;> exact ⟨rfl, rfl, rfl⟩

theorem excludeCalculated_ground (s : HierarchySelection) (uniqueName : String) :
    SameGround s (s.excludeCalculated uniqueName) := by
  unfold excludeCalculated
  split <;> exact ⟨rfl, rfl, rfl⟩

/-- A change keeps the hierarchy, its location and its levels. -/
theorem change_ground {s t : HierarchySelection} {c : HierarchyChange}
    (h : s.change c = .ok t) : SameGround s t := by
  cases c with
  | includeLevel name =>
    obtain ⟨i, -, rfl⟩ := includeLevel_eq_ok.1 h
    exact activate_ground s i
  | excludeLevel name =>
    obtain ⟨i, -, rfl⟩ := excludeLevel_eq_ok.1 h
    exact ⟨rfl, rfl, rfl⟩
  | clear => cases h; exact clear_ground s
  | level name c => exact updateLevel_ground (fun _ _ => LevelSelection.change_level) h
  | pick p ms => exact pickMembers_ground h
  | range start stop => exact includeRange_ground h
  | includeCalculated m onLevel => exact includeCalculated_ground h
  | excludeCalculated uniqueName => cases h; exact excludeCalculated_ground s uniqueName
  | order c =>
    obtain ⟨shape, -, h⟩ := bind_eq_ok.1 h
    cases h
    exact ⟨rfl, rfl, rfl⟩
  | consistent | visualTotals | visualPattern => cases h; exact ⟨rfl, rfl, rfl⟩

/-- What one change of a query can make of a hierarchy that it does not move. -/
inductive Evolves (s t : HierarchySelection) : Prop where
  | same (h : t = s)
  | change (c : HierarchyChange) (h : s.change c = .ok t)
  | register (m : CalculatedMember) (i : Nat) (h : s.register m = .ok (t, i))

theorem Evolves.ground {s t : HierarchySelection} (h : Evolves s t) : SameGround s t := by
  cases h with
  | same h =>
    subst h
    exact SameGround.refl t
  | change c h => exact change_ground h
  | register m i h => exact register_ground h

end HierarchySelection

/-! ## Queries -/

theorem changeAt_forall₂ {α : Type} {R : α → α → Prop} {f : α → Except Rejection α}
    (hr : ∀ x, R x x) (hf : ∀ x y, f x = .ok y → R x y) {xs ys : List α} {i : Nat}
    (h : changeAt f xs i = .ok ys) : List.Forall₂ R xs ys := by
  induction xs generalizing i ys with
  | nil =>
    cases h
    exact .nil
  | cons x xs ih =>
    cases i with
    | zero =>
      obtain ⟨y, hy, h⟩ := bind_eq_ok.1 h
      cases h
      exact .cons (hf x y hy) (List.forall₂_same.2 fun x _ => hr x)
    | succ i =>
      obtain ⟨zs, hz, h⟩ := bind_eq_ok.1 h
      cases h
      exact .cons (hr x) (ih hz)

namespace Query

/-- Queries on one cube, with the same hierarchies in the same places. -/
structure SameGround (q r : Query) : Prop where
  cube : r.cube = q.cube
  lists : ∀ l, (r.axes.get l).hierarchies = (q.axes.get l).hierarchies
  hierarchies : List.Forall₂ HierarchySelection.Evolves q.hierarchies r.hierarchies

theorem SameGround.of_rest {q r : Query} (hc : r.cube = q.cube) (ha : r.axes = q.axes)
    (hh : r.hierarchies = q.hierarchies) : SameGround q r := by
  refine ⟨hc, fun l => by rw [ha], ?_⟩
  rw [hh]
  exact List.forall₂_same.2 fun s _ => .same rfl

theorem SameGround.of_changeAt {q : Query} {hs : List HierarchySelection} {i : Nat}
    {f : HierarchySelection → Except Rejection HierarchySelection}
    (hf : ∀ s t, f s = .ok t → HierarchySelection.Evolves s t)
    (h : changeAt f q.hierarchies i = .ok hs) : SameGround q { q with hierarchies := hs } :=
  ⟨rfl, fun _ => rfl, changeAt_forall₂ (fun _ => .same rfl) hf h⟩

theorem SameGround.map_eq {β : Type} {q r : Query} (h : SameGround q r)
    {f : HierarchySelection → β} (hf : ∀ s t, HierarchySelection.SameGround s t → f t = f s) :
    r.hierarchies.map f = q.hierarchies.map f := by
  have key : List.Forall₂ Eq (q.hierarchies.map f) (r.hierarchies.map f) := by
    rw [List.forall₂_map_left_iff, List.forall₂_map_right_iff]
    exact h.hierarchies.imp fun s t hst => (hf s t hst.ground).symm
  rw [List.forall₂_eq_eq_eq] at key
  exact key.symm

theorem SameGround.registry {q r : Query} (h : SameGround q r) :
    r.hierarchies.map (·.hierarchy) = q.hierarchies.map (·.hierarchy) :=
  h.map_eq fun _ _ hst => hst.hierarchy

theorem lastIndex?_map {α β : Type} (f : α → β) (p : β → Bool) (xs : List α) :
    lastIndex? p (xs.map f) = lastIndex? (fun x => p (f x)) xs := by
  induction xs with
  | nil => rfl
  | cons x xs ih => simp only [List.map_cons, lastIndex?, ih]

theorem lastIndex?_lt {α : Type} {p : α → Bool} {xs : List α} {i : Nat}
    (h : lastIndex? p xs = some i) : i < xs.length := by
  induction xs generalizing i with
  | nil => cases h
  | cons x xs ih =>
    rw [lastIndex?] at h
    split at h
    · next j hj =>
      cases h
      exact Nat.succ_lt_succ (ih hj)
    · split at h
      · cases h
        exact Nat.succ_pos xs.length
      · cases h

theorem lastIndex?_eq_some {α : Type} {p : α → Bool} {xs : List α} {i : Nat}
    (h : lastIndex? p xs = some i) : ∃ x, xs[i]? = some x ∧ p x = true := by
  induction xs generalizing i with
  | nil => cases h
  | cons x xs ih =>
    rw [lastIndex?] at h
    split at h
    · next j hj =>
      cases h
      exact ih hj
    · split at h
      · next hx =>
        cases h
        exact ⟨x, rfl, hx⟩
      · cases h

theorem lastIndex?_eq_none {α : Type} {p : α → Bool} {xs : List α} (h : lastIndex? p xs = none) :
    ∀ x ∈ xs, p x = false := by
  induction xs with
  | nil => exact List.forall_mem_nil _
  | cons x xs ih =>
    rw [lastIndex?] at h
    split at h
    · cases h
    · next hnone =>
      split at h
      · cases h
      · next hx => exact List.forall_mem_cons.2 ⟨Bool.eq_false_iff.2 hx, ih hnone⟩

/-- The unique name of a hierarchy of the query is found, though maybe with another one. -/
theorem exists_indexOf? {q : Query} {s : HierarchySelection} (hs : s ∈ q.hierarchies) :
    ∃ i t, q.indexOf? s.uniqueName = some i ∧ q.hierarchies[i]? = some t ∧
      t.uniqueName = s.uniqueName := by
  cases h : q.indexOf? s.uniqueName with
  | none => simpa using lastIndex?_eq_none h s hs
  | some i =>
    obtain ⟨t, ht, hname⟩ := lastIndex?_eq_some h
    exact ⟨i, t, rfl, ht, of_decide_eq_true hname⟩

theorem find?_lt {q : Query} {name : String} {i : Nat} (h : q.find? name = some i) :
    i < q.hierarchies.length := by
  unfold find? at h
  split at h
  · next j hj =>
    cases h
    exact lastIndex?_lt hj
  · exact (List.findIdx?_eq_some_iff_getElem.1 h).1

/-- An accepted change of a hierarchy changes the one that the name stands for, in its place. -/
theorem exists_of_update {q r : Query} {name : String}
    {f : HierarchySelection → Except Rejection HierarchySelection} (h : q.update name f = .ok r) :
    ∃ i s t, q.find? name = some i ∧ q.hierarchies[i]? = some s ∧ f s = .ok t ∧
      { q with hierarchies := q.hierarchies.set i t } = r := by
  obtain ⟨i, hi, hs, hh, rfl⟩ := update_eq_ok.1 h
  obtain ⟨s, t, hs, ht, rfl⟩ := (changeAt_eq_ok_of_lt (find?_lt hi)).1 hh
  exact ⟨i, s, t, hi, hs, ht, rfl⟩

/-- What a name stands for depends on the hierarchies alone. -/
theorem find?_of_registry {q r : Query}
    (h : r.hierarchies.map (·.hierarchy) = q.hierarchies.map (·.hierarchy)) (name : String) :
    r.find? name = q.find? name := by
  have last : ∀ hs : List HierarchySelection, lastIndex? (·.uniqueName = name) hs =
      lastIndex? (·.uniqueName = name) (hs.map (·.hierarchy)) := by
    intro hs
    rw [lastIndex?_map]
    rfl
  have first : ∀ hs : List HierarchySelection, hs.findIdx? (·.hierarchy.name = name) =
      (hs.map (·.hierarchy)).findIdx? (·.name = name) := by
    intro hs
    rw [List.findIdx?_map]
    rfl
  simp only [find?, indexOf?, last, first, h]

theorem update_ground {q r : Query} {name : String}
    {f : HierarchySelection → Except Rejection HierarchySelection}
    (hf : ∀ s t, f s = .ok t → HierarchySelection.Evolves s t) (h : q.update name f = .ok r) :
    SameGround q r := by
  obtain ⟨i, -, hs, hh, rfl⟩ := update_eq_ok.1 h
  exact SameGround.of_changeAt hf hh

theorem addCalculatedMember_ground {q r : Query} {m : CalculatedMember}
    (h : q.addCalculatedMember m = .ok r) : SameGround q r := by
  obtain ⟨i, -, -, hs, hh, rfl⟩ := addCalculatedMember_eq_ok.1 h
  refine SameGround.of_changeAt (fun s t hst => ?_) hh
  obtain ⟨⟨u, j⟩, hu, hst⟩ := bind_eq_ok.1 hst
  cases hst
  exact .register m j hu

theorem declareParameter_rest (q : Query) (name : String) :
    ∃ p, q.declareParameter name = { q with parameters := p } := by
  unfold declareParameter
  split <;> exact ⟨_, rfl⟩

theorem declareParameters_rest (q : Query) (names : List String) :
    ∃ p, q.declareParameters names = { q with parameters := p } := by
  induction names generalizing q with
  | nil => exact ⟨_, rfl⟩
  | cons name names ih =>
    obtain ⟨p, hp⟩ := q.declareParameter_rest name
    obtain ⟨p', hp'⟩ := ih (q.declareParameter name)
    rw [hp] at hp'
    exact ⟨p', (congrArg (·.declareParameters names) hp).trans hp'⟩

theorem declareParameters_ground (q : Query) (names : List String) :
    SameGround q (q.declareParameters names) := by
  obtain ⟨p, hp⟩ := q.declareParameters_rest names
  rw [hp]
  exact SameGround.of_rest rfl rfl rfl

/-- An accepted change keeps the ground, moves one hierarchy or swaps the axes. -/
theorem change_cases {q r : Query} {c : Change} (h : q.change c = .ok r) :
    SameGround q r ∨ (∃ name l p, q.move name l p = .ok r) ∨ r = q.swapAxes := by
  cases c with
  | move name target position => exact .inr (.inl ⟨name, target, position, h⟩)
  | swapAxes =>
    cases h
    exact .inr (.inr rfl)
  | axis l c =>
    obtain ⟨a, ha, h⟩ := bind_eq_ok.1 h
    cases h
    have hlist : a.hierarchies = (q.axes.get l).hierarchies := by
      cases c with
      | nonEmpty on => cases ha; rfl
      | order c =>
        obtain ⟨shape, -, ha⟩ := bind_eq_ok.1 ha
        cases ha
        rfl
    refine .inl ⟨rfl, fun m => ?_, (SameGround.of_rest rfl rfl rfl).hierarchies⟩
    rw [Axes.get_modify]
    split
    · next hlm => rw [hlist, hlm]
    · rfl
  | hierarchy name c =>
    exact .inl (update_ground (fun _ _ => .change c) h)
  | pickMember p hierarchy member =>
    obtain ⟨m, -, h⟩ := bind_eq_ok.1 h
    refine .inl (update_ground (fun s t hst => .change (.pick p [m]) ?_) h)
    show [m].foldlM (fun s m => s.pickMember p m) s = .ok t
    rw [List.foldlM_cons, hst]
    rfl
  | range hierarchy start stop =>
    obtain ⟨first, -, h⟩ := bind_eq_ok.1 h
    obtain ⟨last, -, h⟩ := bind_eq_ok.1 h
    exact .inl (update_ground (fun _ _ => .change (.range first last)) h)
  | addCalculatedMember m => exact .inl (addCalculatedMember_ground h)
  | createCalculatedMember hierarchy name formula properties parent =>
    obtain ⟨⟨r', m⟩, hm, h⟩ := bind_eq_ok.1 h
    cases h
    obtain ⟨_, -, hm, -⟩ := createCalculatedMember_eq_ok.1 hm
    exact .inl (addCalculatedMember_ground hm)
  | createCalculatedMeasure name formula properties =>
    obtain ⟨⟨r', m⟩, hm, h⟩ := bind_eq_ok.1 h
    cases h
    obtain ⟨-, -, rfl⟩ := createCalculatedMeasure_eq_ok.1 hm
    exact .inl (SameGround.of_rest rfl rfl rfl)
  | addMeasure name =>
    obtain ⟨m, -, h⟩ := bind_eq_ok.1 h
    cases h
    exact .inl (SameGround.of_rest rfl rfl rfl)
  | defaultHierarchize mode =>
    obtain ⟨m, -, h⟩ := bind_eq_ok.1 h
    cases h
    exact .inl (SameGround.of_rest rfl rfl rfl)
  | declareParameters names =>
    cases h
    exact .inl (q.declareParameters_ground names)
  | retrieveParameters =>
    cases h
    exact .inl (q.declareParameters_ground q.parameterNames)
  | setAggregators key names =>
    cases h
    left
    unfold setAggregators
    split <;> exact SameGround.of_rest rfl rfl rfl
  | block | lowestLevelsOnly | visualTotals | visualPattern | setParameter | setParameters =>
    cases h
    exact .inl (SameGround.of_rest rfl rfl rfl)

theorem change_cube {q r : Query} {c : Change} (h : q.change c = .ok r) : r.cube = q.cube := by
  rcases change_cases h with hg | ⟨name, l, p, hm⟩ | rfl
  · exact hg.cube
  · obtain ⟨i, -, -, rfl⟩ := move_eq_ok.1 hm
    rfl
  · rfl

end Query
end CubeQuery
