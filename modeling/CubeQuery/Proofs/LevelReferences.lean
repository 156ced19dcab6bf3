import CubeQuery.Proofs.Inherited
import CubeQuery.Proofs.References

/-!
# References among the sets of a hierarchy

Texts that were kept as fragments refer to nothing, so the only references in a compiled set are
those that compilation puts there. Among the levels of a hierarchy the levels above the pivot refer
forward to it and each level below refers back to the one before. With the pivot drawn to the
front, every reference goes back (`levelSets_selfContained`).
-/

namespace CubeQuery

/-- Calls refer to what their arguments refer to. -/
theorem Expr.inherited_identifiers (known : List Identifier) :
    Expr.Inherited (·.identifiers ⊆ known) where
  member name := by simp
  level name := by simp
  hierarchy name := by simp
  literal value := by simp
  function _ _ h := by simpa using identifiersOf_subset.2 h
  set h := by simpa using identifiersOf_subset.2 h
  property _ h := by simpa using h
  operation _ _ _ h := by simpa using identifiersOf_subset.2 h

/-- What an expression refers to is declared with it, and the declarations are grounded. -/
structure SelfContained (ids : List Identifier) (ds : List Declaration) : Prop where
  closed : ids ⊆ setNames (declaredSets ds)
  grounded : Grounded (declaredSets ds)

theorem selfContained_nil : SelfContained [] [] := ⟨List.nil_subset _, grounded_nil⟩

theorem SelfContained.mono {ids ids' : List Identifier} {ds : List Declaration}
    (h : SelfContained ids ds) (hi : ids' ⊆ ids) : SelfContained ids' ds :=
  ⟨List.Subset.trans hi h.closed, h.grounded⟩

theorem declaredSets_append (ds es : List Declaration) :
    declaredSets (ds ++ es) = declaredSets ds ++ declaredSets es := List.filterMap_append

theorem SelfContained.append {ids ids' : List Identifier} {ds es : List Declaration}
    (h : SelfContained ids ds) (h' : SelfContained ids' es) :
    SelfContained (ids ++ ids') (ds ++ es) := by
  constructor
  · rw [declaredSets_append, setNames, List.map_append]
    exact List.append_subset.2
      ⟨List.subset_append_of_subset_left _ h.closed, List.subset_append_of_subset_right _ h'.closed⟩
  · rw [declaredSets_append]
    exact h.grounded.append h'.grounded

/-- A set that is declared behind what it refers to. -/
theorem SelfContained.declare {ids : List Identifier} {ds : List Declaration} {name : Identifier}
    {body : Expr} (h : SelfContained ids ds) (hb : body.identifiers ⊆ ids) :
    SelfContained [name] (ds ++ [.set name body]) := by
  constructor
  · intro id hid
    rw [declaredSets_append, setNames, List.map_append]
    exact List.mem_append_right _ hid
  · rw [declaredSets_append]
    exact h.grounded.concat (List.Subset.trans hb h.closed)

theorem SelfContained.append_members {ids : List Identifier} {ds es : List Declaration}
    (h : SelfContained ids ds) (hes : declaredSets es = []) : SelfContained ids (ds ++ es) := by
  have hds : declaredSets (ds ++ es) = declaredSets ds := by
    rw [declaredSets_append, hes, List.append_nil]
  exact ⟨by rw [hds]; exact h.closed, by rw [hds]; exact h.grounded⟩

namespace Compiler

/-- Whatever this compiler reads refers to nothing. -/
def ReadsNoNames (c : Compiler) : Prop := ∀ text e, c.read text = .ok e → e.identifiers = []

/-- What is read refers to no name but known ones, as it refers to none. -/
theorem reads_identifiers {c : Compiler} (hc : c.ReadsNoNames) (known : List Identifier) :
    c.Reads (·.identifiers ⊆ known) := by
  intro text e he
  rw [hc text e he]
  exact List.nil_subset known

theorem identifiers_fragment {text : String} {e : Expr} (h : Expr.fragment text = .ok e) :
    e.identifiers = [] := by
  obtain ⟨body, rfl⟩ := Expr.exists_of_fragment h
  exact Expr.identifiers_raw body

section
variable {c : Compiler} (hc : c.ReadsNoNames)

/-! ## Sets of levels -/

include hc in
/-- The set of a level refers to nothing. -/
theorem identifiers_levelSet {parameters : Parameters} {h : Hierarchy} {s : LevelSelection}
    {e : Expr} (he : c.levelSet parameters h s = .ok e) : e.identifiers = [] :=
  List.subset_nil.1 ((Expr.inherited_identifiers []).levelSet (reads_identifiers hc []) he)

theorem identifiers_restricted {h : HierarchySelection} {k : Linkage} {i : Nat}
    {reference : Option Expr} {l : LevelSelection} {own : Expr} {known : List Identifier}
    (ho : own.identifiers = []) (hr : ∀ e, reference = some e → e.identifiers ⊆ known) :
    (restricted h k i reference l own).identifiers ⊆ known :=
  (Expr.inherited_identifiers known).restricted (by simp [ho]) hr

theorem identifiers_restricted_pivot {h : HierarchySelection} {k : Linkage} {i : Nat}
    {reference : Option Expr} {l : LevelSelection} {own : Expr} (hk : k.pivot = some i)
    (ho : own.identifiers = []) : (restricted h k i reference l own).identifiers = [] := by
  simp [restricted, hk, ho]

/-! ## The sets of several levels -/

theorem next_of_simple {k : Linkage} {parameters : Parameters} {h : Hierarchy} {i p : Nat}
    {reference : Option Expr} {l : LevelSelection} (hk : k.pivot = some p) (hi : i < p)
    (hl : l.isSimple parameters = true) : k.next parameters h i reference l = reference := by
  have hp : ¬p < i := by omega
  simp [Linkage.next, hk, hl, hp]

theorem next_of_not_simple {k : Linkage} {parameters : Parameters} {h : Hierarchy} {i : Nat}
    {reference : Option Expr} {l : LevelSelection} (hl : l.isSimple parameters = false) :
    k.next parameters h i reference l = some (.identifier (levelSetName h l.level)) := by
  simp [Linkage.next, hl]

theorem next_of_behind {k : Linkage} {parameters : Parameters} {h : Hierarchy} {i p : Nat}
    {reference : Option Expr} {l : LevelSelection} (hk : k.pivot = some p) (hi : p < i) :
    k.next parameters h i reference l = some (.identifier (levelSetName h l.level)) := by
  simp [Linkage.next, hk, hi]

include hc in
/-- Without declarations and without a reference the sets refer to nothing. -/
theorem levelSetsFrom_undeclared {parameters : Parameters} {h : HierarchySelection}
    {k : Linkage} (hk : k.declares = false) {ls : List LevelSelection} :
    ∀ {i : Nat} {r : Declared (List Expr)},
      c.levelSetsFrom parameters h k i none ls = .ok r →
        Expr.identifiersOf r.value = [] ∧ r.declarations = [] := by
  induction ls with
  | nil =>
    intro i r hr
    cases hr
    exact ⟨Expr.identifiersOf_nil, rfl⟩
  | cons l ls ih =>
    intro i r hr
    rw [levelSetsFrom] at hr
    obtain ⟨own, ho, hr⟩ := bind_eq_ok.1 hr
    simp only [hk, Bool.false_eq_true, if_false] at hr
    obtain ⟨others, hothers, hr⟩ := bind_eq_ok.1 hr
    cases hr
    obtain ⟨hv, hd⟩ := ih hothers
    have hset : (restricted h k i none l own).identifiers = [] := by
      refine List.subset_nil.1 (identifiers_restricted (identifiers_levelSet hc ho) ?_)
      intro e he
      cases he
    refine ⟨?_, hd⟩
    rw [Expr.identifiersOf_cons, hset, hv]
    rfl

include hc in
/-- A single level that is its own pivot is neither declared nor restricted. -/
theorem levelSetsFrom_single {parameters : Parameters} {h : HierarchySelection} {k : Linkage}
    {i : Nat} (hd : k.declares = false) (hp : k.pivot = some i) {reference : Option Expr}
    {l : LevelSelection} {r : Declared (List Expr)}
    (hr : c.levelSetsFrom parameters h k i reference [l] = .ok r) :
    Expr.identifiersOf r.value = [] ∧ r.declarations = [] := by
  rw [levelSetsFrom] at hr
  obtain ⟨own, ho, hr⟩ := bind_eq_ok.1 hr
  simp only [hd, Bool.false_eq_true, if_false] at hr
  cases hr
  refine ⟨?_, rfl⟩
  rw [Expr.identifiersOf_cons, Expr.identifiersOf_nil, List.append_nil]
  exact identifiers_restricted_pivot hp (identifiers_levelSet hc ho)

include hc in
/-- Behind the pivot each level refers to the level before. -/
theorem levelSetsFrom_behind {parameters : Parameters} {h : HierarchySelection} {k : Linkage}
    (hd : k.declares = true) {p : Nat} (hp : k.pivot = some p) {ls : List LevelSelection} :
    ∀ {i : Nat} {reference : Option Expr} {known : List Identifier} {r : Declared (List Expr)},
      p < i → (∀ e, reference = some e → e.identifiers ⊆ known) →
      c.levelSetsFrom parameters h k i reference ls = .ok r →
        Expr.identifiersOf r.value ⊆ setNames (declaredSets r.declarations) ∧
          InOrder known (declaredSets r.declarations) := by
  induction ls with
  | nil =>
    intro i reference known r _ _ hr
    cases hr
    rw [Expr.identifiersOf_nil]
    exact ⟨List.nil_subset _, trivial⟩
  | cons l ls ih =>
    intro i reference known r hi href hr
    rw [levelSetsFrom] at hr
    obtain ⟨own, ho, hr⟩ := bind_eq_ok.1 hr
    simp only [hd, if_true, next_of_behind hp hi] at hr
    obtain ⟨others, hothers, hr⟩ := bind_eq_ok.1 hr
    cases hr
    have hnext : ∀ e, some (Expr.identifier (levelSetName h.hierarchy l.level)) = some e →
        e.identifiers ⊆ levelSetName h.hierarchy l.level :: known := by
      intro e he
      cases he
      simp
    obtain ⟨hv, hin⟩ := ih (Nat.lt_succ_of_lt hi) hnext hothers
    refine ⟨?_, identifiers_restricted (identifiers_levelSet hc ho) href, hin⟩
    rw [Expr.identifiersOf_cons, Expr.identifiers_identifier]
    exact List.cons_subset_cons _ hv

include hc in
/-- Down to the pivot each level refers to the pivot, and the pivot to nothing. -/
theorem levelSetsFrom_ahead {parameters : Parameters} {h : HierarchySelection} {k : Linkage}
    (hd : k.declares = true) {p : Nat} (hp : k.pivot = some p) {l : LevelSelection}
    (hl : l.isSimple parameters = false) {below above : List LevelSelection} :
    ∀ {i : Nat} {r : Declared (List Expr)},
      i + above.length = p → (∀ a ∈ above, a.isSimple parameters = true) →
      c.levelSetsFrom parameters h k i
          (some (.identifier (levelSetName h.hierarchy l.level))) (above ++ l :: below) = .ok r →
        Expr.identifiersOf r.value ⊆ setNames (declaredSets r.declarations) ∧
          Pivoted (levelSetName h.hierarchy l.level) (declaredSets r.declarations) := by
  have href : ∀ e, some (Expr.identifier (levelSetName h.hierarchy l.level)) = some e →
      e.identifiers ⊆ [levelSetName h.hierarchy l.level] := by
    intro e he
    cases he
    simp
  induction above with
  | nil =>
    intro i r hi _ hr
    rw [List.nil_append, levelSetsFrom] at hr
    obtain ⟨own, ho, hr⟩ := bind_eq_ok.1 hr
    simp only [hd, if_true, next_of_not_simple hl] at hr
    obtain ⟨others, hothers, hr⟩ := bind_eq_ok.1 hr
    cases hr
    have hip : k.pivot = some i := by rw [hp, ← hi]; rfl
    obtain ⟨hv, hin⟩ := levelSetsFrom_behind hc hd hip (Nat.lt_succ_self i) href hothers
    refine ⟨?_, .pivot (identifiers_restricted_pivot hip (identifiers_levelSet hc ho)) hin⟩
    rw [Expr.identifiersOf_cons, Expr.identifiers_identifier]
    exact List.cons_subset_cons _ hv
  | cons a above ih =>
    intro i r hi ha hr
    rw [List.cons_append, levelSetsFrom] at hr
    obtain ⟨own, ho, hr⟩ := bind_eq_ok.1 hr
    rw [List.length_cons] at hi
    have hip : i < p := by omega
    simp only [hd, if_true, next_of_simple hp hip (ha a List.mem_cons_self)] at hr
    obtain ⟨others, hothers, hr⟩ := bind_eq_ok.1 hr
    cases hr
    have hi' : i + 1 + above.length = p := by omega
    obtain ⟨hv, hpivot⟩ := ih hi' (fun x hx => ha x (List.mem_cons_of_mem _ hx)) hothers
    refine ⟨?_, .ahead (identifiers_restricted (identifiers_levelSet hc ho) href) hpivot⟩
    rw [Expr.identifiersOf_cons, Expr.identifiers_identifier]
    exact List.cons_subset_cons _ hv

theorem findIdx?_split {α : Type} {f : α → Bool} {xs : List α} {i : Nat}
    (h : xs.findIdx? f = some i) :
    ∃ above x below, xs = above ++ x :: below ∧ above.length = i ∧ f x = true ∧
      ∀ a ∈ above, f a = false := by
  obtain ⟨hi, hx, habove⟩ := List.findIdx?_eq_some_iff_getElem.1 h
  refine ⟨xs.take i, xs[i], xs.drop (i + 1), ?_, List.length_take_of_le (Nat.le_of_lt hi), hx, ?_⟩
  · rw [List.getElem_cons_drop, List.take_append_drop]
  · intro a ha
    obtain ⟨j, hj, rfl⟩ := List.mem_take_iff_getElem.1 ha
    simpa using habove j (Nat.lt_of_lt_of_le hj (Nat.min_le_left _ _))

include hc in
/-- The sets of the levels of a hierarchy refer to each other only, and to nothing in a circle. -/
theorem levelSets_selfContained {parameters : Parameters} {h : HierarchySelection}
    {r : Declared (List Expr)} (hr : c.levelSets parameters h = .ok r) :
    SelfContained (Expr.identifiersOf r.value) r.declarations := by
  unfold levelSets at hr
  generalize h.activeLevels = levels at hr
  cases hpivot : levels.findIdx? (!·.isSimple parameters) with
  | none =>
    have hd : (Linkage.of parameters levels).declares = false := by simp [Linkage.of, hpivot]
    have hp : (Linkage.of parameters levels).pivot = none := hpivot
    simp only [hp, Option.bind_none, Option.map_none] at hr
    obtain ⟨hv, hds⟩ := levelSetsFrom_undeclared hc hd hr
    rw [hv, hds]
    exact selfContained_nil
  | some p =>
    obtain ⟨above, l, below, rfl, hlength, hl, habove⟩ := findIdx?_split hpivot
    have hp : (Linkage.of parameters (above ++ l :: below)).pivot = some p := hpivot
    have hget : (above ++ l :: below)[p]? = some l := by
      rw [← hlength]
      simp
    have hdeclares : (Linkage.of parameters (above ++ l :: below)).declares =
        decide ((above ++ l :: below).length > 1) := by
      simp only [Linkage.of, hpivot, Option.isSome_some, Bool.true_and]
    simp only [hp, Option.bind_some, hget, Option.map_some] at hr
    by_cases hseveral : (above ++ l :: below).length > 1
    · have hd := hdeclares.trans (decide_eq_true hseveral)
      obtain ⟨hv, hpivoted⟩ := levelSetsFrom_ahead hc hd hp (by simpa using hl)
        ((Nat.zero_add _).trans hlength) (fun a ha => by simpa using habove a ha) hr
      exact ⟨hv, hpivoted.grounded⟩
    · have hd := hdeclares.trans (decide_eq_false hseveral)
      rw [List.length_append, List.length_cons] at hseveral
      have habove : above = [] := List.eq_nil_of_length_eq_zero (by omega)
      have hbelow : below = [] := List.eq_nil_of_length_eq_zero (by omega)
      subst habove hbelow hlength
      obtain ⟨hv, hds⟩ := levelSetsFrom_single hc hd hp hr
      rw [hv, hds]
      exact selfContained_nil

end
end Compiler
end CubeQuery
