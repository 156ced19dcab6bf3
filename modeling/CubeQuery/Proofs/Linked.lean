import CubeQuery.Proofs.LevelReferences
import CubeQuery.Proofs.Runs

/-!
# Levels limited by each other

What becomes of the sets of the levels in use when a hierarchy is compiled. While it goes through
the levels, compilation carries a reference along: the set that the next level is limited to. With
several levels and a pivot among them,

* down to the pivot the reference is the pivot's set (`behind_above`),
* from there on it is the set of the level before (`behind_below`),

and every level is declared under its name (`levelSetsFrom_declares`). Without a pivot, or with one
level only, the sets stand as they are (`levelSetsFrom_plain`). `levels_linked` says so of a
whole hierarchy.
-/

namespace CubeQuery.Compiler

/-! ## The reference -/

/-- The reference that holds behind several levels whose sets are declared. -/
def Linkage.behind (k : Linkage) (parameters : Parameters) (h : Hierarchy) :
    Nat → Option Expr → List LevelSelection → Option Expr
  | _, reference, [] => reference
  | i, reference, l :: ls =>
    k.behind parameters h (i + 1) (k.next parameters h i reference l) ls

section
variable {k : Linkage} {parameters : Parameters} {h : Hierarchy} {p : Nat}

theorem behind_concat (i : Nat) (reference : Option Expr) (ls : List LevelSelection)
    (l : LevelSelection) :
    k.behind parameters h i reference (ls ++ [l]) =
      k.next parameters h (i + ls.length) (k.behind parameters h i reference ls) l := by
  induction ls generalizing i reference with
  | nil => rfl
  | cons l' ls ih =>
    rw [List.cons_append, Linkage.behind, ih, Linkage.behind, List.length_cons,
      Nat.add_assoc, Nat.add_comm 1]

/-- Simple levels above the pivot pass the reference on. -/
theorem behind_above (hk : k.pivot = some p) {ls : List LevelSelection} :
    ∀ {i : Nat} (reference : Option Expr), i + ls.length ≤ p →
      (∀ l ∈ ls, l.isSimple parameters = true) →
        k.behind parameters h i reference ls = reference := by
  induction ls with
  | nil => exact fun _ _ _ => rfl
  | cons l ls ih =>
    intro i reference hi hls
    obtain ⟨hl, hls⟩ := List.forall_mem_cons.1 hls
    rw [List.length_cons] at hi
    have hip : i < p := by omega
    rw [Linkage.behind, next_of_simple hk hip hl, ih reference (by omega) hls]

/-- From the pivot on the reference is the level passed last. -/
theorem behind_below (hk : k.pivot = some p) {ls : List LevelSelection} {l : LevelSelection}
    (reference : Option Expr) (hp : p ≤ ls.length)
    (hl : p = ls.length → l.isSimple parameters = false) :
    k.behind parameters h 0 reference (ls ++ [l]) =
      some (.identifier (levelSetName h l.level)) := by
  rw [behind_concat, Nat.zero_add]
  rcases Nat.eq_or_lt_of_le hp with heq | hlt
  · exact next_of_not_simple (hl heq)
  · exact next_of_behind hk hlt

end

/-! ## The sets -/

section
variable {c : Compiler} {parameters : Parameters} {h : HierarchySelection} {k : Linkage}

/-- Where the sets are declared, each level stands under its name, with its set limited by the
reference that the levels before it leave. -/
theorem levelSetsFrom_declares (hd : k.declares = true) {ls : List LevelSelection} :
    ∀ {owns : List Expr}, ls.mapM (c.levelSet parameters h.hierarchy) = .ok owns →
      ∀ (i : Nat) (reference : Option Expr), ∃ ds,
        c.levelSetsFrom parameters h k i reference ls =
            .ok ⟨ls.map fun l => .identifier (levelSetName h.hierarchy l.level), ds⟩ ∧
          ds.length = ls.length ∧
          ∀ (j : Nat) (l : LevelSelection) (own : Expr), ls[j]? = some l → owns[j]? = some own →
            ds[j]? = some (.set (levelSetName h.hierarchy l.level)
              (restricted h k (i + j)
                (k.behind parameters h.hierarchy i reference (ls.take j)) l own)) := by
  induction ls with
  | nil =>
    intro owns _ i reference
    exact ⟨[], rfl, rfl, fun j l own hl => by cases hl⟩
  | cons l ls ih =>
    intro owns howns i reference
    rw [List.mapM_cons] at howns
    obtain ⟨own, hown, howns⟩ := bind_eq_ok.1 howns
    obtain ⟨owns, hrest, howns⟩ := bind_eq_ok.1 howns
    cases howns
    obtain ⟨ds, hds, hlength, hdeclared⟩ :=
      ih hrest (i + 1) (k.next parameters h.hierarchy i reference l)
    refine ⟨.set (levelSetName h.hierarchy l.level) (restricted h k i reference l own) :: ds,
      levelSetsFrom_cons_eq_ok.2 ⟨own, hown, _, .inl ⟨hd, hds, rfl⟩⟩, congrArg (· + 1) hlength, ?_⟩
    intro j l' own' hl' hown'
    cases j with
    | zero =>
      cases hl'
      cases hown'
      rfl
    | succ j =>
      have hnext := hdeclared j l' own' hl' hown'
      rw [Nat.add_assoc, Nat.add_comm 1] at hnext
      exact hnext

/-- Where the sets are not declared and none of them is limited, they stand as they are. -/
theorem levelSetsFrom_plain (hd : k.declares = false) {ls : List LevelSelection} :
    ∀ {owns : List Expr}, ls.mapM (c.levelSet parameters h.hierarchy) = .ok owns →
      ∀ (i : Nat) (reference : Option Expr),
        (∀ j < ls.length, ∀ l own, restricted h k (i + j) reference l own = own) →
          c.levelSetsFrom parameters h k i reference ls = .ok ⟨owns, []⟩ := by
  induction ls with
  | nil =>
    intro owns howns i reference _
    cases howns
    rfl
  | cons l ls ih =>
    intro owns howns i reference hplain
    rw [List.mapM_cons] at howns
    obtain ⟨own, hown, howns⟩ := bind_eq_ok.1 howns
    obtain ⟨owns, hrest, howns⟩ := bind_eq_ok.1 howns
    cases howns
    have hothers : c.levelSetsFrom parameters h k (i + 1) reference ls = .ok ⟨owns, []⟩ := by
      refine ih hrest (i + 1) reference fun j hj l' own' => ?_
      have hj' := hplain (j + 1) (Nat.succ_lt_succ hj) l' own'
      rwa [Nat.add_comm j, ← Nat.add_assoc] at hj'
    have hself : restricted h k i reference l own = own :=
      hplain 0 (Nat.succ_pos _) l own
    refine levelSetsFrom_cons_eq_ok.2 ⟨own, hown, _, .inr ⟨hd, hothers, ?_⟩⟩
    rw [hself]

theorem length_levelSetsFrom {ls : List LevelSelection} :
    ∀ {i : Nat} {reference : Option Expr} {r : Declared (List Expr)},
      c.levelSetsFrom parameters h k i reference ls = .ok r → r.value.length = ls.length := by
  induction ls with
  | nil =>
    intro i reference r hr
    cases hr
    rfl
  | cons l ls ih =>
    intro i reference r hr
    obtain ⟨_, -, others, ⟨-, hothers, rfl⟩ | ⟨-, hothers, rfl⟩⟩ := levelSetsFrom_cons_eq_ok.1 hr
    · exact congrArg (· + 1) (ih hothers)
    · exact congrArg (· + 1) (ih hothers)

end

/-! ## Hierarchies -/

/-- Several levels with a pivot at `p`: each has its set declared under its name, in their order.
In a consistent hierarchy a level above the pivot is limited to the pivot, a level below it to the
level before, and the pivot itself and all levels are not limited. -/
structure LinkedSets (h : HierarchySelection) (levels : List LevelSelection) (owns : List Expr)
    (p : Nat) (ds : List Declaration) : Prop where
  length_eq : ds.length = levels.length
  unlimited : ∀ (i : Nat) (l : LevelSelection) (own : Expr),
    levels[i]? = some l → owns[i]? = some own →
      h.consistent = false ∨ i = p ∨ l.level.isAll = true →
        ds[i]? = some (.set (levelSetName h.hierarchy l.level) own)
  above : ∀ (i : Nat) (l : LevelSelection) (own : Expr) (pivot : LevelSelection),
    levels[i]? = some l → owns[i]? = some own → levels[p]? = some pivot →
      h.consistent = true → l.level.isAll = false → i < p →
        ds[i]? = some (.set (levelSetName h.hierarchy l.level)
          (.function "Exists" [own, .identifier (levelSetName h.hierarchy pivot.level)]))
  below : ∀ (i : Nat) (before l : LevelSelection) (own : Expr),
    levels[i]? = some before → levels[i + 1]? = some l → owns[i + 1]? = some own →
      h.consistent = true → l.level.isAll = false → p ≤ i →
        ds[i + 1]? = some (.set (levelSetName h.hierarchy l.level)
          (.function "Exists" [own, .identifier (levelSetName h.hierarchy before.level)]))

/-- What the levels in use contribute to the set of their hierarchy, and what they declare, where
`owns` are their own sets. -/
structure Contributed (parameters : Parameters) (h : HierarchySelection) (owns : List Expr)
    (sets : Declared (List Expr)) : Prop where
  linked : ∀ p, h.activeLevels.findIdx? (!·.isSimple parameters) = some p →
    2 ≤ h.activeLevels.length →
      sets.value = h.activeLevels.map (fun l => .identifier (levelSetName h.hierarchy l.level)) ∧
        LinkedSets h h.activeLevels owns p sets.declarations
  plain : h.activeLevels.findIdx? (!·.isSimple parameters) = none ∨ h.activeLevels.length < 2 →
    sets = ⟨owns, []⟩

section
variable {c : Compiler} {parameters : Parameters} {h : HierarchySelection}

theorem levelSets_linked {owns : List Expr}
    (howns : h.activeLevels.mapM (c.levelSet parameters h.hierarchy) = .ok owns) {p : Nat}
    (hp : h.activeLevels.findIdx? (!·.isSimple parameters) = some p)
    (hseveral : 2 ≤ h.activeLevels.length) :
    ∃ ds, c.levelSets parameters h = .ok
        ⟨h.activeLevels.map fun l => .identifier (levelSetName h.hierarchy l.level), ds⟩ ∧
      LinkedSets h h.activeLevels owns p ds := by
  simp only [levelSets]
  generalize h.activeLevels = levels at howns hp hseveral ⊢
  obtain ⟨hlt, hpivot, hsimple⟩ := List.findIdx?_eq_some_iff_getElem.1 hp
  have hk : (Linkage.of parameters levels).pivot = some p := hp
  have hd : (Linkage.of parameters levels).declares = true := by
    simp only [Linkage.of, hp, Option.isSome_some, Bool.true_and, decide_eq_true_eq]
    exact hseveral
  generalize Linkage.of parameters levels = k at hk hd ⊢
  have hget : levels[p]? = some levels[p] := List.getElem?_eq_getElem hlt
  simp only [hk, Option.bind_some, hget, Option.map_some]
  obtain ⟨ds, hds, hlength, hdeclared⟩ := levelSetsFrom_declares hd howns 0
    (some (.identifier (levelSetName h.hierarchy levels[p].level)))
  refine ⟨ds, hds, hlength, ?_, ?_, ?_⟩
  · intro i l own hl hown hfree
    rw [hdeclared i l own hl hown, Nat.zero_add, restricted, hk]
    rcases hfree with hfree | hfree | hfree <;> simp [hfree]
  · intro i l own pivot hl hown hpl hconsistent hall hip
    have habove : ∀ l ∈ levels.take i, l.isSimple parameters = true := by
      intro l hl
      obtain ⟨j, hj, rfl⟩ := List.mem_take_iff_getElem.1 hl
      simpa using hsimple j (by omega)
    have hle : 0 + (levels.take i).length ≤ p := by
      rw [List.length_take]
      omega
    have hne : p ≠ i := by omega
    rw [hget] at hpl
    cases hpl
    rw [hdeclared i l own hl hown, Nat.zero_add, behind_above hk _ hle habove]
    simp [restricted, existing, hk, hne, hconsistent, hall]
  · intro i before l own hbefore hl hown hconsistent hall hpi
    obtain ⟨hi, rfl⟩ := List.getElem?_eq_some_iff.1 hbefore
    have hbehind : k.behind parameters h.hierarchy 0
        (some (.identifier (levelSetName h.hierarchy levels[p].level))) (levels.take (i + 1)) =
        some (.identifier (levelSetName h.hierarchy levels[i].level)) := by
      have htake : (levels.take i).length = i := List.length_take_of_le (Nat.le_of_lt hi)
      rw [List.take_succ_eq_append_getElem hi]
      refine behind_below hk _ (htake.symm ▸ hpi) fun heq => ?_
      obtain rfl : p = i := heq.trans htake
      simpa using hpivot
    have hne : p ≠ i + 1 := by omega
    rw [hdeclared (i + 1) l own hl hown, Nat.zero_add, hbehind]
    simp [restricted, existing, hk, hne, hconsistent, hall]

theorem levelSets_plain {owns : List Expr}
    (howns : h.activeLevels.mapM (c.levelSet parameters h.hierarchy) = .ok owns)
    (hfew : h.activeLevels.findIdx? (!·.isSimple parameters) = none ∨
      h.activeLevels.length < 2) :
    c.levelSets parameters h = .ok ⟨owns, []⟩ := by
  unfold levelSets
  generalize h.activeLevels = levels at howns hfew ⊢
  cases hp : levels.findIdx? (!·.isSimple parameters) with
  | none =>
    have hk : (Linkage.of parameters levels).pivot = none := hp
    have hd : (Linkage.of parameters levels).declares = false := by simp [Linkage.of, hp]
    simp only [hk, Option.bind_none, Option.map_none]
    refine levelSetsFrom_plain hd howns 0 none fun j _ l own => ?_
    rw [restricted, existing, ite_self]
  | some p =>
    have hfew : levels.length < 2 := hfew.resolve_left (by simp [hp])
    have hk : (Linkage.of parameters levels).pivot = some p := hp
    have hd : (Linkage.of parameters levels).declares = false := by
      have hnot : ¬levels.length > 1 := by omega
      simp [Linkage.of, hnot]
    obtain ⟨hlt, -⟩ := List.findIdx?_eq_some_iff_getElem.1 hp
    refine levelSetsFrom_plain hd howns 0 _ fun j hj l own => ?_
    -- the only level is the pivot
    have hjp : (Linkage.of parameters levels).pivot = some (0 + j) := by
      rw [hk]
      congr 1
      omega
    simp [restricted, hjp]

theorem levelSets_contributed {owns : List Expr}
    (howns : h.activeLevels.mapM (c.levelSet parameters h.hierarchy) = .ok owns) :
    ∃ sets, c.levelSets parameters h = .ok sets ∧ Contributed parameters h owns sets := by
  by_cases hfew : h.activeLevels.findIdx? (!·.isSimple parameters) = none ∨
      h.activeLevels.length < 2
  · refine ⟨⟨owns, []⟩, levelSets_plain howns hfew, fun p hp hseveral => ?_, fun _ => rfl⟩
    rcases hfew with hnone | hfew
    · rw [hp] at hnone
      cases hnone
    · exact absurd hseveral (Nat.not_le.2 hfew)
  · obtain ⟨hpivot, hseveral⟩ := not_or.1 hfew
    obtain ⟨p, hp⟩ := Option.ne_none_iff_exists'.1 hpivot
    obtain ⟨ds, hds, hlinked⟩ := levelSets_linked howns hp (Nat.not_lt.1 hseveral)
    refine ⟨_, hds, fun p' hp' _ => ?_, fun hfew' => absurd hfew' hfew⟩
    rw [hp] at hp'
    cases hp'
    exact ⟨rfl, hlinked⟩

end

/-- Where nothing else than the lowest level counts, the last of the sets is the result. -/
theorem joinedLevels_of_levelSets {c : Compiler} {q : Query} {h : HierarchySelection}
    {sets : Declared (List Expr)} (hsets : c.levelSets q.parameters h = .ok sets)
    (hne : sets.value ≠ []) (location : Location) :
    ∃ joined, c.joinedLevels q h location = .ok ⟨some joined, sets.declarations⟩ ∧
      (q.onlyLowestLevels location = true → sets.value.getLast? = some joined) ∧
        (q.onlyLowestLevels location = false → ∃ union, unionSet sets.value = some union ∧
          joined = if h.needsHierarchize then .function "Hierarchize" [union] else union) := by
  have hjoined : c.joinedLevels q h location = _ := joinedLevels_eq_ok.2 ⟨sets, hsets, rfl⟩
  rw [hjoined]
  cases hlowest : q.onlyLowestLevels location with
  | true =>
    refine ⟨sets.value.getLast hne, ?_, fun _ => List.getLast?_eq_some_getLast hne, nofun⟩
    rw [if_pos rfl, List.getLast?_eq_some_getLast hne]
  | false =>
    obtain ⟨union, hunion⟩ : ∃ union, unionSet sets.value = some union := by
      unfold unionSet
      split
      · exact absurd ‹_› hne
      · exact ⟨_, rfl⟩
      · exact ⟨_, rfl⟩
    refine ⟨_, ?_, nofun, fun _ => ⟨union, hunion, rfl⟩⟩
    rw [hunion]
    cases h.needsHierarchize <;> rfl

/-- **Levels limited by each other.** Whatever the query and the reader: if the sets of the levels
in use can be compiled one by one, the levels of the hierarchy can be compiled together. Several
levels with a pivot among them are declared under their names, each with its own set or what of it
exists with the set that it is limited to. In every other case nothing is declared and each level
contributes its own set. Where only the lowest level counts, as it always does on the filter axis,
the contribution of the last level is the result and is not brought into any order. Without an
override the hierarchy declares no set but these. -/
theorem levels_linked (c : Compiler) (q : Query) (h : HierarchySelection) (location : Location)
    (owns : List Expr) (hused : h.activeLevels ≠ [])
    (howns : h.activeLevels.mapM (c.levelSet q.parameters h.hierarchy) = .ok owns) :
    ∃ sets : Declared (List Expr), c.levelSets q.parameters h = .ok sets ∧
      Contributed q.parameters h owns sets ∧
      (∃ joined, c.joinedLevels q h location = .ok ⟨some joined, sets.declarations⟩ ∧
        (q.onlyLowestLevels location = true →
          sets.value[h.activeLevels.length - 1]? = some joined) ∧
        (q.onlyLowestLevels location = false → ∃ union, unionSet sets.value = some union ∧
          joined = if h.needsHierarchize then .function "Hierarchize" [union] else union)) ∧
      q.onlyLowestLevels .filter = true ∧
      ∀ r, h.shape.base.override = none → c.hierarchySet q h location = .ok r →
        r.declarations = sets.declarations := by
  obtain ⟨sets, hsets, hcontributed⟩ := levelSets_contributed howns
  have hlength : sets.value.length = h.activeLevels.length := length_levelSetsFrom hsets
  have hne : sets.value ≠ [] := by
    intro hnil
    rw [hnil] at hlength
    exact hused (List.eq_nil_of_length_eq_zero hlength.symm)
  obtain ⟨joined, hjoined, hlowest, hall⟩ := joinedLevels_of_levelSets hsets hne location
  refine ⟨sets, hsets, hcontributed, ⟨joined, hjoined, fun hl => ?_, hall⟩, ?_, ?_⟩
  · rw [← hlength, ← List.getLast?_eq_getElem?]
    exact hlowest hl
  · simp [Query.onlyLowestLevels]
  · intro r hoverride hr
    rcases hierarchySet_eq_ok.1 hr with
      ⟨hno, -⟩ | ⟨-, ⟨hno, -⟩, -⟩ | ⟨-, -, levels, hlevels, _, -, rfl⟩
    · exact absurd hoverride hno
    · exact absurd hno hused
    · rw [hjoined] at hlevels
      cases hlevels
      rfl

/-- Years, quarters, months and days below an all level. -/
def calendarEntry : CubeEntry where
  name := "Visits"
  dimensions := [
    { name := "Time"
      hierarchies := [
        { name := "Time"
          levels := [
            { name := "(All)", kind := .all },
            { name := "Year", members := [["2020"]] },
            { name := "Quarter", members := [["2020", "Q1"], ["2020", "Q2"]] },
            { name := "Month", members := [["2020", "Q1", "1"], ["2020", "Q2", "4"]] },
            { name := "Day", members := [["2020", "Q1", "1", "31"]] }] }] }]

/-- All levels, with one quarter and the days of a filter. -/
def visitsByDay : Query :=
  (Query.new "q" calendarEntry.link).afterAll [.move "Time" .rows none,
    .hierarchy "Time" (.includeLevel "(All)"), .hierarchy "Time" (.includeLevel "Year"),
    .hierarchy "Time" (.includeLevel "Month"), .hierarchy "Time" (.includeLevel "Day"),
    .hierarchy "Time" (.level "Day" (.shape (.addFilter (.predicate "[Measures].[Visits] > 9")))),
    .pickMember .inclusion "Time" "[Time].[2020].[Q1]"]

/-- The quarter is the pivot: the year is limited to it, the months too, and the days to the months,
although they are filtered themselves. On the filter axis only the days count. -/
theorem levels_linked_visitsByDay :
    ∃ h ds, visitsByDay.hierarchy? "Time" = some h ∧
      joinedLevels { source := calendarEntry.link.source } visitsByDay h .filter =
        .ok ⟨some (.identifier (.ofParts ["Time", "Time", "Day"])), ds⟩ ∧
      ds.length = 5 ∧
      (∃ all, ds[0]? = some (.set (.ofParts ["Time", "Time", "(All)"]) all)) ∧
      (∃ year, ds[1]? = some (.set (.ofParts ["Time", "Time", "Year"])
        (.function "Exists" [year, .identifier (.ofParts ["Time", "Time", "Quarter"])]))) ∧
      ∃ day, ds[4]? = some (.set (.ofParts ["Time", "Time", "Day"])
        (.function "Exists" [day, .identifier (.ofParts ["Time", "Time", "Month"])])) := by
  let c : Compiler := { source := calendarEntry.link.source }
  obtain ⟨h, hh, hcheck⟩ := (Option.any_eq_true _ _).1 (by decide +kernel :
    (visitsByDay.hierarchy? "Time").any (fun h =>
      (h.activeLevels.mapM (c.levelSet visitsByDay.parameters h.hierarchy)).toOption.any
          (·.length == 5) &&
        h.consistent &&
        decide (h.activeLevels.map (fun l => (levelSetName h.hierarchy l.level, l.level.isAll)) =
          [(.ofParts ["Time", "Time", "(All)"], true), (.ofParts ["Time", "Time", "Year"], false),
            (.ofParts ["Time", "Time", "Quarter"], false),
            (.ofParts ["Time", "Time", "Month"], false),
            (.ofParts ["Time", "Time", "Day"], false)]) &&
        decide (h.activeLevels.findIdx? (!·.isSimple visitsByDay.parameters) = some 2)) = true)
  simp only [Bool.and_eq_true, decide_eq_true_eq] at hcheck
  obtain ⟨⟨⟨howns, hconsistent⟩, hlevels⟩, hp⟩ := hcheck
  obtain ⟨owns, howns, hlength⟩ := any_toOption_eq_true.1 howns
  have hlength : owns.length = 5 := beq_iff_eq.1 hlength
  have hlevel : ∀ (i : Nat) (name : Identifier) (all : Bool), (h.activeLevels.map fun l =>
      (levelSetName h.hierarchy l.level, l.level.isAll))[i]? = some (name, all) →
        ∃ l, h.activeLevels[i]? = some l ∧ levelSetName h.hierarchy l.level = name ∧
          l.level.isAll = all := by
    intro i name all hi
    rw [List.getElem?_map, Option.map_eq_some_iff] at hi
    obtain ⟨l, hl, heq⟩ := hi
    exact ⟨l, hl, congrArg Prod.fst heq, congrArg Prod.snd heq⟩
  rw [hlevels] at hlevel
  obtain ⟨all, hall, hallName, hallKind⟩ := hlevel 0 _ _ rfl
  obtain ⟨year, hyear, hyearName, hyearKind⟩ := hlevel 1 _ _ rfl
  obtain ⟨quarter, hquarter, hquarterName, -⟩ := hlevel 2 _ _ rfl
  obtain ⟨month, hmonth, hmonthName, -⟩ := hlevel 3 _ _ rfl
  obtain ⟨day, hday, hdayName, hdayKind⟩ := hlevel 4 _ _ rfl
  have hcount : h.activeLevels.length = 5 := by simpa using congrArg List.length hlevels
  have hused : h.activeLevels ≠ [] := List.ne_nil_of_length_eq_add_one hcount
  obtain ⟨sets, -, hcontributed, ⟨joined, hjoined, hlast, -⟩, hfilter, -⟩ :=
    levels_linked c visitsByDay h .filter owns hused howns
  obtain ⟨hvalue, hlinked⟩ := hcontributed.linked 2 hp (by omega)
  have hown : ∀ i, i < 5 → ∃ own, owns[i]? = some own := fun i hi =>
    ⟨_, List.getElem?_eq_getElem (hlength.symm ▸ hi)⟩
  obtain ⟨allSet, hallSet⟩ := hown 0 (by decide)
  obtain ⟨yearSet, hyearSet⟩ := hown 1 (by decide)
  obtain ⟨daySet, hdaySet⟩ := hown 4 (by decide)
  refine ⟨h, sets.declarations, hh, ?_, hlinked.length_eq.trans hcount, ⟨allSet, ?_⟩,
    ⟨yearSet, ?_⟩, daySet, ?_⟩
  · have hday' := hlast hfilter
    rw [hcount, hvalue, List.getElem?_map, hday, Option.map_some, hdayName] at hday'
    rw [hjoined, ← hday']
  · rw [hlinked.unlimited 0 all allSet hall hallSet (.inr (.inr hallKind)), hallName]
  · rw [hlinked.above 1 year yearSet quarter hyear hyearSet hquarter hconsistent hyearKind
      (by decide), hyearName, hquarterName]
  · rw [hlinked.below 3 month day daySet hmonth hday hdaySet hconsistent hdayKind (by decide),
      hdayName, hmonthName]

end CubeQuery.Compiler
