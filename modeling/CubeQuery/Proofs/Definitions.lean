import CubeQuery.Proofs.Assembly
import CubeQuery.Proofs.Coherent
import CubeQuery.Proofs.Constructed
import Mathlib.Data.List.Induction

/-!
# Definitions in force

The registrations of a run are the definitions of calculated members and measures that it accepts,
in order. Each hierarchy keeps the latest definition of each of its members, and the query keeps the
latest one of each measure (`holds_latest`). A declared member is looked up there, so defining it
anew takes effect wherever it is in use. A declared measure is not: the measure block holds a copy
of its own. The copy is the latest definition as long as no change outdates it
(`definitions_latest`); a measure that is defined anew while it stands in the block stays there what
it was (`definitions_stale`).
-/

namespace CubeQuery

/-! ## Registrations -/

/-- A definition that was registered. -/
structure Registration where
  /-- The position of the hierarchy, or none for a measure. -/
  owner : Option Nat
  uniqueName : String
  formula : String
  properties : Bindings String

/-- A calculated member registered with the hierarchy at a position. -/
def CalculatedMember.registration (m : CalculatedMember) (i : Nat) : Registration :=
  ⟨some i, m.uniqueName, m.formula, m.properties⟩

def CalculatedMeasure.registration (m : CalculatedMeasure) : Registration :=
  ⟨none, m.uniqueName, m.formula, m.properties⟩

/-- The latest registration under a unique name. -/
def latest? (log : List Registration) (uniqueName : String) : Option Registration :=
  (log.filter (·.uniqueName = uniqueName)).getLast?

/-- The latest registration of an owner under a unique name. -/
def latestOf? (log : List Registration) (owner : Option Nat) (uniqueName : String) :
    Option Registration :=
  (log.filter fun r => r.owner = owner ∧ r.uniqueName = uniqueName).getLast?

theorem latestOf?_concat (log : List Registration) (r : Registration) (owner : Option Nat)
    (uniqueName : String) :
    latestOf? (log ++ [r]) owner uniqueName =
      if r.owner = owner ∧ r.uniqueName = uniqueName then some r
      else latestOf? log owner uniqueName := by
  by_cases h : r.owner = owner ∧ r.uniqueName = uniqueName <;> simp [latestOf?, h]

/-- Where a single owner registers a name, its latest registration is the latest of all. -/
theorem latest?_of_latestOf? {log : List Registration} {r : Registration}
    (hr : latestOf? log r.owner r.uniqueName = some r)
    (hsole : ∀ r' ∈ log, r'.uniqueName = r.uniqueName → r'.owner = r.owner) :
    latest? log r.uniqueName = some r := by
  rw [← hr, latest?, latestOf?]
  congr 1
  refine List.filter_congr fun r' hr' => decide_eq_decide.2 ?_
  exact ⟨fun hname => ⟨hsole r' hr' hname, hname⟩, And.right⟩

namespace Query

/-- What a change registers if it is accepted. -/
def registration? (q : Query) : Change → Option Registration
  | .hierarchy name (.includeCalculated m _) => (q.find? name).map m.registration
  | .addCalculatedMember m => (q.indexOf? m.hierarchy).map m.registration
  | .createCalculatedMember hierarchy name formula properties parent =>
    match q.createCalculatedMember hierarchy name formula properties parent with
    | .ok (_, m) => (q.indexOf? m.hierarchy).map m.registration
    | .error _ => none
  | .createCalculatedMeasure name formula properties =>
    some ((CalculatedMeasure.new name formula).withProperties properties).registration
  | _ => none

/-- What a sequence of changes registers, in order. Rejected changes register nothing. -/
def registrations (q : Query) : List Change → List Registration
  | [] => []
  | c :: cs =>
    (if (q.change c).isOk then (q.registration? c).toList else []) ++ (q.after c).registrations cs

theorem registrations_append (q : Query) (cs ds : List Change) :
    q.registrations (cs ++ ds) = q.registrations cs ++ (q.afterAll cs).registrations ds := by
  induction cs generalizing q with
  | nil => rfl
  | cons c cs ih =>
    rw [List.cons_append, registrations, ih, registrations, List.append_assoc, afterAll_cons]

theorem registrations_concat_of_ok {q r : Query} {cs : List Change} {c : Change}
    (h : (q.afterAll cs).change c = .ok r) :
    q.registrations (cs ++ [c]) =
      q.registrations cs ++ ((q.afterAll cs).registration? c).toList := by
  have hok : ((q.afterAll cs).change c).isOk = true := isOk_eq_true.2 ⟨r, h⟩
  rw [registrations_append, registrations, registrations, List.append_nil, if_pos hok]

theorem registrations_concat_of_error {q : Query} {cs : List Change} {c : Change} {e : Rejection}
    (h : (q.afterAll cs).change c = .error e) :
    q.registrations (cs ++ [c]) = q.registrations cs := by
  rw [registrations_append, registrations, registrations, h]
  exact List.append_nil _

/-- The definition is the one that its owner keeps. -/
inductive Holds (q : Query) : Registration → Prop where
  | member {i : Nat} {s : HierarchySelection} {m : CalculatedMember}
    (hs : q.hierarchies[i]? = some s) (hm : m ∈ s.calculated) : Holds q (m.registration i)
  | measure {m : CalculatedMeasure} (hm : m ∈ q.calculatedMeasures) : Holds q m.registration

end Query

/-! ## What one change registers -/

namespace HierarchySelection

/-- A calculated member is registered, and the register is left alone otherwise. -/
def Files (s : HierarchySelection) (m : CalculatedMember) (t : HierarchySelection) : Prop :=
  ∃ u k, s.register m = .ok (u, k) ∧ t.calculated = u.calculated

/-- What is in the register then was registered last, or was there under another name. -/
theorem Files.mem {s t : HierarchySelection} {m m' : CalculatedMember}
    (hs : (s.calculated.map (·.uniqueName)).Nodup) (h : s.Files m t) (hm' : m' ∈ t.calculated) :
    m' = m ∨ m' ∈ s.calculated ∧ m'.uniqueName ≠ m.uniqueName := by
  obtain ⟨u, k, hu, hcalculated⟩ := h
  rw [hcalculated] at hm'
  rcases register_eq_ok.1 hu with ⟨-, ⟨hk, rfl⟩ | ⟨hnone, -, rfl⟩⟩
  · obtain ⟨hlt, hname, -⟩ := List.findIdx?_eq_some_iff_getElem.1 hk
    obtain ⟨j, hj⟩ := List.mem_iff_getElem?.1 hm'
    rcases eq_or_ne k j with rfl | hkj
    · rw [List.getElem?_set_self hlt] at hj
      exact .inl (Option.some.inj hj).symm
    · rw [List.getElem?_set_ne hkj] at hj
      refine .inr ⟨List.mem_of_getElem? hj, fun heq => hkj ?_⟩
      refine (List.getElem?_inj (by simpa using hlt) hs).1 ?_
      rw [List.getElem?_map, List.getElem?_map, hj, List.getElem?_eq_getElem hlt, Option.map_some,
        Option.map_some, heq, of_decide_eq_true hname]
  · rcases List.mem_append.1 hm' with hold | hnew
    · refine .inr ⟨hold, fun heq => mem_calculatedNames hnone ?_⟩
      exact heq ▸ List.mem_map_of_mem hold
    · exact .inl (List.mem_singleton.1 hnew)

end HierarchySelection

namespace Query

/-- The change defines a measure anew that stands in the block, or puts a calculated measure into
the block that need not be registered at all. -/
def outdates (q : Query) : Change → Bool
  | .createCalculatedMeasure name _ _ =>
    q.block.measures.any fun m => m.isCalculated && m.name = name
  | .block (.add m) | .block (.place m _) => m.isCalculated
  | _ => false

theorem mem_of_block {q : Query} {c : BlockChange} (hc : q.outdates (.block c) = false)
    {m : CalculatedMeasure} (hm : .calculated m ∈ (q.block.change c).measures) :
    .calculated m ∈ q.block.measures := by
  have hother : ∀ {m' : Measure}, m'.isCalculated = false → .calculated m ≠ m' := by
    rintro m' hm' rfl
    cases hm'
  cases c with
  | add m' =>
    have hm : .calculated m ∈ (q.block.add m').measures := hm
    unfold MeasureBlock.add at hm
    split at hm
    · exact hm
    · rcases List.mem_append.1 hm with hold | hnew
      · exact hold
      · exact absurd (List.mem_singleton.1 hnew) (hother hc)
  | place m' position =>
    rcases (List.mem_insertIdx (Nat.min_le_right _ _)).1 hm with hnew | hold
    · exact absurd hnew (hother hc)
    · exact List.mem_of_mem_filter hold
  | erase uniqueName => exact List.mem_of_mem_filter hm
  | clear => exact absurd hm List.not_mem_nil
  | axis | side => exact hm

/-- What an accepted change does to the definitions of a query and to their copies. -/
inductive Redefines (q : Query) : Change → Query → Prop where
  | member {c : Change} {i : Nat} {s t : HierarchySelection} {m : CalculatedMember}
    (hs : q.hierarchies[i]? = some s) (ht : s.Files m t)
    (hc : q.registration? c = some (m.registration i)) :
    Redefines q c { q with hierarchies := q.hierarchies.set i t }
  | measure (name formula : String) (properties : Bindings String) :
    Redefines q (.createCalculatedMeasure name formula properties)
      { q with
        calculatedMeasures := q.calculatedMeasures.filter (·.name ≠ name) ++
          [(CalculatedMeasure.new name formula).withProperties properties] }
  | add {name : String} {m : Measure} (hm : q.measure name = .ok m) :
    Redefines q (.addMeasure name) { q with block := q.block.add m }
  | rest {c : Change} {r : Query} (hc : q.registration? c = none)
    (hregisters : r.hierarchies.map (·.calculated) = q.hierarchies.map (·.calculated))
    (hmeasures : r.calculatedMeasures = q.calculatedMeasures)
    (hblock : q.outdates c = false →
      ∀ m, .calculated m ∈ r.block.measures → .calculated m ∈ q.block.measures) :
    Redefines q c r

/-- A change that leaves the registers alone is of the last kind. -/
theorem redefines_of_update {q r : Query} {c : Change} {name : String}
    {f : HierarchySelection → Except Rejection HierarchySelection}
    (hc : q.registration? c = none) (hf : ∀ s t, f s = .ok t → t.calculated = s.calculated)
    (h : q.update name f = .ok r) : q.Redefines c r := by
  obtain ⟨i, s, t, -, hs, ht, rfl⟩ := exists_of_update h
  exact .rest hc (map_set_eq hs (hf s t ht)) rfl fun _ _ hm => hm

theorem redefines_of_add {q r : Query} {c : Change} {m : CalculatedMember}
    (hc : q.registration? c = (q.indexOf? m.hierarchy).map m.registration)
    (h : q.addCalculatedMember m = .ok r) : q.Redefines c r := by
  obtain ⟨i, hi, -, hs, hh, rfl⟩ := addCalculatedMember_eq_ok.1 h
  obtain ⟨s, t, hs, ht, rfl⟩ := (changeAt_eq_ok_of_lt (lastIndex?_lt hi)).1 hh
  obtain ⟨⟨u, k⟩, hu, ht⟩ := bind_eq_ok.1 ht
  cases ht
  rw [hi] at hc
  exact .member hs ⟨u, k, hu, rfl⟩ hc

theorem change_redefines {q r : Query} {c : Change} (h : q.change c = .ok r) :
    q.Redefines c r := by
  cases c with
  | move name target position =>
    obtain ⟨i, -, -, rfl⟩ := move_eq_ok.1 h
    exact .rest rfl (relocate_map (fun _ _ => rfl) _ _ _) rfl fun _ _ hm => hm
  | swapAxes =>
    cases h
    refine .rest rfl ?_ rfl fun _ _ hm => hm
    exact (relocate_map (fun _ _ => rfl) _ _ _).trans (relocate_map (fun _ _ => rfl) _ _ _)
  | hierarchy name c =>
    obtain ⟨i, s, t, hi, hs, ht, rfl⟩ := exists_of_update h
    cases c with
    | includeCalculated m onLevel =>
      have hm : q.registration? (.hierarchy name (.includeCalculated m onLevel)) =
          some (m.registration i) := by
        rw [registration?, hi]
        rfl
      exact .member hs (HierarchySelection.includeCalculated_calculated ht) hm
    | _ =>
      have hsame : t.calculated = s.calculated :=
        (HierarchySelection.change_calculated ht).resolve_right (by rintro ⟨_, _, ⟨⟩⟩)
      exact .rest rfl (map_set_eq hs hsame) rfl fun _ _ hm => hm
  | pickMember p hierarchy member =>
    obtain ⟨m, -, h⟩ := bind_eq_ok.1 h
    exact redefines_of_update rfl (fun _ _ => HierarchySelection.pickMember_calculated) h
  | range hierarchy start stop =>
    obtain ⟨first, -, h⟩ := bind_eq_ok.1 h
    obtain ⟨last, -, h⟩ := bind_eq_ok.1 h
    exact redefines_of_update rfl (fun _ _ => HierarchySelection.includeRange_calculated) h
  | addCalculatedMember m => exact redefines_of_add rfl h
  | createCalculatedMember hierarchy name formula properties parent =>
    obtain ⟨⟨r', m⟩, hm, h⟩ := bind_eq_ok.1 h
    cases h
    obtain ⟨s, -, hadd, -⟩ := createCalculatedMember_eq_ok.1 hm
    exact redefines_of_add (by rw [registration?, hm]) hadd
  | createCalculatedMeasure name formula properties =>
    obtain ⟨⟨r', m⟩, hm, h⟩ := bind_eq_ok.1 h
    cases h
    obtain ⟨-, rfl, rfl⟩ := createCalculatedMeasure_eq_ok.1 hm
    exact .measure name formula properties
  | addMeasure name =>
    obtain ⟨m, hm, h⟩ := bind_eq_ok.1 h
    cases h
    exact .add hm
  | block c =>
    cases h
    exact .rest rfl rfl rfl fun hc _ hm => mem_of_block hc hm
  | axis | defaultHierarchize =>
    obtain ⟨_, -, h⟩ := bind_eq_ok.1 h
    cases h
    exact .rest rfl rfl rfl fun _ _ hm => hm
  | declareParameters names =>
    cases h
    obtain ⟨p, hp⟩ := q.declareParameters_rest names
    rw [hp]
    exact .rest rfl rfl rfl fun _ _ hm => hm
  | retrieveParameters =>
    cases h
    obtain ⟨p, hp⟩ := q.declareParameters_rest q.parameterNames
    rw [retrieveParameters, hp]
    exact .rest rfl rfl rfl fun _ _ hm => hm
  | setAggregators key names =>
    cases h
    unfold setAggregators
    split <;> exact .rest rfl rfl rfl fun _ _ hm => hm
  | lowestLevelsOnly | visualTotals | visualPattern | setParameter | setParameters =>
    cases h
    exact .rest rfl rfl rfl fun _ _ hm => hm

/-! ## What is kept -/

theorem measureUniqueName_inj {name name' : String}
    (h : measureUniqueName name = measureUniqueName name') : name = name' := by
  have hnames : [measuresName, name] = [measuresName, name'] :=
    Identifier.uniqueName_inj (List.cons_ne_nil _ _) (List.cons_ne_nil _ _) h
  simpa using hnames

/-- What is kept after a change was registered by it, or was kept before and the change registered
nothing under its name. -/
theorem Redefines.holds {q r : Query} {c : Change} (h : q.Redefines c r)
    (hq : ∀ s ∈ q.hierarchies, (s.calculated.map (·.uniqueName)).Nodup) {x : Registration}
    (hx : r.Holds x) : q.registration? c = some x ∨ q.Holds x ∧
      ∀ y, q.registration? c = some y → ¬(y.owner = x.owner ∧ y.uniqueName = x.uniqueName) := by
  cases h with
  | @member c i s t m hs ht hc =>
    have hother : ∀ {x : Registration}, x.owner ≠ some i → ∀ y, q.registration? c = some y →
        ¬(y.owner = x.owner ∧ y.uniqueName = x.uniqueName) := by
      rintro x hx y hy ⟨howner, -⟩
      rw [hc] at hy
      cases hy
      exact hx howner.symm
    cases hx with
    | @member j t' m' ht' hm' =>
      rcases eq_or_ne i j with rfl | hij
      · rw [List.getElem?_set_self (List.getElem?_eq_some_iff.1 hs).1] at ht'
        cases ht'
        rcases ht.mem (hq s (List.mem_of_getElem? hs)) hm' with rfl | ⟨hold, hname⟩
        · exact .inl hc
        · refine .inr ⟨.member hs hold, fun y hy hsame => hname ?_⟩
          rw [hc] at hy
          cases hy
          exact hsame.2.symm
      · rw [List.getElem?_set_ne hij] at ht'
        exact .inr ⟨.member ht' hm', hother fun heq => hij (Option.some.inj heq).symm⟩
    | measure hm => exact .inr ⟨.measure hm, hother (by rintro ⟨⟩)⟩
  | measure name formula properties =>
    cases hx with
    | member hs hm =>
      refine .inr ⟨.member hs hm, ?_⟩
      rintro y ⟨⟩ ⟨⟨⟩, -⟩
    | measure hm =>
      rcases List.mem_append.1 hm with hold | hnew
      · obtain ⟨hold, hname⟩ := List.mem_filter.1 hold
        refine .inr ⟨.measure hold, ?_⟩
        rintro y ⟨⟩ ⟨-, hsame⟩
        exact of_decide_eq_true hname (measureUniqueName_inj hsame).symm
      · rw [List.mem_singleton.1 hnew]
        exact .inl rfl
  | add hm =>
    have hx : q.Holds x := by
      cases hx with
      | member hs hm => exact .member hs hm
      | measure hm => exact .measure hm
    exact .inr ⟨hx, by rintro y ⟨⟩⟩
  | rest hc hregisters hmeasures hblock =>
    have hx : q.Holds x := by
      cases hx with
      | @member i t m ht hm =>
        have hi := congrArg (·[i]?) hregisters
        simp only [List.getElem?_map, ht, Option.map_some] at hi
        obtain ⟨s, hs, hsame⟩ := Option.map_eq_some_iff.1 hi.symm
        exact .member hs (hsame ▸ hm)
      | measure hm => exact .measure (hmeasures ▸ hm)
    exact .inr ⟨hx, fun y hy => by rw [hc] at hy; cases hy⟩

theorem nodup_calculated (name : String) (e : CubeEntry) (cs : List Change) :
    ∀ s ∈ ((new name e.link).afterAll cs).hierarchies, (s.calculated.map (·.uniqueName)).Nodup := by
  have hcoherent : ∀ s ∈ ((new name e.link).afterAll cs).hierarchies, s.Layered ∧ s.Coherent :=
    keeps_writes (fun h hh => ⟨layered_new hh, HierarchySelection.coherent_new h⟩)
      (fun s t hs h => ⟨hs.1.write h, hs.2.write hs.1 h⟩) name cs
  exact fun s hs => (hcoherent s hs).2.calculated_nodup

/-- Hierarchies and query keep the latest definitions. -/
theorem holds_latest (name : String) (e : CubeEntry) {cs : List Change} {x : Registration}
    (hx : ((new name e.link).afterAll cs).Holds x) :
    latestOf? ((new name e.link).registrations cs) x.owner x.uniqueName = some x := by
  induction cs using List.reverseRecOn generalizing x with
  | nil =>
    cases hx with
    | member hs hm =>
      obtain ⟨h, -, rfl⟩ := List.mem_map.1 (List.mem_of_getElem? hs)
      cases hm
    | measure hm => cases hm
  | append_singleton cs c ih =>
    rw [afterAll_append] at hx
    cases h : ((new name e.link).afterAll cs).change c with
    | error r =>
      have hx : ((new name e.link).afterAll cs).Holds x := by
        rwa [afterAll_cons, after_of_error h] at hx
      rw [registrations_concat_of_error h]
      exact ih hx
    | ok r =>
      have hx : r.Holds x := by rwa [afterAll_cons, after_of_ok h] at hx
      rw [registrations_concat_of_ok h]
      rcases (change_redefines h).holds (nodup_calculated name e cs) hx with hnew | ⟨hold, hother⟩
      · rw [hnew, Option.toList_some, latestOf?_concat, if_pos ⟨rfl, rfl⟩]
      · cases hy : ((new name e.link).afterAll cs).registration? c with
        | none =>
          rw [Option.toList_none, List.append_nil]
          exact ih hold
        | some y =>
          rw [Option.toList_some, latestOf?_concat, if_neg (hother y hy)]
          exact ih hold

/-! ## What stands in the block -/

/-- The calculated measures in the block are those that the query keeps. -/
def Current (q : Query) : Prop :=
  ∀ m, .calculated m ∈ q.block.measures → m ∈ q.calculatedMeasures

/-- None of a sequence of changes outdates the block. -/
def keepsCurrent (q : Query) : List Change → Bool
  | [] => true
  | c :: cs => !q.outdates c && (q.after c).keepsCurrent cs

theorem mem_of_measure {q : Query} {name : String} {m : CalculatedMeasure}
    (h : q.measure name = .ok (.calculated m)) : m ∈ q.calculatedMeasures := by
  unfold measure at h
  split at h
  · cases h
  · split at h
    · next m' hm' =>
      cases h
      exact List.mem_of_find?_eq_some hm'
    · cases h

theorem Redefines.current {q r : Query} {c : Change} (h : q.Redefines c r) (hq : q.Current)
    (hc : q.outdates c = false) : r.Current := by
  cases h with
  | member => exact hq
  | measure name formula properties =>
    intro m hm
    refine List.mem_append_left _ (List.mem_filter.2 ⟨hq m hm, decide_eq_true fun hname => ?_⟩)
    have hother := List.any_eq_false.1 hc _ hm
    simp [Measure.isCalculated, Measure.name, hname] at hother
  | @add name m' hm' =>
    intro m hm
    show m ∈ q.calculatedMeasures
    have hm : .calculated m ∈ (q.block.add m').measures := hm
    unfold MeasureBlock.add at hm
    split at hm
    · exact hq m hm
    · rcases List.mem_append.1 hm with hold | hnew
      · exact hq m hold
      · rw [← List.mem_singleton.1 hnew] at hm'
        exact mem_of_measure hm'
  | rest _ _ hmeasures hblock => exact fun m hm => hmeasures ▸ hq m (hblock hc m hm)

theorem Current.afterAll {q : Query} (hq : q.Current) {cs : List Change}
    (hcs : q.keepsCurrent cs = true) : (q.afterAll cs).Current := by
  induction cs generalizing q with
  | nil => exact hq
  | cons c cs ih =>
    obtain ⟨hc, hcs⟩ := Bool.and_eq_true_iff.1 hcs
    rw [afterAll_cons]
    refine ih ?_ hcs
    cases h : q.change c with
    | error e => rwa [after_of_error h]
    | ok r =>
      rw [after_of_ok h]
      exact (change_redefines h).current hq (by simpa using hc)

end Query

/-! ## What is declared -/

namespace Compiler

theorem levelSetsFrom_sets {c : Compiler} {parameters : Parameters} {h : HierarchySelection}
    {k : Linkage} {ls : List LevelSelection} :
    ∀ {i : Nat} {reference : Option Expr} {r : Declared (List Expr)},
      c.levelSetsFrom parameters h k i reference ls = .ok r →
        ∀ d ∈ r.declarations, d.set?.isSome = true := by
  induction ls with
  | nil =>
    intro i reference r hr
    cases hr
    exact List.forall_mem_nil _
  | cons l ls ih =>
    intro i reference r hr
    obtain ⟨own, -, others, ⟨-, hothers, rfl⟩ | ⟨-, hothers, rfl⟩⟩ := levelSetsFrom_cons_eq_ok.1 hr
    · exact List.forall_mem_cons.2 ⟨rfl, ih hothers⟩
    · intro d hd
      exact ih hothers d hd

/-- Hierarchies declare nothing but sets. -/
theorem assembling_sets (c : Compiler) :
    c.Assembling fun _ ds => ∀ d ∈ ds, d.set?.isSome = true where
  nil := List.forall_mem_nil _
  append h h' := List.forall_mem_append.2 ⟨h, h'⟩
  declare _ h := List.forall_mem_append.2 ⟨h, List.forall_mem_singleton.2 rfl⟩
  make h _ := h
  levels hr := levelSetsFrom_sets hr

/-- A member declared with an axis is a measure of the block. -/
theorem measure_of_axisNode {c : Compiler} {q : Query} {location : Location} {axis : AxisName}
    {r : Declared (Option AxisNode)} (hr : c.axisNode q location axis = .ok r) {d : Declaration}
    (hd : d ∈ r.declarations) (hset : d.set? = none) : ∃ m, .calculated m ∈ q.block.measures ∧
      c.declareMember m.uniqueName m.formula m.properties = .ok d := by
  obtain ⟨joined, hjoined, shaped, -, complete, hcomplete, rfl⟩ := axisNode_eq_ok.1 hr
  have hsets : ∀ d ∈ joined.declarations ++
      (c.declaredAxis axis joined.value.single shaped).declarations, d.set?.isSome = true :=
    (assembling_sets c).declaredAxis ((assembling_sets c).joinedHierarchies hjoined)
  rcases List.mem_append.1 hd with hd | hd
  · have hsome := hsets d hd
    rw [hset] at hsome
    cases hsome
  · rcases withMeasures_eq_ok.1 hcomplete with ⟨-, ds, hds, rfl⟩ | ⟨-, rfl⟩
    · exact exists_of_measureDeclarations hds d hd
    · cases hd

/-- Every declared member is one that a hierarchy keeps, or a measure of the block. -/
theorem declared_of_statement {c : Compiler} {q : Query} {st : Statement}
    (hst : c.statement q = .ok st) {d : Declaration} (hd : d ∈ st.declarations)
    (hset : d.set? = none) :
    (∃ (i : Nat) (s : HierarchySelection) (m : CalculatedMember),
      q.hierarchies[i]? = some s ∧ m ∈ s.calculated ∧
        c.declareMember m.uniqueName m.formula m.properties = .ok d) ∨
    ∃ m, .calculated m ∈ q.block.measures ∧
      c.declareMember m.uniqueName m.formula m.properties = .ok d := by
  obtain ⟨members, hmembers, columns, hcolumns, rows, hrows, slicer, hslicer, rfl⟩ :=
    statement_eq_ok.1 hst
  simp only [List.mem_append] at hd
  rcases hd with ((hd | hd) | hd) | hd
  · obtain ⟨m, hm, hdeclared⟩ := mem_of_mapM hmembers d hd
    obtain ⟨s, hs, hm⟩ := List.mem_flatMap.1 hm
    obtain ⟨i, hi⟩ := List.mem_iff_getElem?.1 hs
    exact .inl ⟨i, s, m, hi, hm, hdeclared⟩
  · exact .inr (measure_of_axisNode hcolumns hd hset)
  · exact .inr (measure_of_axisNode hrows hd hset)
  · rcases slicer_eq_ok.1 hslicer with ⟨-, rfl⟩ | ⟨-, hslicer⟩
    · cases hd
    · exact .inr (measure_of_axisNode hslicer hd hset)

/-- Every member that a hierarchy keeps is declared. -/
theorem declared_of_mem {c : Compiler} {q : Query} {st : Statement} (hst : c.statement q = .ok st)
    {m : CalculatedMember} (hm : m ∈ q.calculatedMembers) :
    ∃ d ∈ st.declarations, c.declareMember m.uniqueName m.formula m.properties = .ok d := by
  obtain ⟨members, hmembers, columns, -, rows, -, slicer, -, rfl⟩ := statement_eq_ok.1 hst
  obtain ⟨d, hd, hdeclared⟩ := exists_of_mapM hmembers m hm
  exact ⟨d, by simp [hd], hdeclared⟩

end Compiler

/-- The declaration carries the definition: the name is read off its unique name, the formula is what
the compiler reads in its formula, and the properties are its properties as texts. -/
structure Registration.CarriedBy (x : Registration) (c : Compiler) (id : Identifier)
    (formula : Expr) (properties : List (String × Expr)) : Prop where
  name : Identifier.parse? x.uniqueName = some id
  formula : c.read x.formula = .ok formula
  properties : properties = x.properties.entries.map fun (n, v) => (n, .text v)

theorem Registration.carriedBy_of_declareMember {x : Registration} {c : Compiler}
    {id : Identifier} {formula : Expr} {properties : List (String × Expr)}
    (h : c.declareMember x.uniqueName x.formula x.properties =
      .ok (.member id formula properties)) : x.CarriedBy c id formula properties := by
  obtain ⟨id', hid, body, hbody, heq⟩ := Compiler.declareMember_eq_ok.1 h
  cases heq
  exact ⟨hid, mapError_eq_ok.1 hbody, rfl⟩

/-- The definition is the latest one that its owner registered under its name, and the latest of all
if no other owner registered that name. -/
structure Registration.InForce (x : Registration) (log : List Registration) : Prop where
  ofOwner : latestOf? log x.owner x.uniqueName = some x
  ofAll : (∀ y ∈ log, y.uniqueName = x.uniqueName → y.owner = x.owner) →
    latest? log x.uniqueName = some x

namespace Query

theorem Holds.inForce {name : String} {e : CubeEntry} {cs : List Change} {x : Registration}
    (hx : ((new name e.link).afterAll cs).Holds x) :
    x.InForce ((new name e.link).registrations cs) :=
  ⟨holds_latest name e hx, latest?_of_latestOf? (holds_latest name e hx)⟩

/-- **Definitions in force.** After any changes of a new query on a linked cube, each member that a
statement of the query declares is a calculated member of a hierarchy, declared by its definition in
force, or a measure of the block. A measure is declared by its definition in force if no change
outdates the block. Whether or not one does, and wherever they are in use, the calculated members of
the hierarchies are all declared by theirs. -/
theorem definitions_latest (name : String) (e : CubeEntry) (cs : List Change) {c : Compiler}
    {st : Statement} (hst : c.statement ((new name e.link).afterAll cs) = .ok st) :
    (∀ id formula properties, .member id formula properties ∈ st.declarations →
      (∃ (i : Nat) (s : HierarchySelection) (m : CalculatedMember),
        ((new name e.link).afterAll cs).hierarchies[i]? = some s ∧ m ∈ s.calculated ∧
          (m.registration i).CarriedBy c id formula properties ∧
            (m.registration i).InForce ((new name e.link).registrations cs)) ∨
      ∃ m, .calculated m ∈ ((new name e.link).afterAll cs).block.measures ∧
        m.registration.CarriedBy c id formula properties ∧
          ((new name e.link).keepsCurrent cs = true →
            m.registration.InForce ((new name e.link).registrations cs))) ∧
    ∀ (i : Nat) (s : HierarchySelection),
      ((new name e.link).afterAll cs).hierarchies[i]? = some s → ∀ m ∈ s.calculated,
        (m.registration i).InForce ((new name e.link).registrations cs) ∧
          ∃ id formula properties, .member id formula properties ∈ st.declarations ∧
            (m.registration i).CarriedBy c id formula properties := by
  have hnew : (new name e.link).Current := fun m hm => absurd hm List.not_mem_nil
  constructor
  · intro id formula properties hd
    rcases Compiler.declared_of_statement hst hd rfl with
      ⟨i, s, m, hs, hm, hdeclared⟩ | ⟨m, hm, hdeclared⟩
    · exact .inl ⟨i, s, m, hs, hm, Registration.carriedBy_of_declareMember hdeclared,
        Holds.inForce (.member hs hm)⟩
    · refine .inr ⟨m, hm, Registration.carriedBy_of_declareMember hdeclared, fun hcurrent => ?_⟩
      exact Holds.inForce (.measure (hnew.afterAll hcurrent m hm))
  · intro i s hs m hm
    have hmem : m ∈ ((new name e.link).afterAll cs).calculatedMembers :=
      List.mem_flatMap.2 ⟨s, List.mem_of_getElem? hs, hm⟩
    obtain ⟨d, hd, hdeclared⟩ := Compiler.declared_of_mem hst hmem
    obtain ⟨id, -, body, -, rfl⟩ := Compiler.declareMember_eq_ok.1 hdeclared
    exact ⟨Holds.inForce (.member hs hm), id, body, _, hd,
      Registration.carriedBy_of_declareMember hdeclared⟩

/-- Years and countries, and the units that were sold. -/
def unitsEntry : CubeEntry := { salesEntry with measures := [{ name := "Units" }] }

/-- A sum of years and a measure are defined twice each, the sum in use all the time, the measure
before it is placed. -/
def definedTwice : List Change :=
  let sum (formula : String) : CalculatedMember :=
    .new (unitsEntry.link.hierarchies.headD default) "Sum" formula
  [ .move "Time" .rows none,
    .hierarchy "Time" (.includeCalculated (sum "1") false),
    .createCalculatedMeasure "Margin" "1" .empty,
    .createCalculatedMeasure "Margin" "2" .empty,
    .addMeasure "Margin",
    .addCalculatedMember (sum "2") ]

theorem definitions_latest_definedTwice :
    ∃ st, ((new "q" unitsEntry.link).afterAll definedTwice).statement = .ok st ∧
      (st.memberFormula? "[Measures].[Margin]").isSome = true ∧
      ∀ id formula properties, .member id formula properties ∈ st.declarations →
        ∃ x : Registration, x.formula = "2" ∧
          x.InForce ((new "q" unitsEntry.link).registrations definedTwice) ∧
          x.CarriedBy (Compiler.ofCube unitsEntry.link) id formula properties := by
  have hsecond : ∀ y ∈ (new "q" unitsEntry.link).registrations definedTwice,
      (latestOf? ((new "q" unitsEntry.link).registrations definedTwice) y.owner
        y.uniqueName).map (·.formula) = some "2" := by
    decide +kernel
  have hformula : ∀ {x : Registration},
      x.InForce ((new "q" unitsEntry.link).registrations definedTwice) → x.formula = "2" := by
    intro x hx
    have hmem := (List.mem_filter.1 (List.mem_of_getLast? hx.ofOwner)).1
    have hformula := hsecond x hmem
    rw [hx.ofOwner] at hformula
    exact Option.some.inj hformula
  obtain ⟨st, hst, hmargin⟩ : ∃ st,
      ((new "q" unitsEntry.link).afterAll definedTwice).statement = .ok st ∧
        (st.memberFormula? "[Measures].[Margin]").isSome = true :=
    any_toOption_eq_true.1 (by decide +kernel)
  refine ⟨st, hst, hmargin, fun id formula properties hd => ?_⟩
  rcases (definitions_latest "q" unitsEntry definedTwice hst).1 id formula properties hd with
    ⟨i, s, m, -, -, hcarried, hforce⟩ | ⟨m, -, hcarried, hforce⟩
  · exact ⟨_, hformula hforce, hforce, hcarried⟩
  · have hforce := hforce (by decide +kernel)
    exact ⟨_, hformula hforce, hforce, hcarried⟩

/-- A measure is defined anew while it stands in the block, and added once more. -/
def redefinedInBlock : List Change :=
  [ .createCalculatedMeasure "Margin" "1" .empty,
    .addMeasure "Margin",
    .createCalculatedMeasure "Margin" "2" .empty,
    .addMeasure "Margin" ]

/-- The block still shows what the measure was before. -/
theorem definitions_stale :
    ∃ st, ((new "q" unitsEntry.link).afterAll redefinedInBlock).statement = .ok st ∧
      (st.memberFormula? "[Measures].[Margin]").bind (·.emit.toOption) = some "1" ∧
      (latest? ((new "q" unitsEntry.link).registrations redefinedInBlock)
        "[Measures].[Margin]").map (·.formula) = some "2" := by
  obtain ⟨st, hst, hshown⟩ : ∃ st,
      ((new "q" unitsEntry.link).afterAll redefinedInBlock).statement = .ok st ∧
        decide ((st.memberFormula? "[Measures].[Margin]").bind (·.emit.toOption) = some "1") =
          true :=
    any_toOption_eq_true.1 (by decide +kernel)
  exact ⟨st, hst, of_decide_eq_true hshown, by decide +kernel⟩

end Query
end CubeQuery
