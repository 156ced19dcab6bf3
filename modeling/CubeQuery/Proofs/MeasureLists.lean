import CubeQuery.Proofs.Definitions

/-!
# The list of measures

A measure is known by its unique name, whether it is stored or calculated, and a change of the
measure block speaks of the measures of one unique name, of none, or of all (`concerns`). It settles
whether these are listed, and where, and it leaves the others as they stand (`filter_change`). So
unique names stay distinct, and measures that a sequence of changes does not speak of keep their
order (`others_changeAll`). As a measure that is placed is taken out first, its position counts
among the others.

`measures_ordered` says so of every block, and of that of every query: a query changes its block in
no other way (`Query.change_block`).
-/

namespace CubeQuery

namespace BlockChange

/-- Whether the change speaks of the measures of a unique name. -/
def concerns : BlockChange → String → Bool
  | .add m, name | .place m _, name => m.uniqueName = name
  | .erase own, name => own = name
  | .clear, _ => true
  | .axis _, _ | .side _, _ => false

/-- Whether a measure that the change speaks of is listed then. -/
def lists : BlockChange → Bool
  | .add _ | .place _ _ => true
  | .erase _ | .clear | .axis _ | .side _ => false

end BlockChange

namespace MeasureBlock

/-- No two measures have the same unique name. -/
def Distinct (b : MeasureBlock) : Prop := (b.measures.map (·.uniqueName)).Nodup

/-- A measure of the unique name is in the block. -/
def Lists (b : MeasureBlock) (name : String) : Prop := ∃ m ∈ b.measures, m.uniqueName = name

/-- The block as changes leave it, made one after the other. -/
def changeAll (b : MeasureBlock) (cs : List BlockChange) : MeasureBlock := cs.foldl change b

/-- The measures that none of the changes speaks of. -/
def others (b : MeasureBlock) (cs : List BlockChange) : List Measure :=
  b.measures.filter fun m => cs.all fun c => !c.concerns m.uniqueName

variable {b : MeasureBlock}

theorem changeAll_append (b : MeasureBlock) (cs ds : List BlockChange) :
    b.changeAll (cs ++ ds) = (b.changeAll cs).changeAll ds :=
  List.foldl_append

/-! ## Measures that a change speaks of -/

theorem add_of_lists {m : Measure} (h : b.Lists m.uniqueName) : b.add m = b := by
  obtain ⟨k, hk, hname⟩ := h
  exact if_pos (List.any_eq_true.2 ⟨k, hk, decide_eq_true hname⟩)

theorem measures_add {m : Measure} (h : ¬b.Lists m.uniqueName) :
    (b.add m).measures = b.measures ++ [m] := by
  have hnew : ¬(b.measures.any fun k => decide (k.uniqueName = m.uniqueName)) = true := by
    intro hany
    obtain ⟨k, hk, hname⟩ := List.any_eq_true.1 hany
    exact h ⟨k, hk, of_decide_eq_true hname⟩
  rw [add, if_neg hnew]

theorem not_lists_erase (b : MeasureBlock) (name : String) : ¬(b.erase name).Lists name := by
  rintro ⟨m, hm, hname⟩
  exact of_decide_eq_true (List.mem_filter.1 hm).2 hname

/-- A placed measure stands among the others, as they are without it. -/
theorem measures_place (b : MeasureBlock) (m : Measure) (i : Nat) :
    (b.place m i).measures = (b.erase m.uniqueName).measures.insertIdx
      (min i (b.erase m.uniqueName).measures.length) m := rfl

theorem getElem?_place (b : MeasureBlock) (m : Measure) (i : Nat) :
    (b.place m i).measures[min i (b.erase m.uniqueName).measures.length]? = some m := by
  rw [measures_place, List.getElem?_insertIdx_self, if_pos (Nat.min_le_right _ _)]

/-- A change lists the measures that it speaks of, or takes them out. -/
theorem lists_change {c : BlockChange} {name : String} (hc : c.concerns name = true) :
    (b.change c).Lists name ↔ c.lists = true := by
  cases c with
  | add m =>
    obtain rfl : m.uniqueName = name := of_decide_eq_true hc
    refine iff_of_true ?_ rfl
    by_cases h : b.Lists m.uniqueName
    · rwa [change, add_of_lists h]
    · exact ⟨m, by simp [change, measures_add h], rfl⟩
  | place m i =>
    obtain rfl : m.uniqueName = name := of_decide_eq_true hc
    exact iff_of_true ⟨m, List.mem_of_getElem? (b.getElem?_place m i), rfl⟩ rfl
  | erase own =>
    obtain rfl : own = name := of_decide_eq_true hc
    exact iff_of_false (b.not_lists_erase own) Bool.false_ne_true
  | clear => exact iff_of_false (by simp [Lists, change, clear]) Bool.false_ne_true
  | axis | side => cases hc

/-! ## The others -/

/-- Among measures that a change does not speak of, it makes no difference. -/
theorem filter_change {c : BlockChange} {p : Measure → Bool}
    (hp : ∀ m, p m = true → c.concerns m.uniqueName = false) :
    (b.change c).measures.filter p = b.measures.filter p := by
  have dropped : ∀ {m : Measure}, c.concerns m.uniqueName = true → p m = false := by
    intro m hc
    refine Bool.eq_false_iff.2 fun hm => ?_
    rw [hp m hm] at hc
    cases hc
  -- Erasing a name takes out nothing but what is dropped anyway.
  have erased : ∀ name, (∀ m, p m = true → m.uniqueName ≠ name) →
      (b.erase name).measures.filter p = b.measures.filter p := by
    intro name hname
    rw [erase, List.filter_filter]
    refine List.filter_congr fun m _ => ?_
    cases hm : p m with
    | false => rfl
    | true => exact decide_eq_true (hname m hm)
  cases c with
  | add m =>
    by_cases h : b.Lists m.uniqueName
    · rw [change, add_of_lists h]
    · rw [change, measures_add h, List.filter_append, List.filter_singleton,
        dropped (decide_eq_true rfl)]
      exact List.append_nil _
  | place m i =>
    rw [change, measures_place, filter_insertIdx (dropped (decide_eq_true rfl))]
    exact erased m.uniqueName fun k hk heq => of_decide_eq_false (hp k hk) heq.symm
  | erase name => exact erased name fun k hk heq => of_decide_eq_false (hp k hk) heq.symm
  | clear => exact (List.filter_eq_nil_iff.2 fun m _ => Bool.eq_false_iff.1 (dropped rfl)).symm
  | axis | side => rfl

/-- Measures that a sequence of changes does not speak of stay, in their order. -/
theorem others_changeAll (b : MeasureBlock) (cs : List BlockChange) :
    (b.changeAll cs).others cs = b.others cs := by
  suffices h : ∀ p : Measure → Bool,
      (∀ c ∈ cs, ∀ m, p m = true → c.concerns m.uniqueName = false) →
        (b.changeAll cs).measures.filter p = b.measures.filter p from
    h _ fun c hc m hm => by simpa using List.all_eq_true.1 hm c hc
  intro p hp
  induction cs generalizing b with
  | nil => rfl
  | cons c cs ih =>
    obtain ⟨hc, hcs⟩ := List.forall_mem_cons.1 hp
    exact (ih (b.change c) hcs).trans (filter_change hc)

/-! ## Distinct names -/

theorem Distinct.erase (hb : b.Distinct) (name : String) : (b.erase name).Distinct :=
  hb.sublist (List.filter_sublist.map _)

theorem Distinct.change (hb : b.Distinct) (c : BlockChange) : (b.change c).Distinct := by
  cases c with
  | add m =>
    by_cases h : b.Lists m.uniqueName
    · rwa [MeasureBlock.change, add_of_lists h]
    · rw [Distinct, MeasureBlock.change, measures_add h, List.map_append]
      exact nodup_concat hb fun hm => h (List.mem_map.1 hm)
  | place m i =>
    rw [Distinct, MeasureBlock.change, measures_place]
    refine ((List.perm_insertIdx m _ (Nat.min_le_right _ _)).map _).nodup_iff.2 ?_
    refine List.nodup_cons.2 ⟨fun hm => ?_, hb.erase m.uniqueName⟩
    exact b.not_lists_erase m.uniqueName (List.mem_map.1 hm)
  | erase name => exact hb.erase name
  | clear => exact List.nodup_nil
  | axis | side => exact hb

theorem Distinct.changeAll (hb : b.Distinct) (cs : List BlockChange) :
    (b.changeAll cs).Distinct := by
  induction cs generalizing b with
  | nil => exact hb
  | cons c cs ih => exact ih (hb.change c)

/-! ## Blocks -/

/-- The measures of a block stand in an order that only changes which speak of them touch. -/
structure Ordered (b : MeasureBlock) : Prop where
  distinct : b.Distinct
  /-- The measures that changes do not speak of keep their order, and none of them is lost. -/
  kept : ∀ cs, (b.changeAll cs).others cs = b.others cs
  listed : ∀ c name, c.concerns name = true → ((b.change c).Lists name ↔ c.lists = true)
  /-- A measure that is listed is not added again. -/
  added : ∀ m, b.Lists m.uniqueName → b.change (.add m) = b
  placed : ∀ m i, (b.change (.place m i)).measures[
    min i (b.measures.countP (·.uniqueName ≠ m.uniqueName))]? = some m

theorem Distinct.ordered (hb : b.Distinct) : b.Ordered := by
  refine ⟨hb, b.others_changeAll, fun c name => lists_change, fun m => add_of_lists, ?_⟩
  intro m i
  rw [List.countP_eq_length_filter]
  exact b.getElem?_place m i

end MeasureBlock

/-! ## Queries -/

namespace Query

theorem update_block {q r : Query} {name : String}
    {f : HierarchySelection → Except Rejection HierarchySelection} (h : q.update name f = .ok r) :
    r.block = q.block := by
  obtain ⟨i, s, t, -, -, -, rfl⟩ := exists_of_update h
  rfl

/-- What an accepted change of a query does to the block, changes of the block do. -/
theorem change_block {q r : Query} {c : Change} (h : q.change c = .ok r) :
    ∃ cs, r.block = q.block.changeAll cs := by
  have unchanged : r.block = q.block → ∃ cs, r.block = q.block.changeAll cs := fun h => ⟨[], h⟩
  cases c with
  | addMeasure name =>
    obtain ⟨m, -, h⟩ := bind_eq_ok.1 h
    cases h
    exact ⟨[.add m], rfl⟩
  | block c =>
    cases h
    exact ⟨[c], rfl⟩
  | move name target position =>
    obtain ⟨i, -, -, rfl⟩ := move_eq_ok.1 h
    exact unchanged rfl
  | hierarchy name c => exact unchanged (update_block h)
  | pickMember p hierarchy member =>
    obtain ⟨m, -, h⟩ := bind_eq_ok.1 h
    exact unchanged (update_block h)
  | range hierarchy start stop =>
    obtain ⟨first, -, h⟩ := bind_eq_ok.1 h
    obtain ⟨last, -, h⟩ := bind_eq_ok.1 h
    exact unchanged (update_block h)
  | addCalculatedMember m =>
    obtain ⟨i, -, -, hs, -, rfl⟩ := addCalculatedMember_eq_ok.1 h
    exact unchanged rfl
  | createCalculatedMember hierarchy name formula properties parent =>
    obtain ⟨⟨r', m⟩, hm, h⟩ := bind_eq_ok.1 h
    cases h
    obtain ⟨s, -, hadd, -⟩ := createCalculatedMember_eq_ok.1 hm
    obtain ⟨i, -, -, hs, -, rfl⟩ := addCalculatedMember_eq_ok.1 hadd
    exact unchanged rfl
  | createCalculatedMeasure name formula properties =>
    obtain ⟨⟨r', m⟩, hm, h⟩ := bind_eq_ok.1 h
    cases h
    obtain ⟨-, rfl, rfl⟩ := createCalculatedMeasure_eq_ok.1 hm
    exact unchanged rfl
  | axis | defaultHierarchize =>
    obtain ⟨_, -, h⟩ := bind_eq_ok.1 h
    cases h
    exact unchanged rfl
  | declareParameters names =>
    cases h
    obtain ⟨p, hp⟩ := q.declareParameters_rest names
    exact unchanged (by rw [hp])
  | retrieveParameters =>
    cases h
    obtain ⟨p, hp⟩ := q.declareParameters_rest q.parameterNames
    exact unchanged (by rw [retrieveParameters, hp])
  | setAggregators key names =>
    cases h
    refine unchanged ?_
    unfold setAggregators
    split <;> rfl
  | swapAxes | lowestLevelsOnly | visualTotals | visualPattern | setParameter | setParameters =>
    cases h
    exact unchanged rfl

/-- The block of a query is one that changes of a new block lead to. -/
theorem block_afterAll (name : String) (cube : Cube) (cs : List Change) :
    ∃ ds, ((new name cube).afterAll cs).block = MeasureBlock.changeAll {} ds := by
  refine afterAll_keeps (P := fun q => ∃ ds, q.block = MeasureBlock.changeAll {} ds)
    (fun q c r ⟨ds, hq⟩ hc => ?_) ⟨[], rfl⟩ cs
  obtain ⟨es, hr⟩ := change_block hc
  exact ⟨ds ++ es, by rw [hr, hq, MeasureBlock.changeAll_append]⟩

end Query

/-- **Measures.** After any changes of a block without measures, and after any changes of a new
query, accepted or rejected, the block shows no two measures of one unique name. Further changes
leave the measures that they do not speak of in their order. Adding a measure that is listed changes
nothing, and a measure that is placed has its position among the others, or stands behind them. -/
theorem measures_ordered :
    (∀ axis side cs, (MeasureBlock.changeAll { axis, side } cs).Ordered) ∧
      ∀ cube q, Query.Reachable cube q → q.block.Ordered := by
  have ordered : ∀ axis side cs, (MeasureBlock.changeAll { axis, side } cs).Ordered := by
    intro axis side cs
    have empty : MeasureBlock.Distinct { axis, side } := List.nodup_nil
    exact (empty.changeAll cs).ordered
  refine ⟨ordered, ?_⟩
  rintro cube q ⟨name, cs, rfl⟩
  obtain ⟨ds, hds⟩ := Query.block_afterAll name cube cs
  rw [hds]
  exact ordered .columns .bottom ds

/-- The stored units in front of a calculated margin. -/
def unitsThenMargin : Query :=
  (Query.new "q" Query.unitsEntry.link).afterAll [.addMeasure "Units",
    .createCalculatedMeasure "Margin" "1" .empty, .addMeasure "Margin"]

/-- Calculated units have the unique name of the stored ones: they are not added to them, and placed
far behind the end they replace them and stand behind the margin. -/
theorem measures_ordered_units :
    Query.Reachable Query.unitsEntry.link unitsThenMargin ∧
      ∃ m, Measure.isCalculated m = true ∧ unitsThenMargin.block.Lists m.uniqueName ∧
        unitsThenMargin.block.change (.add m) = unitsThenMargin.block ∧
        (unitsThenMargin.block.change (.place m 7)).measures[1]? = some m ∧
        (unitsThenMargin.block.change (.place m 7)).measures.length = 2 := by
  have hreachable : Query.Reachable Query.unitsEntry.link unitsThenMargin := ⟨"q", _, rfl⟩
  have hordered := measures_ordered.2 _ _ hreachable
  have hlisted : unitsThenMargin.block.Lists "[Measures].[Units]" := by
    unfold MeasureBlock.Lists
    decide +kernel
  have hplaced := hordered.placed (.calculated (.new "Units" "1")) 7
  have hothers : unitsThenMargin.block.measures.countP
      (·.uniqueName ≠ (Measure.calculated (.new "Units" "1")).uniqueName) = 1 := by decide +kernel
  rw [hothers] at hplaced
  exact ⟨hreachable, .calculated (.new "Units" "1"), rfl, hlisted,
    hordered.added _ hlisted, hplaced, by decide +kernel⟩

end CubeQuery
