import CubeQuery.Proofs.Compiled

/-!
# What compiled sets inherit

Compilation reads texts, names members, levels and hierarchies, and puts calls around them. So a
property that such calls inherit from their arguments holds of whatever the compiler makes of sets
that have it, provided that it holds of all that the compiler reads and of the members it names
(`Expr.Carried`). Most properties do not ask which members these are (`Expr.Inherited`).
-/

namespace CubeQuery

/-- A property that the calls of compiled sets inherit from their arguments, and that everything
but members and identifiers has by itself. -/
structure Expr.Carried (P : Expr → Prop) : Prop where
  level (name : String) : P (.level name)
  hierarchy (name : String) : P (.hierarchy name)
  literal (value : Literal) : P (.literal value)
  function (name : String) {args : List Expr} (h : ∀ e ∈ args, P e) : P (.function name args)
  set {items : List Expr} (h : ∀ e ∈ items, P e) : P (.set items)
  property {target : Expr} (name : String) (h : P target) : P (.property target name)
  operation (op : String) {operands : List Expr} (hl : 2 ≤ operands.length)
    (h : ∀ e ∈ operands, P e) : P (.operation op operands)

/-- A property that the calls of compiled sets inherit from their arguments, whatever members they
name. -/
structure Expr.Inherited (P : Expr → Prop) : Prop extends Expr.Carried P where
  member (name : String) : P (.member name)

namespace Compiler

/-- Whatever the compiler reads has the property. -/
def Reads (c : Compiler) (P : Expr → Prop) : Prop := ∀ text e, c.read text = .ok e → P e

theorem Reads.expr {c : Compiler} {P : Expr → Prop} (hc : c.Reads P) {text : String} {e : Expr}
    (h : c.expr text = .ok e) : P e :=
  hc text e (mapError_eq_ok.1 h)

end Compiler

namespace Expr.Carried

open Compiler

variable {P : Expr → Prop} (hP : Carried P)

include hP

theorem function₁ (name : String) {e : Expr} (h : P e) : P (.function name [e]) :=
  hP.function name (List.forall_mem_singleton.2 h)

theorem function₂ (name : String) {a b : Expr} (ha : P a) (hb : P b) :
    P (.function name [a, b]) :=
  hP.function name (List.forall_mem_cons.2 ⟨ha, List.forall_mem_singleton.2 hb⟩)

theorem operation₂ (op : String) {a b : Expr} (ha : P a) (hb : P b) : P (.operation op [a, b]) :=
  hP.operation op (Nat.le_refl 2) (List.forall_mem_cons.2 ⟨ha, List.forall_mem_singleton.2 hb⟩)

theorem emptySet : P .emptySet := hP.set (List.forall_mem_nil P)

theorem singleton {e : Expr} (h : P e) : P (.set [e]) := hP.set (List.forall_mem_singleton.2 h)

theorem getD {set : Option Expr} (h : ∀ e ∈ set, P e) : P (set.getD .emptySet) := by
  cases set with
  | none => exact hP.emptySet
  | some e => exact h e rfl

/-! ## Shapes -/

theorem nameClause (hierarchy : String) (op : NameOperator) (value : String) :
    P (SetFilter.nameClause hierarchy op value) :=
  hP.operation₂ _ (hP.property _ (hP.property _ (hP.hierarchy hierarchy))) (hP.literal _)

theorem anyOf {first : Expr} {rest : List Expr} (hf : P first) (hr : ∀ e ∈ rest, P e) :
    P (SetFilter.anyOf first rest) := by
  induction rest generalizing first with
  | nil => exact hf
  | cons e rest ih =>
    obtain ⟨he, hr⟩ := List.forall_mem_cons.1 hr
    exact ih (hP.operation₂ _ hf he) hr

theorem namePredicate (hierarchy : String) (op : NameOperator) (values : List String) :
    ∀ e ∈ SetFilter.namePredicate hierarchy op values, P e := by
  unfold SetFilter.namePredicate
  split
  · rintro e ⟨⟩
  · rintro e ⟨⟩
    exact hP.nameClause _ _ _
  · rintro e ⟨⟩
    exact hP.anyOf (hP.nameClause _ _ _) (List.forall_mem_map.2 fun _ _ => hP.nameClause _ _ _)

section
variable {c : Compiler} (hc : c.Reads P)

include hc

theorem arguments {f : SetFilter} {args : List Expr} (h : f.arguments c.read = .ok args) :
    ∀ e ∈ args, P e := by
  cases f with
  | predicate text =>
    obtain ⟨e, he, h⟩ := bind_eq_ok.1 h
    cases h
    exact List.forall_mem_singleton.2 (hc text e he)
  | ranking r count text =>
    cases text with
    | none =>
      cases h
      exact List.forall_mem_singleton.2 (hP.literal _)
    | some text =>
      obtain ⟨e, he, h⟩ := bind_eq_ok.1 h
      cases h
      exact List.forall_mem_cons.2 ⟨hP.literal _, List.forall_mem_singleton.2 (hc text e he)⟩
  | name hierarchy values op =>
    cases h
    simpa using hP.namePredicate hierarchy op values

theorem filtered {s : SetShape} {set e : Expr} (hs : P set) (h : c.filtered s set = .ok e) :
    P e := by
  refine foldlM_keeps (P := P) (fun acc f e hacc h => ?_) hs (mapError_eq_ok.1 h)
  obtain ⟨args, hargs, h⟩ := bind_eq_ok.1 h
  have hargs := hP.arguments hc hargs
  split at h
  · cases h
    exact hacc
  · cases h
    exact hP.function _ (List.forall_mem_cons.2 ⟨hacc, hargs⟩)

theorem shaped {s : SetShape} {set e : Expr} (hs : P set) (h : c.shaped s set = .ok e) : P e := by
  unfold Compiler.shaped at h
  split at h
  · obtain ⟨start, hstart, h⟩ := bind_eq_ok.1 h
    exact hP.filtered hc (hc.expr hstart) h
  · exact hP.filtered hc hs h

theorem ordered {s : OrderedShape} {set e : Expr} (hs : P set) (h : c.ordered s set = .ok e) :
    P e := by
  unfold Compiler.ordered at h
  split at h
  · obtain ⟨key, hk, h⟩ := bind_eq_ok.1 h
    cases h
    refine hP.function _ (List.forall_mem_cons.2 ⟨hs, List.forall_mem_cons.2 ⟨?_, ?_⟩⟩)
    · exact hc.expr hk
    · exact List.forall_mem_singleton.2 (hP.literal _)
  · cases h
    exact hP.function₁ _ hs
  · cases h
    exact hP.function₂ _ hs (hP.literal _)
  · cases h
    exact hs

theorem shapedAndOrdered {s : OrderedShape} {set shaped : Option Expr} (hs : ∀ e ∈ set, P e)
    (h : c.shapedAndOrdered s set = .ok shaped) : ∀ e ∈ shaped, P e := by
  rcases shapedAndOrdered_eq_ok.1 h with ⟨-, -, rfl⟩ | ⟨start, hstart, f, hf, e, he, rfl⟩
  · rintro e ⟨⟩
  · have hstart : P start := by
      rcases hstart with ⟨-, rfl⟩ | ⟨text, -, htext⟩
      · exact hs start rfl
      · exact hc.expr htext
    rintro e' ⟨⟩
    exact hP.ordered hc (hP.filtered hc hstart hf) he

end

/-! ## Levels -/

/-- Members in braces. -/
theorem named {α : Type} (f : α → String) {ms : List α} (h : ∀ m ∈ ms, P (.member (f m))) :
    P (.set (ms.map fun m => .member (f m))) :=
  hP.set (List.forall_mem_map.2 h)

theorem wholeLevel {c : Compiler} {h : Hierarchy} {l : Level} {e : Expr}
    (hdefault : l.isAll = true → ∀ m, c.source.default? h = some m → P (.member m.uniqueName))
    (he : c.wholeLevel h l = .ok e) : P e := by
  unfold Compiler.wholeLevel at he
  split at he
  · next hall =>
    split at he
    · next m hm =>
      cases he
      exact hP.named Member.uniqueName (List.forall_mem_singleton.2 (hdefault hall m hm))
    · cases he
  · cases he
    exact hP.singleton (hP.property _ (hP.level _))

theorem ranged {c : Compiler} (hc : c.Reads P) {range : Option LevelRange} {whole e : Expr}
    (hw : P whole)
    (hrange : ∀ start stop, range = some (.members start stop) →
      P (.member start.uniqueName) ∧ P (.member stop.uniqueName))
    (h : c.ranged range whole = .ok e) : P e := by
  unfold Compiler.ranged at h
  split at h
  · cases h
    exact hw
  · next start stop =>
    cases h
    obtain ⟨hstart, hstop⟩ := hrange start stop rfl
    exact hP.operation₂ _ hstart hstop
  · obtain ⟨body, hb, h⟩ := bind_eq_ok.1 h
    cases h
    exact hP.singleton (hc.expr hb)

theorem narrowed {included excluded : List Member} {set : Expr} (hs : P set)
    (hi : ∀ m ∈ included, P (.member m.uniqueName))
    (he : ∀ m ∈ excluded, P (.member m.uniqueName)) :
    P (Compiler.narrowed included excluded set) := by
  have hincluded : P (if included.isEmpty then set else memberSet included) := by
    split
    · exact hs
    · exact hP.named Member.uniqueName hi
  unfold Compiler.narrowed
  generalize (if included.isEmpty then set else memberSet included) = set' at hincluded
  simp only
  split
  · exact hincluded
  · exact hP.function₂ _ hincluded (hP.named Member.uniqueName he)

/-- The set of a level has the property if the members have it that are picked on the level, bound
its range or stand for it. -/
theorem levelSet {c : Compiler} (hc : c.Reads P) {parameters : Parameters} {h : Hierarchy}
    {s : LevelSelection} {e : Expr}
    (hpicked : ∀ included excluded, c.picked parameters s = .ok (included, excluded) →
      (∀ m ∈ included, P (.member m.uniqueName)) ∧ ∀ m ∈ excluded, P (.member m.uniqueName))
    (hrange : ∀ start stop, s.range = some (.members start stop) →
      P (.member start.uniqueName) ∧ P (.member stop.uniqueName))
    (hdefault : s.level.isAll = true →
      ∀ m, c.source.default? h = some m → P (.member m.uniqueName))
    (he : c.levelSet parameters h s = .ok e) : P e := by
  obtain ⟨⟨included, excluded⟩, hp, he⟩ := bind_eq_ok.1 he
  obtain ⟨whole, hw, he⟩ := bind_eq_ok.1 he
  obtain ⟨set, hs, he⟩ := bind_eq_ok.1 he
  obtain ⟨hincluded, hexcluded⟩ := hpicked included excluded hp
  have hset := hP.ranged hc (hP.wholeLevel hdefault hw) hrange hs
  exact hP.shaped hc (hP.narrowed hset hincluded hexcluded) he

/-! ## Hierarchies -/

theorem restricted {h : HierarchySelection} {k : Linkage} {i : Nat} {reference : Option Expr}
    {l : LevelSelection} {own : Expr} (ho : P own) (hr : ∀ e ∈ reference, P e) :
    P (Compiler.restricted h k i reference l own) := by
  unfold Compiler.restricted
  split
  · cases reference with
    | none => exact ho
    | some e => exact hP.function₂ _ ho (hr e rfl)
  · exact ho

theorem unionSet {es : List Expr} (h : ∀ e ∈ es, P e) : ∀ e ∈ Compiler.unionSet es, P e := by
  unfold Compiler.unionSet
  split
  · rintro e ⟨⟩
  · rintro e ⟨⟩
    exact h _ List.mem_cons_self
  · rintro e ⟨⟩
    exact hP.set h

theorem withCalculated {h : HierarchySelection} {levels : Option Expr}
    (hm : ∀ m ∈ h.activeCalculatedMembers, P (.member m.uniqueName)) (hl : ∀ e ∈ levels, P e) :
    ∀ e ∈ Compiler.withCalculated h levels, P e := by
  have hmembers := hP.named CalculatedMember.uniqueName hm
  unfold Compiler.withCalculated
  split
  · exact hl
  · rintro e ⟨⟩
    exact hmembers
  · rintro e ⟨⟩
    exact hP.set (List.forall_mem_cons.2 ⟨hmembers, List.forall_mem_singleton.2 (hl _ rfl)⟩)

theorem totalled {q : Query} {h : HierarchySelection} {set : Expr} (hs : P set) :
    P (Compiler.totalled q h set) := by
  unfold Compiler.totalled
  split
  · refine hP.function _ (List.forall_mem_cons.2 ⟨hs, fun e he => ?_⟩)
    obtain ⟨pattern, -, rfl⟩ := Option.map_eq_some_iff.1 (Option.mem_toList.1 he)
    exact hP.literal _
  · exact hs

/-- The levels of a hierarchy as one set, as `Compiler.joinedLevels_eq_ok` gives it. -/
theorem joined {q : Query} {h : HierarchySelection} {location : Location} {sets : List Expr}
    (hs : ∀ e ∈ sets, P e) :
    ∀ e ∈ if q.onlyLowestLevels location then sets.getLast?
      else if h.needsHierarchize then
        (Compiler.unionSet sets).map fun set => .function "Hierarchize" [set]
      else Compiler.unionSet sets, P e := by
  have hunion := hP.unionSet hs
  split
  · exact fun e he => hs e (List.mem_of_getLast? he)
  · split
    · intro e he
      obtain ⟨set, hset, rfl⟩ := Option.map_eq_some_iff.1 he
      exact hP.function₁ _ (hunion set hset)
    · exact hunion

/-- What becomes of the levels of a hierarchy, or of an override in their place. -/
theorem completed {c : Compiler} (hc : c.Reads P) {q : Query} {h : HierarchySelection}
    {levels set : Option Expr} (hl : ∀ e ∈ levels, P e)
    (hs : c.shapedAndOrdered h.shape levels = .ok set) :
    P (Compiler.totalled q h (set.getD .emptySet)) :=
  hP.totalled (hP.getD (hP.shapedAndOrdered hc hl hs))

/-! ## Axes -/

theorem asOperand {e : Expr} (h : P e) : P e.asOperand := by
  unfold Expr.asOperand
  split
  · exact hP.singleton h
  · exact h

theorem nestRight {f : String} {first : Expr} {rest : List Expr}
    (h : ∀ e ∈ first :: rest, P e) : P (Expr.nestRight f first rest) := by
  induction rest generalizing first with
  | nil => exact h first List.mem_cons_self
  | cons second rest ih =>
    obtain ⟨hfirst, hrest⟩ := List.forall_mem_cons.1 h
    exact hP.function₂ _ hfirst (ih hrest)

/-- A join is written with at least two operands. -/
theorem crossJoin {es : List Expr} {nonEmpty flatten : Bool} (h : ∀ e ∈ es, P e) :
    ∀ e ∈ Expr.crossJoin es nonEmpty flatten, P e := by
  have hoperands : ∀ e ∈ es.map Expr.asOperand, P e :=
    List.forall_mem_map.2 fun e he => hP.asOperand (h e he)
  unfold Expr.crossJoin
  generalize es.map Expr.asOperand = operands at hoperands
  split
  · rintro e ⟨⟩
  · rintro e ⟨⟩
    exact hoperands _ List.mem_cons_self
  · rintro e ⟨⟩
    exact hP.function _ hoperands
  · next first rest hsingle _ =>
    rintro e ⟨⟩
    split
    · have hrest : 0 < rest.length := List.length_pos_iff.2 hsingle
      exact hP.operation _ (Nat.succ_le_succ hrest) hoperands
    · exact hP.nestRight hoperands

theorem besideMeasures {b : MeasureBlock} {set : Option Expr}
    (hm : ∀ m ∈ b.measures, P (.member m.uniqueName)) (h : ∀ e ∈ set, P e) :
    P (Compiler.besideMeasures b set) := by
  have hmeasures : P (Compiler.measureSet b.measures) := hP.named Measure.uniqueName hm
  unfold Compiler.besideMeasures
  split
  · exact hmeasures
  · next set =>
    have hset : P set := h set rfl
    split
    · exact hP.function₂ _ hmeasures hset
    · exact hP.function₂ _ hset hmeasures

end Expr.Carried

/-! ## Sets with what is declared for them -/

namespace Compiler

/-- Some sets have a property, and only sets that have it are declared for them. -/
structure Bears (P : Expr → Prop) (es : List Expr) (ds : List Declaration) : Prop where
  values : ∀ e ∈ es, P e
  declared : ∀ d ∈ ds, ∃ name body, d = .set name body ∧ P body

variable {c : Compiler} {P : Expr → Prop} (hid : ∀ id, P (.identifier id))

include hid

/-- The reference that holds behind a level is the name of its set, or the one that held before. -/
theorem next_keeps {k : Linkage} {parameters : Parameters} {h : Hierarchy} {i : Nat}
    {reference : Option Expr} {l : LevelSelection} (hr : ∀ e ∈ reference, P e) :
    ∀ e ∈ k.next parameters h i reference l, P e := by
  simp only [Linkage.next]
  generalize (!l.isSimple parameters || _) = named
  cases named with
  | false => exact hr
  | true =>
    rintro e ⟨⟩
    exact hid _

/-- The operands of an axis have the property if the sets of its hierarchies have it. -/
theorem bears_operands {q : Query} {location : Location} {axis : AxisName}
    {hs : List HierarchySelection}
    (hhs : ∀ h ∈ hs, ∀ r, c.hierarchySet q h location = .ok r → Bears P [r.value] r.declarations) :
    ∀ {r : Declared (List Expr)}, c.operands q location axis hs = .ok r →
      Bears P r.value r.declarations := by
  induction hs with
  | nil =>
    intro r hr
    cases hr
    exact ⟨List.forall_mem_nil _, List.forall_mem_nil _⟩
  | cons h hs ih =>
    intro r hr
    obtain ⟨hh, hhs⟩ := List.forall_mem_cons.1 hhs
    obtain ⟨set, hset, others, hothers, ⟨-, rfl⟩ | ⟨-, rfl⟩⟩ := operands_cons_eq_ok.1 hr
    · have hset := hh set hset
      have hothers := ih hhs hothers
      exact ⟨List.forall_mem_cons.2 ⟨hset.values _ List.mem_cons_self, hothers.values⟩,
        List.forall_mem_append.2 ⟨hset.declared, hothers.declared⟩⟩
    · have hset := hh set hset
      have hothers := ih hhs hothers
      have hnamed : P set.value := hset.values _ List.mem_cons_self
      exact ⟨List.forall_mem_cons.2 ⟨hid _, hothers.values⟩, List.forall_mem_append.2
        ⟨hset.declared, List.forall_mem_cons.2 ⟨⟨_, _, rfl, hnamed⟩, hothers.declared⟩⟩⟩

theorem bears_declaredAxis {axis : AxisName} {single : Bool} {set : Option Expr}
    (h : ∀ e ∈ set, P e) :
    Bears P (c.declaredAxis axis single set).value.toList
      (c.declaredAxis axis single set).declarations := by
  unfold declaredAxis
  split
  · next set =>
    have hset : P set := h set rfl
    split
    · exact ⟨List.forall_mem_singleton.2 (hid _), List.forall_mem_singleton.2 ⟨_, _, rfl, hset⟩⟩
    · exact ⟨List.forall_mem_singleton.2 hset, List.forall_mem_nil _⟩
  · exact ⟨List.forall_mem_nil _, List.forall_mem_nil _⟩

end Compiler

namespace Expr.Carried

open Compiler (Bears)

variable {P : Expr → Prop} (hP : Carried P) (hid : ∀ id, P (.identifier id)) {c : Compiler}

include hP hid

theorem levelSetsFrom {parameters : Parameters} {h : HierarchySelection} {k : Compiler.Linkage}
    {ls : List LevelSelection}
    (hls : ∀ l ∈ ls, ∀ e, c.levelSet parameters h.hierarchy l = .ok e → P e) :
    ∀ {i : Nat} {reference : Option Expr} {r : Declared (List Expr)}, (∀ e ∈ reference, P e) →
      c.levelSetsFrom parameters h k i reference ls = .ok r → Bears P r.value r.declarations := by
  induction ls with
  | nil =>
    intro i reference r _ hr
    cases hr
    exact ⟨List.forall_mem_nil _, List.forall_mem_nil _⟩
  | cons l ls ih =>
    intro i reference r href hr
    obtain ⟨hl, hls⟩ := List.forall_mem_cons.1 hls
    obtain ⟨own, hown, others, ⟨-, hothers, rfl⟩ | ⟨-, hothers, rfl⟩⟩ :=
      Compiler.levelSetsFrom_cons_eq_ok.1 hr
    · have hset := hP.restricted (h := h) (k := k) (i := i) (l := l) (hl own hown) href
      have hrest := ih hls (Compiler.next_keeps hid href) hothers
      exact ⟨List.forall_mem_cons.2 ⟨hid _, hrest.values⟩,
        List.forall_mem_cons.2 ⟨⟨_, _, rfl, hset⟩, hrest.declared⟩⟩
    · have hrest := ih hls href hothers
      exact ⟨List.forall_mem_cons.2 ⟨hP.restricted (hl own hown) href, hrest.values⟩,
        hrest.declared⟩

/-- The sets of the levels have the property if each has it by itself. -/
theorem levelSets {parameters : Parameters} {h : HierarchySelection} {r : Declared (List Expr)}
    (hls : ∀ l ∈ h.activeLevels, ∀ e, c.levelSet parameters h.hierarchy l = .ok e → P e)
    (hr : c.levelSets parameters h = .ok r) : Bears P r.value r.declarations := by
  refine hP.levelSetsFrom hid hls (fun e he => ?_) hr
  obtain ⟨l, -, rfl⟩ := Option.map_eq_some_iff.1 he
  exact hid _

theorem joinedLevels {q : Query} {h : HierarchySelection} {location : Location}
    {r : Declared (Option Expr)}
    (hls : ∀ l ∈ h.activeLevels, ∀ e, c.levelSet q.parameters h.hierarchy l = .ok e → P e)
    (hr : c.joinedLevels q h location = .ok r) : Bears P r.value.toList r.declarations := by
  obtain ⟨sets, hsets, rfl⟩ := Compiler.joinedLevels_eq_ok.1 hr
  have hbears := hP.levelSets hid hls hsets
  refine ⟨fun e he => ?_, hbears.declared⟩
  exact hP.joined hbears.values e (Option.mem_toList.1 he)

/-- The set of a hierarchy has the property if its levels and its calculated members have it. -/
theorem hierarchySet (hc : c.Reads P) {q : Query} {h : HierarchySelection} {location : Location}
    {r : Declared Expr}
    (hls : ∀ l ∈ h.activeLevels, ∀ e, c.levelSet q.parameters h.hierarchy l = .ok e → P e)
    (hms : ∀ m ∈ h.activeCalculatedMembers, P (.member m.uniqueName))
    (hr : c.hierarchySet q h location = .ok r) : Bears P [r.value] r.declarations := by
  rcases Compiler.hierarchySet_eq_ok.1 hr with
    ⟨-, set, hs, rfl⟩ | ⟨-, -, rfl⟩ | ⟨-, -, levels, hl, set, hs, rfl⟩
  · have hnone : ∀ e ∈ (none : Option Expr), P e := by rintro e ⟨⟩
    exact ⟨List.forall_mem_singleton.2 (hP.completed hc hnone hs), List.forall_mem_nil _⟩
  · exact ⟨List.forall_mem_singleton.2 hP.emptySet, List.forall_mem_nil _⟩
  · have hlevels := hP.joinedLevels hid hls hl
    have hcalculated := hP.withCalculated hms (by simpa using hlevels.values)
    exact ⟨List.forall_mem_singleton.2 (hP.completed hc hcalculated hs), hlevels.declared⟩

/-! ## Axes -/

theorem joinedHierarchies {q : Query} {location : Location} {axis : AxisName}
    (hhs : ∀ h ∈ q.hierarchiesOn location, ∀ r, c.hierarchySet q h location = .ok r →
      Bears P [r.value] r.declarations) {r : Declared Compiler.Joined}
    (hr : c.joinedHierarchies q location axis = .ok r) :
    Bears P r.value.set.toList r.declarations := by
  rcases Compiler.joinedHierarchies_eq_ok.1 hr with
    ⟨-, rfl⟩ | ⟨-, ⟨-, h, hon, set, hset, rfl⟩ | ⟨-, sets, hsets, rfl⟩⟩
  · exact ⟨List.forall_mem_nil _, List.forall_mem_nil _⟩
  · exact hhs h (hon ▸ List.mem_singleton_self h) set hset
  · have hoperands := Compiler.bears_operands hid hhs hsets
    exact ⟨fun e he => hP.crossJoin hoperands.values e (Option.mem_toList.1 he),
      hoperands.declared⟩

/-- The set of an axis and the sets declared for it have the property if the sets of its
hierarchies and the measures on it have it. -/
theorem axisNode (hc : c.Reads P) {q : Query} {location : Location} {axis : AxisName}
    {r : Declared (Option AxisNode)}
    (hhs : ∀ h ∈ q.hierarchiesOn location, ∀ r, c.hierarchySet q h location = .ok r →
      Bears P [r.value] r.declarations)
    (hms : q.block.axis = location → ∀ m ∈ q.block.measures, P (.member m.uniqueName))
    (hr : c.axisNode q location axis = .ok r) :
    (∀ node ∈ r.value, P node.body) ∧ ∀ name body, .set name body ∈ r.declarations → P body := by
  obtain ⟨joined, hjoined, shaped, hshaped, complete, hcomplete, rfl⟩ :=
    Compiler.axisNode_eq_ok.1 hr
  have hjoined := hP.joinedHierarchies hid hhs hjoined
  have hshaped : ∀ e ∈ shaped, P e :=
    hP.shapedAndOrdered hc (by simpa using hjoined.values) hshaped
  have hdeclared : Bears P (c.declaredAxis axis joined.value.single shaped).value.toList
      (c.declaredAxis axis joined.value.single shaped).declarations :=
    Compiler.bears_declaredAxis hid hshaped
  have hsets : ∀ name body, .set name body ∈ joined.declarations ++
      (c.declaredAxis axis joined.value.single shaped).declarations → P body := by
    intro name body hd
    obtain ⟨_, _, ⟨⟩, hbody⟩ :=
      List.forall_mem_append.2 ⟨hjoined.declared, hdeclared.declared⟩ _ hd
    exact hbody
  rcases Compiler.withMeasures_eq_ok.1 hcomplete with ⟨⟨hon, -⟩, ms, hmembers, rfl⟩ | ⟨-, rfl⟩
  · constructor
    · rintro node ⟨⟩
      exact hP.besideMeasures (hms hon) (by simpa using hdeclared.values)
    · intro name body hd
      refine hsets name body ((List.mem_append.1 hd).resolve_right fun hd => ?_)
      obtain ⟨_, _, _, hd⟩ := Compiler.mem_measureDeclarations hmembers _ hd
      obtain ⟨_, -, _, -, ⟨⟩⟩ := Compiler.declareMember_eq_ok.1 hd
  · constructor
    · intro node hnode
      obtain ⟨body, hbody, rfl⟩ := Option.map_eq_some_iff.1 hnode
      exact hdeclared.values _ (Option.mem_toList.2 hbody)
    · intro name body hd
      exact hsets name body ((List.mem_append.1 hd).resolve_right List.not_mem_nil)

end Expr.Carried

namespace Expr.Inherited

open Compiler

variable {P : Expr → Prop} (hP : Inherited P)

include hP

theorem members {α : Type} (f : α → String) (ms : List α) :
    P (.set (ms.map fun m => .member (f m))) :=
  hP.named f fun m _ => hP.member (f m)

theorem levelSet {c : Compiler} (hc : c.Reads P) {parameters : Parameters} {h : Hierarchy}
    {s : LevelSelection} {e : Expr} (he : c.levelSet parameters h s = .ok e) : P e :=
  hP.toCarried.levelSet hc (fun _ _ _ => ⟨fun _ _ => hP.member _, fun _ _ => hP.member _⟩)
    (fun _ _ _ => ⟨hP.member _, hP.member _⟩) (fun _ _ _ => hP.member _) he

theorem withCalculated (h : HierarchySelection) {levels : Option Expr} (hl : ∀ e ∈ levels, P e) :
    ∀ e ∈ Compiler.withCalculated h levels, P e :=
  hP.toCarried.withCalculated (fun _ _ => hP.member _) hl

theorem besideMeasures {b : MeasureBlock} {set : Option Expr} (h : ∀ e ∈ set, P e) :
    P (Compiler.besideMeasures b set) :=
  hP.toCarried.besideMeasures (fun _ _ => hP.member _) h

end Expr.Inherited
end CubeQuery
