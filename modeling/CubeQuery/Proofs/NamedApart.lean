import CubeQuery.Proofs.Distinct

/-!
# When declared sets have distinct names

The name of a set is joined by underscores from the names of what it is declared for, and an
underscore inside a name is not told from one between names. So the names of a statement's sets are
distinct exactly if no two of the things at hand have names that join to the same text
(`names_distinct_iff`), which is sure on a cube without underscores in its names and without a
dimension that is named like an axis. Where it fails, two sets share a name
(`names_clash_stores`).
-/

namespace CubeQuery

/-! ## Names that can be told apart -/

/-- No name holds an underscore, and no dimension is named like a result axis. -/
structure CubeEntry.Plain (e : CubeEntry) : Prop where
  dimensions : ∀ d ∈ e.dimensions,
    '_' ∉ d.name.toList ∧ d.name ≠ AxisName.columns.text ∧ d.name ≠ AxisName.rows.text
  hierarchies : ∀ d ∈ e.dimensions, ∀ h ∈ d.hierarchies, '_' ∉ h.name.toList
  levels : ∀ d ∈ e.dimensions, ∀ h ∈ d.hierarchies, ∀ l ∈ h.levels, '_' ∉ l.name.toList

theorem AxisName.text_inj {a b : AxisName} (h : a.text = b.text) : a = b := by
  cases a <;> cases b <;> first | rfl | exact absurd h (by decide)

namespace SetOrigin

theorem name_eq_iff {a b : SetOrigin} :
    a.name = b.name ↔ "_".intercalate a.parts = "_".intercalate b.parts := by
  constructor
  · intro h
    have hsegments := List.singleton_inj.1 (congrArg Identifier.segments h)
    have hlist := congrArg String.toList hsegments
    rw [String.toList_append, String.toList_append] at hlist
    exact String.toList_inj.1 (List.append_cancel_left hlist)
  · intro h
    rw [name, name, Identifier.ofParts, Identifier.ofParts, h]

/-- Different things have different names exactly if their names join to different texts. -/
theorem names_nodup_iff {os : List SetOrigin} (hos : os.Nodup) :
    (os.map name).Nodup ↔ ∀ a ∈ os, ∀ b ∈ os,
      "_".intercalate a.parts = "_".intercalate b.parts → a = b := by
  rw [List.nodup_map_iff_inj_on hos]
  refine forall₂_congr fun a _ => forall₂_congr fun b _ => ?_
  rw [name_eq_iff]

/-- Parts without underscores can be read back from the text they are joined to. -/
theorem parts_inj {ps qs : List String} (hp : ∀ p ∈ ps, '_' ∉ p.toList)
    (hq : ∀ p ∈ qs, '_' ∉ p.toList) (hps : ps ≠ []) (hqs : qs ≠ [])
    (h : "_".intercalate ps = "_".intercalate qs) : ps = qs := by
  have key : ∀ rs : List String, (∀ p ∈ rs, '_' ∉ p.toList) → rs ≠ [] →
      ("_".intercalate rs).toList.splitOn '_' = rs.map String.toList := by
    intro rs hrs hne
    rw [String.toList_intercalate]
    refine List.splitOn_intercalate '_' (fun l hl => ?_) (by simpa using hne)
    obtain ⟨p, hp, rfl⟩ := List.mem_map.1 hl
    exact hrs p hp
  have hmap : ps.map String.toList = qs.map String.toList := by
    rw [← key ps hp hps, ← key qs hq hqs, h]
  exact List.map_injective_iff.2 (fun a b hab => String.toList_inj.1 hab) hmap

/-- A thing whose names can be read back from the name of its set. -/
def Plain : SetOrigin → Prop
  | level d h l => ('_' ∉ d.toList ∧ d ≠ AxisName.columns.text ∧ d ≠ AxisName.rows.text) ∧
      '_' ∉ h.toList ∧ '_' ∉ l.toList
  | operand a d h => a ≠ .slicer ∧ '_' ∉ d.toList ∧ '_' ∉ h.toList
  | axis _ => True

theorem Plain.parts {o : SetOrigin} (ho : o.Plain) : ∀ p ∈ o.parts, '_' ∉ p.toList := by
  have haxis : ∀ a : AxisName, '_' ∉ a.text.toList := by
    intro a
    cases a <;> decide
  intro p hp
  cases o with
  | level d h l =>
    obtain ⟨⟨hd, -, -⟩, hh, hl⟩ := ho
    simp only [SetOrigin.parts, List.mem_cons, List.not_mem_nil, or_false] at hp
    rcases hp with rfl | rfl | rfl
    · exact hd
    · exact hh
    · exact hl
  | operand a d h =>
    obtain ⟨-, hd, hh⟩ := ho
    simp only [SetOrigin.parts, List.mem_cons, List.not_mem_nil, or_false] at hp
    rcases hp with rfl | rfl | rfl
    · exact haxis a
    · exact hd
    · exact hh
  | axis a =>
    rw [List.mem_singleton.1 hp]
    exact haxis a

/-- The dimension of a level's set is not the axis that another set's name starts with. -/
theorem Plain.dimension_ne {a : AxisName} {d h l d' h' : String} (hlevel : (level d h l).Plain)
    (hoperand : (operand a d' h').Plain) : d ≠ a.text := by
  obtain ⟨⟨-, hcolumns, hrows⟩, -⟩ := hlevel
  cases a with
  | columns => exact hcolumns
  | rows => exact hrows
  | slicer => exact absurd rfl hoperand.1

/-- Plain things whose names join to the same text are the same. -/
theorem Plain.inj {a b : SetOrigin} (ha : a.Plain) (hb : b.Plain)
    (h : "_".intercalate a.parts = "_".intercalate b.parts) : a = b := by
  have hne : ∀ o : SetOrigin, o.parts ≠ [] := by
    intro o
    cases o <;> exact List.cons_ne_nil _ _
  have hparts := parts_inj ha.parts hb.parts (hne a) (hne b) h
  cases a with
  | level d h l =>
    cases b with
    | level d' h' l' =>
      simp only [SetOrigin.parts, List.cons.injEq, and_true] at hparts
      obtain ⟨rfl, rfl, rfl⟩ := hparts
      rfl
    | operand x d' h' => exact absurd (List.cons.inj hparts).1 (ha.dimension_ne hb)
    | axis x => cases hparts
  | operand x d h =>
    cases b with
    | level d' h' l' => exact absurd (List.cons.inj hparts).1.symm (hb.dimension_ne ha)
    | operand x' d' h' =>
      simp only [SetOrigin.parts, List.cons.injEq, and_true] at hparts
      obtain ⟨hx, rfl, rfl⟩ := hparts
      rw [AxisName.text_inj hx]
    | axis x' => simp [SetOrigin.parts] at hparts
  | axis x =>
    cases b with
    | level d' h' l' => cases hparts
    | operand x' d' h' => simp [SetOrigin.parts] at hparts
    | axis x' => rw [AxisName.text_inj (List.cons.inj hparts).1]

end SetOrigin

namespace Query

variable {q : Query}

theorem mem_setOrigins {options : Options} {o : SetOrigin} (h : o ∈ q.setOrigins options) :
    ∃ l axis, o ∈ q.axisOrigins options l axis := by
  rcases List.mem_append.1 h with h | h
  · rcases List.mem_append.1 h with h | h
    · exact ⟨_, _, h⟩
    · exact ⟨_, _, h⟩
  · exact ⟨_, _, h⟩

/-- The sets over a plain cube are declared for plain things. -/
theorem plain_of_mem {e : CubeEntry} (he : e.Plain) (hq : Sound e.link q)
    (hintact : ∀ s ∈ q.hierarchies, s.Intact) {options : Options} {o : SetOrigin}
    (ho : o ∈ q.setOrigins options) : o.Plain := by
  obtain ⟨l, axis, ho⟩ := mem_setOrigins ho
  rcases mem_axisOrigins ho with ⟨-, rfl⟩ | ⟨s, hs, hos⟩
  · trivial
  · obtain ⟨i, -, hi⟩ := List.mem_filterMap.1 hs
    have hmem : s ∈ q.hierarchies := List.mem_of_getElem? hi
    have hhierarchy : s.hierarchy ∈ e.link.hierarchies := by
      rw [← hq.registry]
      exact List.mem_map_of_mem hmem
    obtain ⟨d, hd, h, hh, heq⟩ := mem_link hhierarchy
    have hdimension : s.hierarchy.dimension = d.name := by
      rw [heq]
      rfl
    have hname : s.hierarchy.name = h.name := by
      rw [heq]
      rfl
    rcases HierarchySelection.mem_operandOrigins hos with hos | ⟨hslicer, rfl⟩
    · obtain ⟨level, hlevel, rfl⟩ := HierarchySelection.mem_setOrigins hos
      have hin := List.mem_map_of_mem (f := (·.name)) ((hintact s hmem).level_mem hlevel)
      rw [heq, HierarchyEntry.link, linkFrom_names] at hin
      obtain ⟨entry, hentry, hlevelName⟩ := List.mem_map.1 hin
      rw [hdimension, hname, ← hlevelName]
      exact ⟨he.dimensions d hd, he.hierarchies d hd h hh, he.levels d hd h hh entry hentry⟩
    · rw [hdimension, hname]
      exact ⟨hslicer, (he.dimensions d hd).1, he.hierarchies d hd h hh⟩

end Query

/-! ## Statements -/

namespace Statement

/-- **Distinct names.** Take a cube whose names are distinct, and any query that changes lead to on
it. The sets of its statement are those declared for its `setOrigins`, and their names are distinct
exactly if no two of these have names that join to the same text, as is sure on a plain cube. Each
name in the statement then denotes the set declared for the one thing it names. -/
theorem names_distinct_iff {e : CubeEntry} (he : e.Distinct) {q : Query}
    (hq : Query.Reachable e.link q) {source : MemberSource} {options : Options} {s : Statement}
    (hs : Compiler.statement { source, options } q = .ok s) :
    setNames s.sets = (q.setOrigins options).map SetOrigin.name ∧
      ((setNames s.sets).Nodup ↔
        ∀ a ∈ q.setOrigins options, ∀ b ∈ q.setOrigins options,
          "_".intercalate a.parts = "_".intercalate b.parts → a = b) ∧
      (e.Plain → (setNames s.sets).Nodup) ∧
      ((setNames s.sets).Nodup →
        (∀ body ∈ s.bodies, ∀ id ∈ body.identifiers,
          ∃! o, o ∈ q.setOrigins options ∧ o.name = id) ∧
        ∀ (i : Nat) (o : SetOrigin), (q.setOrigins options)[i]? = some o →
          ∃ body, s.sets[i]? = some (o.name, body) ∧ s.definition? o.name = some body) := by
  obtain ⟨name, cs, rfl⟩ := hq
  have hsound := Query.sound_afterAll name e.link cs
  have hintact := Query.intact_afterAll name e.link cs
  have hnames : setNames s.sets = _ := Compiler.statement_names hs
  have hiff := SetOrigin.names_nodup_iff (Query.setOrigins_nodup he hsound hintact options)
  rw [← hnames] at hiff
  refine ⟨hnames, hiff, fun hplain => hiff.2 fun a ha b hb hab => ?_, fun hn => ⟨?_, ?_⟩⟩
  · exact (Query.plain_of_mem hplain hsound hintact ha).inj
      (Query.plain_of_mem hplain hsound hintact hb) hab
  · intro body hbody id hid
    have hid' := closed hs hbody hid
    rw [hnames] at hid'
    obtain ⟨o, ho, rfl⟩ := List.mem_map.1 hid'
    refine ⟨o, ⟨ho, rfl⟩, fun o' ⟨ho', heq⟩ => ?_⟩
    exact hiff.1 hn o' ho' o ho (SetOrigin.name_eq_iff.1 heq)
  · intro i o ho
    have hi : (setNames s.sets)[i]? = some o.name := by
      rw [hnames, List.getElem?_map, ho]
      rfl
    rw [List.getElem?_map] at hi
    obtain ⟨⟨_, body⟩, hset, rfl⟩ := Option.map_eq_some_iff.1 hi
    exact ⟨body, hset, definition?_eq hn (List.mem_of_getElem? hset)⟩

theorem names_distinct_salesByMonth :
    ∃ s, Compiler.statement { source := sales.source } salesByMonth = .ok s ∧
      (setNames s.sets).Nodup ∧
        ∃ body, s.definition? (.ofParts ["Time", "Time", "Month"]) = some body := by
  have hdistinct : salesEntry.Distinct := ⟨by decide, by decide, by decide⟩
  have hplain : salesEntry.Plain := ⟨by decide, by decide, by decide⟩
  obtain ⟨s, hs⟩ : ∃ s, Compiler.statement { source := sales.source } salesByMonth = .ok s :=
    isOk_eq_true.1 (by decide +kernel)
  obtain ⟨-, -, hnodup, hdenotes⟩ := names_distinct_iff hdistinct ⟨"q", _, rfl⟩ hs
  have hmonth : (salesByMonth.setOrigins {})[1]? = some (.level "Time" "Time" "Month") := by
    decide +kernel
  obtain ⟨body, -, hbody⟩ := (hdenotes (hnodup hplain)).2 1 _ hmonth
  exact ⟨s, hs, hnodup hplain, body, hbody⟩

/-- A cube whose names are distinct, with two hierarchies whose names join to the same text. -/
def storesEntry : CubeEntry where
  name := "Sales"
  dimensions := [
    { name := "Store_Type"
      hierarchies := [{ name := "Name", levels := [{ name := "Kind", members := [["Kiosk"]] }] }] },
    { name := "Store"
      hierarchies := [
        { name := "Type_Name", levels := [{ name := "Label", members := [["North"]] }] }] }]

/-- Both hierarchies are on rows. -/
def storesByType : Query :=
  (Query.new "q" storesEntry.link).afterAll [
    .hierarchy "[Store_Type].[Name]" (.includeLevel "Kind"),
    .hierarchy "[Store].[Type_Name]" (.includeLevel "Label"),
    .move "[Store_Type].[Name]" .rows none, .move "[Store].[Type_Name]" .rows none]

/-- Both operands are declared under one name, so a reference to the second denotes the first. -/
theorem names_clash_stores :
    storesEntry.Distinct ∧ Query.Reachable storesEntry.link storesByType ∧
      ∃ s, Compiler.statement { source := storesEntry.link.source } storesByType = .ok s ∧
        ¬(setNames s.sets).Nodup ∧
          setNames s.sets =
            [.ofParts ["ROWS", "Store_Type", "Name"], .ofParts ["ROWS", "Store", "Type_Name"]] ∧
          s.definition? (.ofParts ["ROWS", "Store", "Type_Name"]) = (s.sets.head?).map (·.2) := by
  refine ⟨⟨by decide, by decide, by decide⟩, ⟨"q", _, rfl⟩, ?_⟩
  obtain ⟨s, hs, hnames⟩ : ∃ s,
      Compiler.statement { source := storesEntry.link.source } storesByType = .ok s ∧
        decide (setNames s.sets = [.ofParts ["ROWS", "Store_Type", "Name"],
          .ofParts ["ROWS", "Store", "Type_Name"]]) = true :=
    any_toOption_eq_true.1 (by decide +kernel)
  have hnames := of_decide_eq_true hnames
  refine ⟨s, hs, ?_, hnames, ?_⟩
  · rw [hnames]
    decide
  · cases hsets : s.sets with
    | nil =>
      rw [hsets] at hnames
      cases hnames
    | cons d ds =>
      rw [hsets] at hnames
      have hd : d.1 = .ofParts ["ROWS", "Store", "Type_Name"] :=
        (List.cons.inj hnames).1.trans (by decide)
      rw [Statement.definition?, hsets, List.find?_cons_of_pos (by simpa using hd)]
      rfl

end Statement
end CubeQuery
