import CubeQuery.Proofs.Constructed
import CubeQuery.Proofs.Failures
import CubeQuery.Proofs.Writable

/-!
# Queries that have a text

Where each demand of a query comes from is known (`arises_of_mem`), so a query that is made of a
catalog has a text as soon as its texts can be read and the default members it needs are there
(`Query.text_exists`). No name can stand in the way: every name that such a query declares is a
written path.
-/

namespace CubeQuery
namespace Compiler

/-- What a demand of a query comes from. -/
def Arises (c : Compiler) (q : Query) : Demand → Prop
  | .name uniqueName =>
    (∃ m ∈ q.calculatedMembers, m.uniqueName = uniqueName) ∨
      ∃ m, .calculated m ∈ q.block.measures ∧ m.uniqueName = uniqueName
  | .text _ => True
  | .defaultMember h => ∃ s ∈ q.hierarchies, s.hierarchy = h ∧ ∃ l ∈ s.activeLevels, l.level.isAll
  | .value .. => c.options.legacyParameters = true

variable {c : Compiler} {q : Query}

theorem arises_texts {texts : List String} {d : Demand} (h : d ∈ texts.map Demand.text) :
    c.Arises q d := by
  obtain ⟨text, -, rfl⟩ := List.mem_map.1 h
  trivial

theorem arises_level {s : HierarchySelection} (hs : s ∈ q.hierarchies) {l : LevelSelection}
    (hl : l ∈ s.activeLevels) {d : Demand}
    (h : d ∈ c.levelDemands q.parameters s.hierarchy l) : c.Arises q d := by
  rcases List.mem_append.1 h with h | h
  · rcases List.mem_append.1 h with h | h
    · obtain ⟨value, hvalue, rfl⟩ := Option.map_eq_some_iff.1 (Option.mem_toList.1 h)
      unfold valueOn at hvalue
      split at hvalue
      · next hlegacy => exact hlegacy
      · cases hvalue
    · split at h
      · next hall =>
        rw [List.mem_singleton.1 h]
        exact ⟨s, hs, rfl, l, hl, hall⟩
      · cases h
  · exact arises_texts h

theorem arises_hierarchy {s : HierarchySelection} (hs : s ∈ q.hierarchies) {d : Demand}
    (h : d ∈ c.hierarchyDemands q.parameters s) : c.Arises q d := by
  unfold hierarchyDemands at h
  split at h
  · exact arises_texts h
  · split at h
    · cases h
    · rcases List.mem_append.1 h with h | h
      · obtain ⟨l, hl, h⟩ := List.mem_flatMap.1 h
        exact arises_level hs hl h
      · exact arises_texts h

theorem arises_measure {m : Measure} (hm : m ∈ q.block.measures) {d : Demand}
    (h : d ∈ measureDemands m) : c.Arises q d := by
  cases m with
  | stored m => cases h
  | calculated m =>
    rcases List.mem_cons.1 h with rfl | h
    · exact .inr ⟨m, hm, rfl⟩
    · rw [List.mem_singleton.1 h]
      trivial

theorem mem_of_joinedOn {l : Location} {s : HierarchySelection} (hs : s ∈ q.joinedOn l) :
    s ∈ q.hierarchies := by
  unfold Query.joinedOn at hs
  split at hs
  · cases hs
  · obtain ⟨i, -, hi⟩ := List.mem_filterMap.1 hs
    exact List.mem_of_getElem? hi

theorem arises_axis {l : Location} {d : Demand} (h : d ∈ c.axisDemands q l) : c.Arises q d := by
  rcases List.mem_append.1 h with h | h
  · obtain ⟨s, hs, h⟩ := List.mem_flatMap.1 h
    exact arises_hierarchy (mem_of_joinedOn hs) h
  · rcases List.mem_append.1 h with h | h
    · split at h
      · exact arises_texts h
      · cases h
    · split at h
      · obtain ⟨m, hm, h⟩ := List.mem_flatMap.1 h
        exact arises_measure hm h
      · cases h

theorem arises_of_mem {d : Demand} (h : d ∈ c.demands q) : c.Arises q d := by
  rcases List.mem_append.1 h with h | h
  · rcases List.mem_append.1 h with h | h
    · rcases List.mem_append.1 h with h | h
      · obtain ⟨m, hm, h⟩ := List.mem_flatMap.1 h
        rcases List.mem_cons.1 h with rfl | h
        · exact .inl ⟨m, hm, rfl⟩
        · rw [List.mem_singleton.1 h]
          trivial
      · exact arises_axis h
    · exact arises_axis h
  · split at h
    · cases h
    · exact arises_axis h

/-- A failure of compilation is that of a demand. -/
theorem refusal_of_failure {f : Failure} (h : c.statement q = .error f) :
    ∃ d ∈ c.demands q, c.refusal? d = some f := by
  have hf := failure?_eq_some.2 h
  rw [statement_failure?] at hf
  exact List.exists_of_findSome?_eq_some hf

/-- A query compiles if every demand is met. -/
theorem statement_of_met (h : ∀ d ∈ c.demands q, c.refusal? d = none) :
    ∃ s, c.statement q = .ok s := by
  rw [← failure?_eq_none, statement_failure?]
  exact List.findSome?_eq_none_iff.2 h

/-- Names are the only demands that fail for a bad name. -/
theorem refusal?_badName {d : Demand} {name : String} (h : c.refusal? d = some (.badName name)) :
    d = .name name ∧ Identifier.parse? name = none := by
  cases d with
  | name uniqueName =>
    rw [refusal?] at h
    split at h
    · cases h
    · next hparse =>
      cases h
      exact ⟨rfl, hparse⟩
  | text text =>
    rw [refusal?, expr, failure?_mapError] at h
    obtain ⟨e, -, he⟩ := Option.map_eq_some_iff.1 h
    cases he
  | defaultMember h' =>
    rw [refusal?] at h
    split at h <;> cases h
  | value level value =>
    rw [refusal?, valueMembers, failure?_mapM] at h
    obtain ⟨n, -, hn⟩ := List.exists_of_findSome?_eq_some h
    split at hn
    · simp only at hn
      split at hn <;> cases hn
    · cases hn

end Compiler

namespace Query

variable {q : Query}

/-- Every name that a query of a catalog declares is a written path. -/
theorem FromCatalog.isPathText_name (hq : q.FromCatalog) {c : Compiler} {name : String}
    (h : .name name ∈ c.demands q) : Identifier.IsPathText name := by
  rcases Compiler.arises_of_mem h with ⟨m, hm, rfl⟩ | ⟨m, -, rfl⟩
  · exact (hq.members m hm).isPathText
  · exact isPathText_measureUniqueName m.name

theorem FromCatalog.not_badName (hq : q.FromCatalog) (options : Options) (name : String) :
    q.statement options ≠ .error (.badName name) := by
  intro h
  obtain ⟨d, hd, hrefused⟩ := Compiler.refusal_of_failure h
  obtain ⟨rfl, hparse⟩ := Compiler.refusal?_badName hrefused
  obtain ⟨id, hid, -⟩ := (hq.isPathText_name hd).parse?
  cases hparse.symm.trans hid

/-- Without legacy parameters the texts and the default members are all that can fail. -/
theorem FromCatalog.statement_exists (hq : q.FromCatalog) {options : Options}
    (hlegacy : options.legacyParameters = false)
    (htexts : ∀ text, .text text ∈ q.demands options → ∃ e, Expr.fragment text = .ok e)
    (hdefaults : ∀ s ∈ q.hierarchies, (∃ l ∈ s.activeLevels, l.level.isAll) →
      ∃ m, q.cube.defaultMember? s.hierarchy = some m) :
    ∃ s, q.statement options = .ok s := by
  refine Compiler.statement_of_met fun d hd => ?_
  have harises := Compiler.arises_of_mem hd
  cases d with
  | name uniqueName =>
    obtain ⟨id, hid, -⟩ := (hq.isPathText_name hd).parse?
    rw [Compiler.refusal?, hid]
  | text text =>
    obtain ⟨e, he⟩ := htexts text hd
    exact failure?_eq_none.2 ⟨e, mapError_eq_ok.2 he⟩
  | defaultMember h =>
    obtain ⟨s, hs, rfl, hall⟩ := harises
    obtain ⟨m, hm⟩ := hdefaults s hs hall
    have hsource : (Compiler.ofCube q.cube options).source.default? s.hierarchy = some m := hm
    rw [Compiler.refusal?, hsource]
  | value level value =>
    have hon : options.legacyParameters = true := harises
    rw [hlegacy] at hon
    cases hon

/-- **Queries have texts.** A query that changes make of a catalog, or that a definition builds on
one, has a text under all options without legacy parameters, if the reader takes the texts that the
query demands and there is a default member for each hierarchy whose all level is in use. Under any
options, no bad name stops its compilation. -/
theorem text_exists :
    (∀ q : Query, q.FromCatalog → ∀ options : Options, options.legacyParameters = false →
      (∀ text, .text text ∈ q.demands options → ∃ e, Expr.fragment text = .ok e) →
      (∀ s ∈ q.hierarchies, (∃ l ∈ s.activeLevels, l.level.isAll) →
        ∃ m, q.cube.defaultMember? s.hierarchy = some m) →
      ∃ text, q.text options = .ok text) ∧
    (∀ q : Query, q.FromCatalog →
      ∀ options name, q.statement options ≠ .error (.badName name)) ∧
    (∀ name (e : CubeEntry), (new name e.link).FromCatalog) ∧
    (∀ q : Query, q.FromCatalog →
      ∀ cs : List Change, (∀ c ∈ cs, c.FromCatalog) → (q.afterAll cs).FromCatalog) ∧
    ∀ (d : Definition) (entries : List CubeEntry) (q : Query),
      d.build (Catalog.ofEntries entries) = .ok q → q.FromCatalog := by
  refine ⟨fun q hq options hlegacy htexts hdefaults => ?_, fun q hq => hq.not_badName,
    fromCatalog_new, fun q hq cs => hq.afterAll, fun d entries q => Definition.build_fromCatalog⟩
  obtain ⟨s, hs⟩ := hq.statement_exists hlegacy htexts hdefaults
  obtain ⟨text, htext⟩ := Statement.emits (fun _ _ => Compiler.writable_fragment) hs
  rw [Query.text, hs]
  exact ⟨text, mapError_eq_ok.2 htext⟩

/-- A cube whose names hold brackets and dots. -/
def oddEntry : CubeEntry where
  name := "S]ales"
  dimensions := [
    { name := "Pro]duct"
      hierarchies := [
        { name := "By.Line"
          levels := [
            { name := "(All)", kind := .all },
            { name := "L]ine", members := [["a]]"], ["b", " .]"]] }] }] }]
  measures := [{ name := "Units" }]

/-- All levels of the hierarchy, a member below one of its members, and a measure with a formula. -/
def oddDefinition : Definition where
  name := "q"
  cube := "S]ales"
  calculatedMeasures := [{ name := "Un.its]", formula := "[Measures].[Units] * 2" }]
  rows :=
    { hierarchies := [
        { name := "By.Line"
          levels := [
            { name := "(All)" },
            { name := "L]ine"
              detail := some
                { override := some "[Pro]]duct].[By.Line].Members"
                  filters := [.predicate "[Measures].[Units] > 1"]
                  range := some ("[a]]]]]", none) } }]
          calculated := [
            { name := "].["
              formula := "Sum([Pro]]duct].[By.Line].Members)"
              parent := some "[Pro]]duct].[By.Line].[a]]]]]" }]
          shape := { sort := some ⟨.desc, "[Measures].[Units]"⟩ } }] }
  block := some { measures := ["Units", "Un.its]"] }

theorem text_exists_oddDefinition :
    ∃ q, oddDefinition.build (Catalog.ofEntries [oddEntry]) = .ok q ∧
      (q.demands {}).length = 9 ∧ (∃ s ∈ q.hierarchies, ∃ l ∈ s.activeLevels, l.level.isAll) ∧
        ∃ text, q.text = .ok text := by
  obtain ⟨q, hq, hcheck⟩ : ∃ q, oddDefinition.build (Catalog.ofEntries [oddEntry]) = .ok q ∧
      (((q.demands {}).all fun
          | .text text => (Expr.fragment text).isOk
          | _ => true) &&
        (q.hierarchies.all fun s => (q.cube.defaultMember? s.hierarchy).isSome) &&
        (q.hierarchies.any fun s => s.activeLevels.any (·.level.isAll)) &&
        (q.demands {}).length == 9) = true :=
    any_toOption_eq_true.1 (by decide +kernel)
  simp only [Bool.and_eq_true, List.all_eq_true, List.any_eq_true, beq_iff_eq] at hcheck
  obtain ⟨⟨⟨hread, hdefault⟩, hall⟩, hlength⟩ := hcheck
  have hmade := text_exists.2.2.2.2 oddDefinition [oddEntry] q hq
  refine ⟨q, hq, hlength, hall, text_exists.1 q hmade {} rfl (fun text ht => ?_) fun s hs _ => ?_⟩
  · exact isOk_eq_true.1 (hread _ ht)
  · exact Option.isSome_iff_exists.1 (hdefault s hs)

end Query
end CubeQuery
