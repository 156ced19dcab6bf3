import CubeQuery.Proofs.Assembly
import CubeQuery.Proofs.LevelReferences
import CubeQuery.Proofs.Runs

/-!
# References of compiled statements

Every reference in a compiled statement leads to a set that the statement declares, and no set is
defined by itself (`references_resolve`). Each part of the compilation gives an expression and the
declarations it needs, and the two together are self-contained: what the expression refers to is
declared, and the declarations are grounded. Parts of that kind can be put side by side and
declared in turn.
-/

namespace CubeQuery
namespace Compiler

theorem DeclaresMember.set? {c : Compiler} {d : Declaration} (h : c.DeclaresMember d) :
    d.set? = none := by
  obtain ⟨_, _, _, h⟩ := h
  obtain ⟨id, -, body, -, rfl⟩ := declareMember_eq_ok.1 h
  rfl

/-- However parts are put together, what they refer to is declared with them. -/
theorem compositional_selfContained {c : Compiler} (hc : c.ReadsNoNames) :
    c.Compositional fun es ds => SelfContained (Expr.identifiersOf es) ds where
  nil := by
    rw [Expr.identifiersOf_nil]
    exact selfContained_nil
  append h h' := by
    rw [Expr.identifiersOf_append]
    exact h.append h'
  declare {e ds} name h := by
    have hdeclared : SelfContained [name] (ds ++ [.set name e]) := h.declare (by simp)
    simpa using hdeclared
  make {es es' ds} h hes := by
    refine h.mono (Expr.identifiersOf_subset.2 ?_)
    exact hes _ (Expr.inherited_identifiers (Expr.identifiersOf es)) (reads_identifiers hc _)
      (Expr.identifiersOf_subset.1 (List.Subset.refl _))
  member h := by
    refine selfContained_nil.append_members (List.filterMap_eq_nil_iff.2 ?_)
    exact List.forall_mem_singleton.2 h.set?
  levels hr := levelSets_selfContained hc hr

theorem statement_selfContained {c : Compiler} (hc : c.ReadsNoNames) {q : Query} {s : Statement}
    (hs : c.statement q = .ok s) :
    SelfContained (Expr.identifiersOf (s.axes.map (·.body) ++ (s.slicer.map (·.body)).toList))
      s.declarations := by
  have h := (compositional_selfContained hc).statement hs
  rwa [List.map_append, ← Option.toList_map] at h

end Compiler

namespace Statement

theorem grounded {source : MemberSource} {options : Options} {q : Query} {s : Statement}
    (hs : Compiler.statement { source, options } q = .ok s) : Grounded s.sets :=
  (Compiler.statement_selfContained (fun _ _ he => Compiler.identifiers_fragment he) hs).grounded

/-- Names in the bodies of a statement are names of its sets. -/
theorem closed {source : MemberSource} {options : Options} {q : Query} {s : Statement}
    (hs : Compiler.statement { source, options } q = .ok s) {e : Expr} (he : e ∈ s.bodies) :
    e.identifiers ⊆ setNames s.sets := by
  intro id hid
  rcases List.mem_append.1 he with he | he
  · have h := Compiler.statement_selfContained (fun _ _ he => Compiler.identifiers_fragment he) hs
    exact h.closed (Expr.mem_identifiersOf.2 ⟨e, he, hid⟩)
  · obtain ⟨⟨name, body⟩, hmem, rfl⟩ := List.mem_map.1 he
    exact (grounded hs).closed hmem hid

/-- **References resolve.** In the statement of any query, compiled with any options and any source
of members, each name in the set of an axis, of the slicer or of a declaration is the name of a
declared set. If no two declared sets share a name, no set is defined by itself, and putting
definitions in the place of names, as many times over as there are sets, leaves no name. -/
theorem references_resolve {source : MemberSource} {options : Options} {q : Query}
    {s : Statement} (hs : Compiler.statement { source, options } q = .ok s) :
    (∀ e ∈ s.bodies, e.identifiers ⊆ setNames s.sets) ∧
      ((setNames s.sets).Nodup →
        (∀ a, ¬Relation.TransGen s.Refers a a) ∧
          ∀ e ∈ s.bodies, (s.expand^[s.sets.length] e).identifiers = []) := by
  refine ⟨fun e he => closed hs he, fun hn => ⟨acyclic (grounded hs) hn, fun e he => ?_⟩⟩
  exact expand_ends (grounded hs) hn (closed hs he)

/-- Months on rows, limited to one year: the set of the months refers to the set of the years. -/
def salesByMonth : Query :=
  (Query.new "q" sales).afterAll [.move "Time" .rows none,
    .hierarchy "Time" (.includeLevel "Month"), .pickMember .inclusion "Time" "[Time].[2024]"]

theorem references_resolve_salesByMonth :
    ∃ s, Compiler.statement { source := sales.source } salesByMonth = .ok s ∧
      s.sets.length = 2 ∧ (∀ a, ¬Relation.TransGen s.Refers a a) ∧
        ∀ e ∈ s.bodies, (s.expand^[2] e).identifiers = [] := by
  obtain ⟨s, hs, hsets⟩ : ∃ s, Compiler.statement { source := sales.source } salesByMonth = .ok s ∧
      decide ((setNames s.sets).Nodup ∧ s.sets.length = 2) = true :=
    any_toOption_eq_true.1 (by decide +kernel)
  obtain ⟨hn, hlength⟩ := of_decide_eq_true hsets
  obtain ⟨hcycle, hend⟩ := (references_resolve hs).2 hn
  rw [hlength] at hend
  exact ⟨s, hs, hlength, hcycle, hend⟩

end Statement
end CubeQuery
