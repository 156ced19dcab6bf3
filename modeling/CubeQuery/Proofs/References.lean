import CubeQuery.Expr.References
import CubeQuery.Statement
import Mathlib.Data.List.Nodup
import Mathlib.Logic.Function.Iterate
import Mathlib.Logic.Relation

/-!
# References inside statements

A statement declares sets and refers to them by name. `Grounded` says that the declarations can be
brought into an order in which each refers to earlier ones only; they need not be declared in that
order. With distinct names no set then refers to itself, not even through others (`acyclic`), and
putting definitions in the place of names comes to an end after as many rounds as there are sets
(`expand_ends`).
-/

namespace CubeQuery

/-- A declared set: its name and its definition. -/
abbrev NamedSet := Identifier × Expr

/-- The names of declared sets. -/
abbrev setNames (ds : List NamedSet) : List Identifier := ds.map (·.1)

def Declaration.set? : Declaration → Option NamedSet
  | .set name body => some (name, body)
  | .member .. => none

/-- The sets among some declarations, in order. -/
def declaredSets (ds : List Declaration) : List NamedSet := ds.filterMap (·.set?)

namespace Statement

def sets (s : Statement) : List NamedSet := declaredSets s.declarations

/-- The expressions that hold sets: those of the axes, of the slicer and of the declared sets. -/
def bodies (s : Statement) : List Expr :=
  s.axes.map (·.body) ++ (s.slicer.map (·.body)).toList ++ s.sets.map (·.2)

/-- The definition of one set refers to another set. -/
def Refers (s : Statement) (a b : Identifier) : Prop :=
  ∃ body, (a, body) ∈ s.sets ∧ b ∈ body.identifiers

/-- The first definition of a name. -/
def definition? (s : Statement) (name : Identifier) : Option Expr :=
  (s.sets.find? (·.1 = name)).map (·.2)

/-- Puts definitions in the place of names, once. -/
def expand (s : Statement) (e : Expr) : Expr := e.replace s.definition?

end Statement

/-! ## Orders of declarations -/

/-- Each declaration refers to known names and to those of earlier declarations. -/
def InOrder : List Identifier → List NamedSet → Prop
  | _, [] => True
  | known, (name, body) :: rest => body.identifiers ⊆ known ∧ InOrder (name :: known) rest

theorem InOrder.mono {known known' : List Identifier} {ds : List NamedSet}
    (h : InOrder known ds) (hk : known ⊆ known') : InOrder known' ds := by
  induction ds generalizing known known' with
  | nil => trivial
  | cons d ds ih =>
    obtain ⟨hd, h⟩ := h
    exact ⟨List.Subset.trans hd hk, ih h (List.cons_subset_cons d.1 hk)⟩

theorem InOrder.append {known : List Identifier} {ds es : List NamedSet} (h : InOrder known ds)
    (h' : InOrder (setNames ds ++ known) es) : InOrder known (ds ++ es) := by
  induction ds generalizing known with
  | nil => exact h'
  | cons d ds ih =>
    obtain ⟨hd, h⟩ := h
    refine ⟨hd, ih h (h'.mono fun id hid => ?_)⟩
    simp only [List.map_cons, List.cons_append, List.mem_cons, List.mem_append] at hid ⊢
    tauto

theorem InOrder.refers_back {known : List Identifier} {ds es : List NamedSet} {d : NamedSet}
    (h : InOrder known (ds ++ d :: es)) : d.2.identifiers ⊆ setNames ds ++ known := by
  induction ds generalizing known with
  | nil => exact h.1
  | cons d' ds ih =>
    intro id hid
    have := ih h.2 hid
    simp only [List.map_cons, List.cons_append, List.mem_cons, List.mem_append] at this ⊢
    tauto

/-- The declarations can be ordered so that each refers to earlier ones only. -/
def Grounded (ds : List NamedSet) : Prop := ∃ es : List NamedSet, es.Perm ds ∧ InOrder [] es

theorem grounded_nil : Grounded [] := ⟨[], .refl [], trivial⟩

theorem Grounded.append {ds es : List NamedSet} (h : Grounded ds) (h' : Grounded es) :
    Grounded (ds ++ es) := by
  obtain ⟨ds', hp, ho⟩ := h
  obtain ⟨es', hp', ho'⟩ := h'
  exact ⟨ds' ++ es', hp.append hp', ho.append (ho'.mono (List.nil_subset _))⟩

/-- A declaration that refers to declared names can be added. -/
theorem Grounded.concat {ds : List NamedSet} {d : NamedSet} (h : Grounded ds)
    (hd : d.2.identifiers ⊆ setNames ds) : Grounded (ds ++ [d]) := by
  obtain ⟨ds', hp, ho⟩ := h
  refine ⟨ds' ++ [d], hp.append_right [d], ho.append ⟨fun id hid => ?_, trivial⟩⟩
  rw [List.append_nil]
  exact (hp.map _).mem_iff.2 (hd hid)

/-- What a definition refers to is declared. -/
theorem Grounded.closed {ds : List NamedSet} (h : Grounded ds) {d : NamedSet} (hd : d ∈ ds) :
    d.2.identifiers ⊆ setNames ds := by
  obtain ⟨es, hp, ho⟩ := h
  obtain ⟨before, after, rfl⟩ := List.append_of_mem (hp.mem_iff.2 hd)
  intro id hid
  have hback : id ∈ setNames before := by
    simpa using ho.refers_back hid
  refine (hp.map _).mem_iff.1 ?_
  rw [List.map_append]
  exact List.mem_append_left _ hback

/-- Declarations with one among them that refers to nothing. Those ahead of it refer to it only, and
those behind it are in order. -/
inductive Pivoted (name : Identifier) : List NamedSet → Prop where
  | pivot {body : Expr} {ds : List NamedSet} (hb : body.identifiers = [])
      (h : InOrder [name] ds) : Pivoted name ((name, body) :: ds)
  | ahead {d : NamedSet} {ds : List NamedSet} (hd : d.2.identifiers ⊆ [name])
      (h : Pivoted name ds) : Pivoted name (d :: ds)

/-- Drawn to the front, the pivot is ahead of all that refer to it. -/
theorem Pivoted.front {name : Identifier} {ds : List NamedSet} (h : Pivoted name ds) :
    ∃ body rest, ((name, body) :: rest).Perm ds ∧ body.identifiers = [] ∧ InOrder [name] rest := by
  induction h with
  | @pivot body ds hb h => exact ⟨body, ds, .refl _, hb, h⟩
  | @ahead d ds hd _ ih =>
    obtain ⟨body, rest, hp, hb, ho⟩ := ih
    refine ⟨body, d :: rest, ?_, hb, hd, ho.mono (List.subset_cons_self _ _)⟩
    exact (List.Perm.swap d (name, body) rest).trans (hp.cons d)

theorem Pivoted.grounded {name : Identifier} {ds : List NamedSet} (h : Pivoted name ds) :
    Grounded ds := by
  obtain ⟨body, rest, hp, hb, ho⟩ := h.front
  refine ⟨(name, body) :: rest, hp, ?_, ho⟩
  rw [hb]
  exact List.nil_subset _

/-! ## Ranks -/

/-- In such an order of distinct names, a reference leads to a name of lower rank. -/
theorem rank_lt {es : List NamedSet} (ho : InOrder [] es) (hn : (setNames es).Nodup)
    {a b : Identifier} {body : Expr} (ha : (a, body) ∈ es) (hb : b ∈ body.identifiers) :
    (setNames es).idxOf b < (setNames es).idxOf a := by
  obtain ⟨ds, fs, rfl⟩ := List.append_of_mem ha
  have hback : b ∈ setNames ds := by
    simpa using ho.refers_back hb
  have hnames : setNames (ds ++ (a, body) :: fs) = setNames ds ++ a :: setNames fs := by
    rw [setNames, List.map_append, List.map_cons]
  rw [hnames] at hn ⊢
  have hnot : a ∉ setNames ds := by
    intro hmem
    exact (List.nodup_append.1 hn).2.2 a hmem a List.mem_cons_self rfl
  rw [List.idxOf_append_of_mem hback, List.idxOf_append_of_notMem hnot, List.idxOf_cons_self,
    Nat.add_zero]
  exact List.idxOf_lt_length_of_mem hback

namespace Statement

variable {s : Statement}

theorem definition?_of_mem {name : Identifier} (h : name ∈ setNames s.sets) :
    ∃ body, s.definition? name = some body ∧ (name, body) ∈ s.sets := by
  obtain ⟨⟨a, body⟩, hmem, rfl⟩ := List.mem_map.1 h
  cases hf : s.sets.find? (·.1 = a) with
  | none =>
    have := List.find?_eq_none.1 hf _ hmem
    simp at this
  | some d =>
    have hd : d.1 = a := by simpa using List.find?_some hf
    refine ⟨d.2, by rw [definition?, hf]; rfl, ?_⟩
    rw [← hd]
    exact List.mem_of_find?_eq_some hf

/-- Without repeated names, a name stands for the one definition it is declared with. -/
theorem definition?_eq (hn : (setNames s.sets).Nodup) {name : Identifier}
    {body : Expr} (h : (name, body) ∈ s.sets) : s.definition? name = some body := by
  obtain ⟨body', hbody, hmem⟩ := definition?_of_mem (List.mem_map_of_mem (f := (·.1)) h)
  have heq := List.inj_on_of_nodup_map hn hmem h rfl
  rw [hbody, (Prod.mk.inj heq).2]

/-- Without repeated names, no set refers to itself through any chain of definitions. -/
theorem acyclic (h : Grounded s.sets) (hn : (setNames s.sets).Nodup) (a : Identifier) :
    ¬Relation.TransGen s.Refers a a := by
  obtain ⟨es, hp, ho⟩ := h
  have hn' : (setNames es).Nodup := (hp.map _).nodup_iff.2 hn
  have hlt : ∀ {a b}, Relation.TransGen s.Refers a b →
      (setNames es).idxOf b < (setNames es).idxOf a := by
    intro a b hab
    induction hab with
    | single hab =>
      obtain ⟨body, hmem, hb⟩ := hab
      exact rank_lt ho hn' (hp.mem_iff.2 hmem) hb
    | tail _ hbc ih =>
      obtain ⟨body, hmem, hb⟩ := hbc
      exact Nat.lt_trans (rank_lt ho hn' (hp.mem_iff.2 hmem) hb) ih
  exact fun hcycle => Nat.lt_irrefl _ (hlt hcycle)

/-- Each round of expansion lowers the ranks: names below a rank are gone after as many rounds. -/
theorem expand_of_rank_lt {es : List NamedSet} (hp : es.Perm s.sets) (ho : InOrder [] es)
    (hn : (setNames es).Nodup) {m : Nat} (hm : m ≤ es.length) {e : Expr}
    (hr : ∀ id ∈ e.identifiers, (setNames es).idxOf id < m) :
    (s.expand^[m] e).identifiers = [] := by
  induction m generalizing e with
  | zero => exact List.eq_nil_iff_forall_not_mem.2 fun id hid => Nat.not_lt_zero _ (hr id hid)
  | succ m ih =>
    rw [Function.iterate_succ_apply]
    refine ih (by omega) fun id hid => ?_
    rw [expand, Expr.identifiers_replace, List.mem_flatMap] at hid
    obtain ⟨a, ha, hid⟩ := hid
    have hrank := hr a ha
    have hlength : (setNames es).length = es.length := List.length_map _
    have hmem : a ∈ setNames es := by
      rw [← List.idxOf_lt_length_iff]
      omega
    obtain ⟨body, hbody, hset⟩ := definition?_of_mem ((hp.map _).mem_iff.1 hmem)
    rw [Expr.successors, hbody] at hid
    have hlt := rank_lt ho hn (hp.mem_iff.2 hset) hid
    omega

/-- Without repeated names, expansion ends after as many rounds as there are sets. -/
theorem expand_ends (h : Grounded s.sets) (hn : (setNames s.sets).Nodup) {e : Expr}
    (he : e.identifiers ⊆ setNames s.sets) :
    (s.expand^[s.sets.length] e).identifiers = [] := by
  obtain ⟨es, hp, ho⟩ := h
  have hn' : (setNames es).Nodup := (hp.map _).nodup_iff.2 hn
  rw [← hp.length_eq]
  refine expand_of_rank_lt hp ho hn' (Nat.le_refl _) fun id hid => ?_
  have hid' : id ∈ setNames es := (hp.map _).mem_iff.2 (he hid)
  have hlt := List.idxOf_lt_length_of_mem hid'
  rwa [List.length_map] at hlt

end Statement
end CubeQuery
