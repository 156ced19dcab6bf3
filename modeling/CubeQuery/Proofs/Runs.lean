import CubeQuery.Proofs.Atomicity
import Mathlib.Logic.Relation

/-!
# Runs of changes

`Reaches f s t` is the closure of accepted steps: `t` comes from `s` by steps of `f` none of which
is rejected. A query is left by a sequence of changes in a state that accepted ones alone lead to
(`reaches_afterAll`), so what every accepted change keeps, every sequence of changes keeps
(`afterAll_keeps`). The last section makes the steps of a part into steps of the whole.
-/

namespace CubeQuery

open Relation

/-- `t` comes from `s` by accepted steps. -/
def Reaches {σ γ : Type} (f : σ → γ → Except Rejection σ) : σ → σ → Prop :=
  ReflTransGen fun s t => ∃ c, f s c = .ok t

namespace Reaches

variable {σ γ α : Type} {f : σ → γ → Except Rejection σ} {s t u : σ}

theorem refl (s : σ) : Reaches f s s := ReflTransGen.refl

theorem trans (h : Reaches f s t) (h' : Reaches f t u) : Reaches f s u := ReflTransGen.trans h h'

theorem step (c : γ) (h : f s c = .ok t) : Reaches f s t := ReflTransGen.single ⟨c, h⟩

/-- What accepted steps keep, their closure keeps. -/
theorem keeps {P : σ → Prop} (hP : ∀ s c t, P s → f s c = .ok t → P t) (h : Reaches f s t) :
    P s → P t := by
  intro hs
  induction h with
  | refl => exact hs
  | tail _ hstep ih =>
    obtain ⟨c, hc⟩ := hstep
    exact hP _ c _ ih hc

/-- Where each step on a part is one on the whole, steps on the part are steps on the whole. -/
theorem lift {τ δ : Type} {g : τ → δ → Except Rejection τ} (put : σ → τ)
    (hput : ∀ a b c, f a c = .ok b → ∃ d, g (put a) d = .ok (put b)) (h : Reaches f s t) :
    Reaches g (put s) (put t) :=
  ReflTransGen.lift put (fun a b ⟨c, hc⟩ => hput a b c hc) _ _ h

/-- A chain of links that are reached is reached. -/
theorem foldlM {g : σ → α → Except Rejection σ} {xs : List α}
    (hg : ∀ s x t, g s x = .ok t → Reaches f s t) (h : xs.foldlM g s = .ok t) : Reaches f s t :=
  foldlM_keeps (fun _ x _ hs h => hs.trans (hg _ x _ h)) (refl s) h

theorem foldl {g : σ → α → σ} (hg : ∀ s x, Reaches f s (g s x)) (xs : List α) (s : σ) :
    Reaches f s (xs.foldl g s) := by
  induction xs generalizing s with
  | nil => exact refl s
  | cons x xs ih => exact (hg s x).trans (ih (g s x))

end Reaches

/-! ## Runs of a query -/

namespace Query

theorem after_eq (q : Query) (c : Change) : q.after c = (Edit.settle q (q.change c)).2 := by
  rw [after, start_edit]

theorem after_of_ok {q r : Query} {c : Change} (h : q.change c = .ok r) : q.after c = r := by
  rw [after_eq, h, Edit.settle_ok]

theorem after_of_error {q : Query} {c : Change} {e : Rejection} (h : q.change c = .error e) :
    q.after c = q := by
  rw [after_eq, h, Edit.settle_error]

theorem afterAll_cons (q : Query) (c : Change) (cs : List Change) :
    q.afterAll (c :: cs) = (q.after c).afterAll cs := rfl

theorem afterAll_append (q : Query) (cs ds : List Change) :
    q.afterAll (cs ++ ds) = (q.afterAll cs).afterAll ds :=
  List.foldl_append

/-- A sequence of changes leaves the query where its accepted changes lead to. -/
theorem reaches_afterAll (q : Query) (cs : List Change) : Reaches change q (q.afterAll cs) := by
  refine Reaches.foldl (fun q c => ?_) cs q
  cases h : q.change c with
  | ok r =>
    rw [after_of_ok h]
    exact Reaches.step c h
  | error e =>
    rw [after_of_error h]
    exact Reaches.refl q

theorem afterAll_of_reaches {q r : Query} (h : Reaches change q r) :
    ∃ cs, q.afterAll cs = r := by
  induction h with
  | refl => exact ⟨[], rfl⟩
  | tail _ hstep ih =>
    obtain ⟨cs, rfl⟩ := ih
    obtain ⟨c, hc⟩ := hstep
    refine ⟨cs ++ [c], ?_⟩
    rw [afterAll_append]
    exact after_of_ok hc

/-- The queries on a cube that changes lead to, whichever of them are accepted. -/
def Reachable (cube : Cube) (q : Query) : Prop := ∃ name cs, q = (new name cube).afterAll cs

/-- What every accepted change keeps, a sequence of changes keeps. -/
theorem afterAll_keeps {P : Query → Prop} (hP : ∀ q c r, P q → q.change c = .ok r → P r)
    {q : Query} (hq : P q) (cs : List Change) : P (q.afterAll cs) :=
  (reaches_afterAll q cs).keeps hP hq

/-- What accepted changes of some kind keep, a sequence of such changes keeps. -/
theorem afterAll_keeps_of {A : Change → Prop} {P : Query → Prop}
    (hP : ∀ q c r, A c → P q → q.change c = .ok r → P r) {q : Query} (hq : P q)
    {cs : List Change} (hcs : ∀ c ∈ cs, A c) : P (q.afterAll cs) := by
  induction cs generalizing q with
  | nil => exact hq
  | cons c cs ih =>
    obtain ⟨hc, hcs⟩ := List.forall_mem_cons.1 hcs
    refine ih ?_ hcs
    cases h : q.change c with
    | ok r =>
      rw [after_of_ok h]
      exact hP q c r hc hq h
    | error e =>
      rw [after_of_error h]
      exact hq

end Query

/-! ## Steps of a part -/

namespace HierarchySelection

theorem reaches_ground {s t : HierarchySelection} (h : Reaches change s t) : SameGround s t :=
  h.keeps (fun _ _ _ hs hc => hs.trans (change_ground hc)) (SameGround.refl s)

/-- Changes of one level, made on its hierarchy. -/
theorem reaches_set_level {s : HierarchySelection} {name : String} {i : Nat}
    {l l' : LevelSelection} (hi : s.levelIndex name = .ok i) (hl : s.levels[i]? = some l)
    (h : Reaches LevelSelection.change l l') :
    Reaches change s { s with levels := s.levels.set i l' } := by
  obtain ⟨hlt, rfl⟩ := List.getElem?_eq_some_iff.1 hl
  induction h with
  | refl =>
    rw [List.set_getElem_self]
    exact Reaches.refl s
  | @tail m n _ hstep ih =>
    obtain ⟨c, hc⟩ := hstep
    refine ih.trans (Reaches.step (.level name c) ?_)
    have hi' : { s with levels := s.levels.set i m }.levelIndex name = .ok i := by
      rw [(reaches_ground ih).levelIndex_eq, hi]
    have hm : (s.levels.set i m)[i]? = some m := by
      rw [List.getElem?_set_self hlt]
    refine updateLevel_eq_ok.2 ⟨i, hi', s.levels.set i n, ?_, rfl⟩
    refine changeAt_eq_ok.2 (.inr ⟨m, n, hm, hc, ?_⟩)
    rw [List.set_set]

theorem reaches_updateLevel {s t : HierarchySelection} {name : String}
    {f : LevelSelection → Except Rejection LevelSelection}
    (hf : ∀ l l', f l = .ok l' → Reaches LevelSelection.change l l')
    (h : s.updateLevel name f = .ok t) : Reaches change s t := by
  obtain ⟨i, hi, levels, hl, rfl⟩ := updateLevel_eq_ok.1 h
  rcases changeAt_eq_ok.1 hl with ⟨-, rfl⟩ | ⟨l, l', hget, hl', rfl⟩
  · exact Reaches.refl s
  · exact reaches_set_level hi hget (hf l l' hl')

end HierarchySelection

namespace Query

/-- Changes of one hierarchy, made on its query. -/
theorem reaches_set_hierarchy {q : Query} {name : String} {i : Nat} {s t : HierarchySelection}
    (hi : q.find? name = some i) (hs : q.hierarchies[i]? = some s)
    (h : Reaches HierarchySelection.change s t) :
    Reaches change q { q with hierarchies := q.hierarchies.set i t } := by
  obtain ⟨hlt, rfl⟩ := List.getElem?_eq_some_iff.1 hs
  induction h with
  | refl =>
    rw [List.set_getElem_self]
    exact Reaches.refl q
  | @tail m n hm hstep ih =>
    obtain ⟨c, hc⟩ := hstep
    refine ih.trans (Reaches.step (.hierarchy name c) ?_)
    have hi' : { q with hierarchies := q.hierarchies.set i m }.find? name = some i := by
      rw [← hi]
      exact find?_of_registry (map_set_eq hs (HierarchySelection.reaches_ground hm).hierarchy) name
    have hget : (q.hierarchies.set i m)[i]? = some m := by
      rw [List.getElem?_set_self hlt]
    refine update_eq_ok.2 ⟨i, hi', q.hierarchies.set i n, ?_, rfl⟩
    refine changeAt_eq_ok.2 (.inr ⟨m, n, hget, hc, ?_⟩)
    rw [List.set_set]

theorem reaches_update {q r : Query} {name : String}
    {f : HierarchySelection → Except Rejection HierarchySelection}
    (hf : ∀ s t, f s = .ok t → Reaches HierarchySelection.change s t)
    (h : q.update name f = .ok r) : Reaches change q r := by
  obtain ⟨i, s, t, hi, hget, ht, rfl⟩ := exists_of_update h
  exact reaches_set_hierarchy hi hget (hf s t ht)

/-- Changes of one axis, made on its query. -/
theorem reaches_set_axis (q : Query) (l : Location) {a : Axis}
    (h : Reaches Axis.change (q.axes.get l) a) :
    Reaches change q { q with axes := q.axes.modify l fun _ => a } := by
  induction h with
  | refl =>
    rw [Axes.modify_get]
    exact Reaches.refl q
  | @tail m n _ hstep ih =>
    obtain ⟨c, hc⟩ := hstep
    refine ih.trans (Reaches.step (.axis l c) ?_)
    have hget : (q.axes.modify l fun _ => m).get l = m := by
      rw [Axes.get_modify, if_pos rfl]
    have hmod : ((q.axes.modify l fun _ => m).modify l fun _ => n) =
        q.axes.modify l fun _ => n := by
      cases l <;> rfl
    simp only [change, hget, hc, ok_bind, pure_eq_ok, hmod]

end Query
end CubeQuery
