import CubeQuery.Selection.Hierarchy

/-!
# Edits

A change made in place. An edit works on a state piece by piece and may be rejected on the way;
what it has done by then stays done. `Edit.settle` is the other extreme, a change made as a whole
or not at all. An edit comes to the same as such a change when it looks at the state first and,
from its first write on, nothing can be rejected any more.
-/

namespace CubeQuery

/-- A change of a state in place. -/
abbrev Edit (σ : Type) := ExceptT Rejection (StateM σ)

namespace Edit

variable {σ τ α β : Type}

/-- The outcome of an edit, and the state it leaves behind, rejected or not. -/
def start (e : Edit σ α) (s : σ) : Except Rejection α × σ := StateT.run (ExceptT.run e) s

/-- Looks at the state without changing it. -/
def check (f : σ → Except Rejection α) : Edit σ α := do
  match f (← get) with
  | .ok a => return a
  | .error r => throw r

/-- Works on a part of the state. -/
def on (part : σ → τ) (put : σ → τ → σ) (e : Edit τ α) : Edit σ α :=
  fun s => ((e.start (part s)).1, put s (e.start (part s)).2)

/-- Works on the element at a position of a list, if there is one. -/
def onElement (i : Nat) (e : Edit τ Unit) : Edit (List τ) Unit :=
  fun xs =>
    match xs[i]? with
    | some x => ((e.start x).1, xs.set i (e.start x).2)
    | none => (.ok (), xs)

/-! ## Outcomes -/

@[simp] theorem start_pure (a : α) (s : σ) : (pure a : Edit σ α).start s = (.ok a, s) := rfl

@[simp] theorem start_throw (r : Rejection) (s : σ) :
    (throw r : Edit σ α).start s = (.error r, s) := rfl

@[simp] theorem start_get (s : σ) : (get : Edit σ σ).start s = (.ok s, s) := rfl

@[simp] theorem start_set (t s : σ) : (set t : Edit σ PUnit).start s = (.ok (), t) := rfl

@[simp] theorem start_modify (f : σ → σ) (s : σ) :
    (modify f : Edit σ PUnit).start s = (.ok (), f s) := rfl

theorem start_bind (e : Edit σ α) (k : α → Edit σ β) (s : σ) :
    (e >>= k).start s =
      match e.start s with
      | (.ok a, t) => (k a).start t
      | (.error r, t) => (.error r, t) := by
  simp only [start, bind, ExceptT.run, ExceptT.bind, ExceptT.mk, StateT.run, StateT.bind]
  cases e s with
  | mk r t => cases r <;> rfl

@[simp] theorem start_map (f : α → β) (e : Edit σ α) (s : σ) :
    (f <$> e).start s = ((e.start s).1.map f, (e.start s).2) := by
  rw [← bind_pure_comp, start_bind]
  cases e.start s with
  | mk r t => cases r <;> rfl

@[simp] theorem start_discard (e : Edit σ α) (s : σ) :
    (discard e : Edit σ PUnit).start s = ((e.start s).1.map fun _ => PUnit.unit, (e.start s).2) :=
  start_map (fun _ => PUnit.unit) e s

@[simp] theorem start_check (f : σ → Except Rejection α) (s : σ) :
    (check f).start s = (f s, s) := by
  simp only [check, start_bind, start_get]
  cases f s <;> rfl

/-- Writes made one after the other. -/
theorem start_forM_modify (f : α → σ → σ) (xs : List α) (s : σ) :
    (forM xs fun x => modify (f x) : Edit σ PUnit).start s =
      (.ok (), xs.foldl (fun s x => f x s) s) := by
  induction xs generalizing s with
  | nil => rfl
  | cons x xs ih =>
    simp only [List.forM_cons, start_bind, start_modify]
    exact ih (f x s)

/-! ## All or nothing -/

/-- What a state comes to by a change made as a whole or, rejected, not at all. -/
def settle (s : σ) : Except Rejection σ → Except Rejection Unit × σ
  | .ok t => (.ok (), t)
  | .error r => (.error r, s)

@[simp] theorem settle_ok (s t : σ) : settle s (.ok t) = (.ok (), t) := rfl

@[simp] theorem settle_error (s : σ) (r : Rejection) : settle s (.error r) = (.error r, s) := rfl

/-- Work on a part is all or nothing where it is so on that part. -/
theorem start_on {part : σ → τ} {put : σ → τ → σ} {e : Edit τ Unit} {s : σ}
    {r : Except Rejection τ} (hput : put s (part s) = s)
    (h : e.start (part s) = settle (part s) r) :
    (on part put e).start s = settle s (r.map (put s)) := by
  show ((e.start (part s)).1, put s (e.start (part s)).2) = _
  rw [h]
  cases r with
  | ok t => rfl
  | error r => rw [settle_error, hput]; rfl

/-- Work on an element is all or nothing where it is so on each element. -/
theorem start_onElement {e : Edit τ Unit} {f : τ → Except Rejection τ} (i : Nat) (xs : List τ)
    (h : ∀ x, e.start x = settle x (f x)) :
    (onElement i e).start xs = settle xs (changeAt f xs i) := by
  rw [changeAt_eq]
  show (match xs[i]? with
    | some x => ((e.start x).1, xs.set i (e.start x).2)
    | none => (.ok (), xs)) = _
  cases hx : xs[i]? with
  | none => rfl
  | some x =>
    obtain ⟨hi, rfl⟩ := List.getElem?_eq_some_iff.1 hx
    simp only [h]
    cases f xs[i] with
    | ok y => rfl
    | error r => rw [settle_error, List.set_getElem_self]; rfl

end Edit
end CubeQuery
