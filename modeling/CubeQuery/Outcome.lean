/-!
# Outcomes

Steps that may fail, made one after the other: what the success of a chain says about its links.
-/

namespace CubeQuery

variable {ε α β σ : Type}

@[simp] theorem ok_bind (a : α) (f : α → Except ε β) : (Except.ok a >>= f) = f a := rfl

@[simp] theorem error_bind (e : ε) (f : α → Except ε β) : (Except.error e >>= f) = .error e := rfl

@[simp] theorem pure_eq_ok (a : α) : (pure a : Except ε α) = .ok a := rfl

@[simp] theorem throw_eq_error (e : ε) : (throw e : Except ε α) = .error e := rfl

theorem bind_eq_ok {x : Except ε α} {f : α → Except ε β} {b : β} :
    (x >>= f) = .ok b ↔ ∃ a, x = .ok a ∧ f a = .ok b := by
  cases x <;> simp

theorem map_eq_ok {x : Except ε α} {f : α → β} {b : β} :
    x.map f = .ok b ↔ ∃ a, x = .ok a ∧ f a = b := by
  cases x <;> simp [Except.map]

theorem exists_bind_pure_eq_ok {x : Except ε α} {f : α → β} :
    (∃ b, (x >>= fun a => pure (f a)) = .ok b) ↔ ∃ a, x = .ok a := by
  cases x <;> simp

theorem mapError_eq_ok {ε' : Type} {x : Except ε α} {f : ε → ε'} {a : α} :
    x.mapError f = .ok a ↔ x = .ok a := by
  constructor
  · intro h
    cases x with
    | error e => cases h
    | ok b =>
      cases h
      rfl
  · rintro rfl
    rfl

theorem mapM_eq_ok {o : Option α} {f : α → Except ε β} {r : Option β} :
    o.mapM f = .ok r ↔ (o = none ∧ r = none) ∨ ∃ a b, o = some a ∧ f a = .ok b ∧ r = some b := by
  cases o with
  | none => simp [eq_comm]
  | some a => cases h : f a <;> simp [h, Functor.map, Except.map, eq_comm]

/-- Each result of a list of steps is the result of one of them. -/
theorem mem_of_mapM {f : α → Except ε β} {xs : List α} :
    ∀ {ys : List β}, xs.mapM f = .ok ys → ∀ y ∈ ys, ∃ x ∈ xs, f x = .ok y := by
  induction xs with
  | nil =>
    intro ys h
    cases h
    exact List.forall_mem_nil _
  | cons x xs ih =>
    intro ys h
    rw [List.mapM_cons] at h
    obtain ⟨y, hy, h⟩ := bind_eq_ok.1 h
    obtain ⟨others, hothers, h⟩ := bind_eq_ok.1 h
    cases h
    refine List.forall_mem_cons.2 ⟨⟨x, List.mem_cons_self, hy⟩, fun y' hy' => ?_⟩
    obtain ⟨x', hx', h⟩ := ih hothers y' hy'
    exact ⟨x', List.mem_cons_of_mem _ hx', h⟩

/-- Each step of a successful list has its result among the results. -/
theorem exists_of_mapM {f : α → Except ε β} {xs : List α} :
    ∀ {ys : List β}, xs.mapM f = .ok ys → ∀ x ∈ xs, ∃ y ∈ ys, f x = .ok y := by
  induction xs with
  | nil => exact fun _ => List.forall_mem_nil _
  | cons x xs ih =>
    intro ys h
    rw [List.mapM_cons] at h
    obtain ⟨y, hy, h⟩ := bind_eq_ok.1 h
    obtain ⟨others, hothers, h⟩ := bind_eq_ok.1 h
    cases h
    refine List.forall_mem_cons.2 ⟨⟨y, List.mem_cons_self, hy⟩, fun x' hx' => ?_⟩
    obtain ⟨y', hy', h⟩ := ih hothers x' hx'
    exact ⟨y', List.mem_cons_of_mem _ hy', h⟩

/-- A list of steps succeeds if each of them does. -/
theorem mapM_succeeds {f : α → Except ε β} {xs : List α} (h : ∀ x ∈ xs, ∃ y, f x = .ok y) :
    ∃ ys, xs.mapM f = .ok ys := by
  induction xs with
  | nil => exact ⟨[], rfl⟩
  | cons x xs ih =>
    obtain ⟨⟨y, hy⟩, hxs⟩ := List.forall_mem_cons.1 h
    obtain ⟨ys, hys⟩ := ih hxs
    rw [List.mapM_cons, hy, ok_bind, hys]
    exact ⟨y :: ys, rfl⟩

/-- A test that an outcome passes is passed by the result of a success. -/
theorem any_toOption_eq_true {x : Except ε α} {p : α → Bool} :
    x.toOption.any p = true ↔ ∃ a, x = .ok a ∧ p a = true := by
  constructor
  · intro h
    cases x with
    | error e => cases h
    | ok a => exact ⟨a, rfl, h⟩
  · rintro ⟨a, rfl, h⟩
    exact h

theorem isOk_eq_true {x : Except ε α} : x.isOk = true ↔ ∃ a, x = .ok a := by
  constructor
  · intro h
    cases x with
    | error e => cases h
    | ok a => exact ⟨a, rfl⟩
  · rintro ⟨a, rfl⟩
    rfl

/-- What each link of a chain keeps, the chain keeps. -/
theorem foldlM_keeps {P : σ → Prop} {f : σ → α → Except ε σ} {xs : List α}
    (hf : ∀ s x t, P s → f s x = .ok t → P t) :
    ∀ {s t : σ}, P s → xs.foldlM f s = .ok t → P t := by
  induction xs with
  | nil =>
    intro s t hs h
    cases h
    exact hs
  | cons x xs ih =>
    intro s t hs h
    rw [List.foldlM_cons] at h
    obtain ⟨u, hu, h⟩ := bind_eq_ok.1 h
    exact ih (hf s x u hs hu) h

/-! ## Failures -/

/-- The failure of an outcome. -/
def failure? : Except ε α → Option ε
  | .error e => some e
  | .ok _ => none

@[simp] theorem failure?_ok (a : α) : failure? (Except.ok a : Except ε α) = none := rfl

@[simp] theorem failure?_error (e : ε) : failure? (Except.error e : Except ε α) = some e := rfl

theorem failure?_eq_some {x : Except ε α} {e : ε} : failure? x = some e ↔ x = .error e := by
  cases x <;> simp

theorem failure?_eq_none {x : Except ε α} : failure? x = none ↔ ∃ a, x = .ok a := by
  cases x <;> simp

@[simp] theorem failure?_mapError {ε' : Type} (x : Except ε α) (f : ε → ε') :
    failure? (x.mapError f) = (failure? x).map f := by
  cases x <;> rfl

/-- A chain fails as its first link does, or else as the rest does. -/
theorem failure?_bind {x : Except ε α} {f : α → Except ε β} {rest : Option ε}
    (h : ∀ a, x = .ok a → failure? (f a) = rest) : failure? (x >>= f) = (failure? x).or rest := by
  cases x with
  | error e => rfl
  | ok a => exact h a rfl

/-- Nothing fails behind the only link that can. -/
theorem failure?_bind_ok {x : Except ε α} {f : α → Except ε β}
    (h : ∀ a, x = .ok a → failure? (f a) = none) : failure? (x >>= f) = failure? x := by
  rw [failure?_bind h, Option.or_none]

/-- The first hit of a list is that of its head, or else that of the rest. -/
theorem findSome?_cons_or (f : α → Option β) (x : α) (xs : List α) :
    (x :: xs).findSome? f = (f x).or (xs.findSome? f) := by
  rw [List.findSome?_cons]
  cases f x <;> rfl

theorem failure?_mapM {f : α → Except ε β} {xs : List α} :
    failure? (xs.mapM f) = xs.findSome? fun x => failure? (f x) := by
  induction xs with
  | nil => rfl
  | cons x xs ih =>
    rw [List.mapM_cons, failure?_bind fun y _ => failure?_bind_ok fun ys _ => rfl, ih,
      findSome?_cons_or]

/-- A fold fails as its first failing step does, if what a step starts from makes no difference. -/
theorem failure?_foldlM {f : σ → α → Except ε σ} {fails : α → Option ε}
    (h : ∀ s x, failure? (f s x) = fails x) (xs : List α) (s : σ) :
    failure? (xs.foldlM f s) = xs.findSome? fails := by
  induction xs generalizing s with
  | nil => rfl
  | cons x xs ih =>
    rw [List.foldlM_cons, failure?_bind fun t _ => ih t, h, findSome?_cons_or]

/-! ## Two outcomes -/

variable {γ δ : Type}

/-- Two outcomes agree: both are the same failure, or both are successes, with results in a
relation. -/
inductive Agree (R : α → β → Prop) : Except ε α → Except ε β → Prop where
  | failed (e : ε) : Agree R (.error e) (.error e)
  | made {a : α} {b : β} (h : R a b) : Agree R (.ok a) (.ok b)

theorem agree_eq (x : Except ε α) : Agree Eq x x := by
  cases x with
  | error e => exact .failed e
  | ok a => exact .made rfl

/-- Chains agree whose first links agree and whose further links agree on related results. -/
theorem Agree.bind {R : α → β → Prop} {S : γ → δ → Prop} {x : Except ε α} {y : Except ε β}
    {f : α → Except ε γ} {g : β → Except ε δ} (h : Agree R x y)
    (hf : ∀ a b, x = .ok a → R a b → Agree S (f a) (g b)) : Agree S (x >>= f) (y >>= g) := by
  cases h with
  | failed e => exact .failed e
  | made h => exact hf _ _ rfl h

/-- Chains agree that begin alike. -/
theorem agree_bind {S : γ → δ → Prop} {x : Except ε α} {f : α → Except ε γ} {g : α → Except ε δ}
    (hf : ∀ a, x = .ok a → Agree S (f a) (g a)) : Agree S (x >>= f) (x >>= g) :=
  (agree_eq x).bind fun a _ ha hab => hab ▸ hf a ha

end CubeQuery
