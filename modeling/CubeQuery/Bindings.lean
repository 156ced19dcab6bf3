/-!
# Bindings

A finite map from names to values, listed in the order of the names. Each name is bound once, so
two maps with the same content are the same.
-/

namespace CubeQuery

/-- Values by name, in the order of the names. -/
structure Bindings (α : Type) where
  entries : List (String × α)
  sorted : entries.Pairwise (fun a b => a.1 < b.1)

namespace Bindings

variable {α : Type}

def empty : Bindings α := ⟨[], .nil⟩

instance : Inhabited (Bindings α) := ⟨empty⟩

/-- The value of a name in a list of entries. -/
def lookup (name : String) : List (String × α) → Option α
  | [] => none
  | (n, v) :: rest => if n = name then some v else lookup name rest

/-- Entries with `name` bound to `value`, at its place in the order. -/
def put (name : String) (value : α) : List (String × α) → List (String × α)
  | [] => [(name, value)]
  | (n, v) :: rest =>
    if name < n then (name, value) :: (n, v) :: rest
    else if name = n then (name, value) :: rest
    else (n, v) :: put name value rest

theorem mem_put {name : String} {value : α} {xs : List (String × α)} {e : String × α}
    (h : e ∈ put name value xs) : e = (name, value) ∨ e ∈ xs := by
  induction xs with
  | nil => simpa [put] using h
  | cons x xs ih =>
    simp only [put] at h
    split at h
    · simpa using h
    · split at h
      · rcases List.mem_cons.1 h with h | h
        · exact .inl h
        · exact .inr (List.mem_cons_of_mem _ h)
      · rcases List.mem_cons.1 h with h | h
        · exact .inr (h ▸ List.mem_cons_self)
        · exact (ih h).imp_right (List.mem_cons_of_mem _)

theorem put_sorted (name : String) (value : α) {xs : List (String × α)}
    (h : xs.Pairwise (fun a b => a.1 < b.1)) :
    (put name value xs).Pairwise (fun a b => a.1 < b.1) := by
  induction xs with
  | nil => simp [put]
  | cons x xs ih =>
    obtain ⟨hx, hxs⟩ := List.pairwise_cons.1 h
    simp only [put]
    split
    · rename_i hlt
      refine List.pairwise_cons.2 ⟨fun e he => ?_, h⟩
      rcases List.mem_cons.1 he with rfl | he
      · exact hlt
      · exact String.lt_trans hlt (hx e he)
    · rename_i hle
      split
      · rename_i heq
        exact List.pairwise_cons.2 ⟨fun e he => heq ▸ hx e he, hxs⟩
      · rename_i hne
        refine List.pairwise_cons.2 ⟨fun e he => ?_, ih hxs⟩
        rcases mem_put he with rfl | he
        · refine Decidable.byContradiction fun hnl => hne ?_
          exact String.le_antisymm (String.not_lt.1 hnl) (String.not_lt.1 hle)
        · exact hx e he

/-- The value bound to a name. -/
def get? (b : Bindings α) (name : String) : Option α := lookup name b.entries

def contains (b : Bindings α) (name : String) : Bool := (b.get? name).isSome

/-- Binds a name, replacing what it was bound to. -/
def insert (b : Bindings α) (name : String) (value : α) : Bindings α :=
  ⟨put name value b.entries, put_sorted name value b.sorted⟩

/-- Binds the names of a list in turn, so that the last value of a name counts. -/
def insertAll (b : Bindings α) (xs : List (String × α)) : Bindings α :=
  xs.foldl (fun b e => b.insert e.1 e.2) b

def ofList (xs : List (String × α)) : Bindings α := empty.insertAll xs

/-- Binds all that `c` binds, over what `b` binds. -/
def union (b c : Bindings α) : Bindings α := b.insertAll c.entries

@[simp] theorem get?_empty (name : String) : (empty : Bindings α).get? name = none := rfl

theorem lookup_put (xs : List (String × α)) (name n : String) (value : α) :
    lookup n (put name value xs) = if name = n then some value else lookup n xs := by
  induction xs with
  | nil => simp [put, lookup]
  | cons x xs ih =>
    simp only [put]
    split
    · by_cases h : name = n <;> simp [lookup, h]
    · split
      · rename_i h1 h2; by_cases h : name = n <;> simp_all [lookup]
      · rename_i h1 h2
        simp only [lookup, ih]
        by_cases h : x.1 = n
        · have : name ≠ n := fun e => h2 (e.trans h.symm)
          simp [h, this]
        · simp [h]

@[simp] theorem get?_insert (b : Bindings α) (name n : String) (value : α) :
    (b.insert name value).get? n = if name = n then some value else b.get? n :=
  lookup_put b.entries name n value

theorem lookup_of_lt {name : String} {xs : List (String × α)} (h : ∀ e ∈ xs, name < e.1) :
    lookup name xs = none := by
  induction xs with
  | nil => rfl
  | cons x xs ih =>
    obtain ⟨hx, hxs⟩ := List.forall_mem_cons.1 h
    have hne : x.1 ≠ name := fun e => String.lt_irrefl name (e ▸ hx)
    rw [lookup, if_neg hne, ih hxs]

theorem eq_of_lookup {xs ys : List (String × α)} (hx : xs.Pairwise (fun a b => a.1 < b.1))
    (hy : ys.Pairwise (fun a b => a.1 < b.1)) (h : ∀ name, lookup name xs = lookup name ys) :
    xs = ys := by
  induction xs generalizing ys with
  | nil =>
    cases ys with
    | nil => rfl
    | cons y ys => simpa [lookup] using h y.1
  | cons x xs ih =>
    cases ys with
    | nil => simpa [lookup] using h x.1
    | cons y ys =>
      obtain ⟨hxs, hx'⟩ := List.pairwise_cons.1 hx
      obtain ⟨hys, hy'⟩ := List.pairwise_cons.1 hy
      -- a first name ahead of the other one would be bound on one side only
      have hname : x.1 = y.1 := by
        refine String.le_antisymm (String.not_lt.1 fun hlt => ?_) (String.not_lt.1 fun hlt => ?_)
        · have hnone : lookup y.1 (x :: xs) = none :=
            lookup_of_lt (List.forall_mem_cons.2 ⟨hlt, fun e he => String.lt_trans hlt (hxs e he)⟩)
          simpa [lookup] using hnone.symm.trans (h y.1)
        · have hnone : lookup x.1 (y :: ys) = none :=
            lookup_of_lt (List.forall_mem_cons.2 ⟨hlt, fun e he => String.lt_trans hlt (hys e he)⟩)
          simpa [lookup] using (h x.1).trans hnone
      have hvalue : x.2 = y.2 := by simpa [lookup, hname] using h x.1
      have htail : ∀ name, lookup name xs = lookup name ys := by
        intro name
        by_cases hn : x.1 = name
        · rw [lookup_of_lt (hn ▸ hxs), lookup_of_lt (hn ▸ hname ▸ hys)]
        · simpa [lookup, hn, hname ▸ hn] using h name
      rw [ih hx' hy' htail, Prod.ext hname hvalue]

/-- Two maps with the same content are the same. -/
theorem ext_get? {b c : Bindings α} (h : ∀ name, b.get? name = c.get? name) : b = c := by
  obtain ⟨xs, hx⟩ := b
  obtain ⟨ys, hy⟩ := c
  obtain rfl : xs = ys := eq_of_lookup hx hy h
  rfl

end Bindings
end CubeQuery
