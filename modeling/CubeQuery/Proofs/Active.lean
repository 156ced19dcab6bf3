import CubeQuery.Proofs.Placed
import CubeQuery.Proofs.Writes
import Mathlib.Data.List.Perm.Basic

/-!
# The levels in use

Whatever is done to a query, each of its selections keeps one level selection for each level of its
hierarchy and lists no level twice among those in use (`intact_afterAll`).
-/

namespace CubeQuery

/-- A selection with one level selection for each level, and with distinct levels in use. -/
structure HierarchySelection.Intact (s : HierarchySelection) : Prop where
  levels : s.levels.map (·.level) = s.hierarchy.levels
  active : s.active.Nodup

/-- An element that is new to a list can be put behind it. -/
theorem nodup_concat {α : Type} {xs : List α} {x : α} (h : xs.Nodup) (hx : x ∉ xs) :
    (xs ++ [x]).Nodup :=
  (List.perm_append_singleton x xs).nodup_iff.2 (List.nodup_cons.2 ⟨hx, h⟩)

theorem forall_mem_concat {α : Type} {P : α → Prop} {xs : List α} {x : α} (h : ∀ y ∈ xs, P y)
    (hx : P x) : ∀ y ∈ xs ++ [x], P y :=
  List.forall_mem_append.2 ⟨h, List.forall_mem_singleton.2 hx⟩

namespace HierarchySelection

theorem intact_new (h : Hierarchy) : (new h).Intact := by
  refine ⟨?_, List.nodup_nil⟩
  simp [new, Function.comp_def]

/-! ## Putting levels into use -/

theorem perm_insertByDepth (depth : Nat → Nat) (i : Nat) (is : List Nat) :
    (insertByDepth depth i is).Perm (i :: is) := by
  induction is with
  | nil => exact .refl _
  | cons j js ih =>
    rw [insertByDepth]
    split
    · exact .refl _
    · exact (ih.cons j).trans (.swap i j js)

theorem perm_sortByDepth (depth : Nat → Nat) (is : List Nat) :
    (sortByDepth depth is).Perm is := by
  induction is with
  | nil => exact .refl _
  | cons i is ih => exact (perm_insertByDepth depth i _).trans (ih.cons i)

theorem insertByDepth_sorted {depth : Nat → Nat} {i : Nat} {is : List Nat}
    (h : is.Pairwise (depth · ≤ depth ·)) :
    (insertByDepth depth i is).Pairwise (depth · ≤ depth ·) := by
  induction is with
  | nil => exact List.pairwise_singleton _ _
  | cons j js ih =>
    obtain ⟨hj, hjs⟩ := List.pairwise_cons.1 h
    rw [insertByDepth]
    split
    · next hij =>
      refine List.pairwise_cons.2 ⟨fun k hk => ?_, h⟩
      rcases List.mem_cons.1 hk with rfl | hk
      · exact hij
      · exact Nat.le_trans hij (hj k hk)
    · next hij =>
      refine List.pairwise_cons.2 ⟨fun k hk => ?_, ih hjs⟩
      rcases List.mem_cons.1 ((perm_insertByDepth depth i js).mem_iff.1 hk) with rfl | hk
      · exact Nat.le_of_not_le hij
      · exact hj k hk

theorem sortByDepth_sorted (depth : Nat → Nat) (is : List Nat) :
    (sortByDepth depth is).Pairwise (depth · ≤ depth ·) := by
  induction is with
  | nil => exact .nil
  | cons i is ih => exact insertByDepth_sorted ih

theorem nodup_activate {s : HierarchySelection} (h : s.active.Nodup) (i : Nat) :
    (s.activate i).active.Nodup := by
  unfold activate
  split
  · exact h
  · next hi =>
    exact (perm_sortByDepth s.depthAt _).nodup_iff.2 (nodup_concat h hi)

theorem register_active {s t : HierarchySelection} {m : CalculatedMember} {i : Nat}
    (h : s.register m = .ok (t, i)) : t.active = s.active := by
  rcases register_eq_ok.1 h with ⟨-, ⟨-, rfl⟩ | ⟨-, -, rfl⟩⟩ <;> rfl

theorem Intact.write {s t : HierarchySelection} (hs : s.Intact) (h : s.Write t) : t.Intact := by
  refine ⟨?_, ?_⟩
  · rw [h.ground.2, h.ground.1]
    exact hs.levels
  · cases h with
    | activate i => exact nodup_activate hs.active i
    | retire is his => exact hs.active.sublist his
    | register m i h =>
      rw [register_active h]
      exact hs.active
    | level | use | drop => exact hs.active
    | setting _ _ ha =>
      rw [ha]
      exact hs.active

end HierarchySelection

theorem Query.intact_afterAll (name : String) (cube : Cube) (cs : List Change) :
    ∀ s ∈ ((new name cube).afterAll cs).hierarchies, s.Intact :=
  keeps_writes (fun h _ => HierarchySelection.intact_new h) (fun _ _ hs => hs.write) name cs

end CubeQuery
