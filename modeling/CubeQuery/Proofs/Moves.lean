import CubeQuery.Proofs.Placed

/-!
# Moving a hierarchy

A move takes a hierarchy from its axis and puts it among those that are left on the target. A
hierarchy lies on one axis, so taking it from there leaves it on none (`Placed.axes_of_move`).
Hence positions count on the target without it, also where it is moved within one axis, and every
axis keeps its other hierarchies in their order.

`hierarchy_moved` says which moves are rejected, and what the others change.
-/

namespace CubeQuery

namespace Axis

/-- The index that a position stands for among `n` hierarchies: their end, if it lies behind it or
is not given. -/
def indexAmong (n : Nat) : Option Nat → Nat
  | some i => min i n
  | none => n

theorem indexAmong_le (n : Nat) (p : Option Nat) : indexAmong n p ≤ n := by
  cases p with
  | none => exact Nat.le_refl n
  | some i => exact Nat.min_le_right i n

theorem hierarchies_insert (a : Axis) (i : Nat) (p : Option Nat) :
    (a.insert i p).hierarchies = a.hierarchies.insertIdx (indexAmong a.hierarchies.length p) i := by
  cases p with
  | none => exact List.insertIdx_length_self.symm
  | some k => rfl

theorem getElem?_insert (a : Axis) (i : Nat) (p : Option Nat) :
    (a.insert i p).hierarchies[indexAmong a.hierarchies.length p]? = some i := by
  rw [hierarchies_insert, List.getElem?_insertIdx_self, if_pos (indexAmong_le _ p)]

theorem filter_erase (a : Axis) (i : Nat) :
    (a.erase i).hierarchies.filter (· ≠ i) = a.hierarchies.filter (· ≠ i) := by
  simp [erase, List.filter_filter]

theorem erase_of_notMem {a : Axis} {i : Nat} (h : i ∉ a.hierarchies) : a.erase i = a := by
  have hsame : a.hierarchies.filter (· ≠ i) = a.hierarchies :=
    List.filter_eq_self.2 fun j hj => by simpa using fun hji : j = i => h (hji ▸ hj)
  rw [erase, hsame]

end Axis

namespace Query

/-! ## Rejected moves -/

/-- A name stands for no hierarchy if none has it, in full or plain. -/
theorem find?_eq_none_iff {q : Query} {name : String} :
    q.find? name = none ↔
      ∀ s ∈ q.hierarchies, s.uniqueName ≠ name ∧ s.hierarchy.name ≠ name := by
  unfold find?
  cases hindex : q.indexOf? name with
  | some i =>
    obtain ⟨s, hs, hname⟩ := lastIndex?_eq_some hindex
    simp only [reduceCtorEq, false_iff, not_forall]
    exact ⟨s, List.mem_of_getElem? hs, fun h => h.1 (of_decide_eq_true hname)⟩
  | none =>
    have hunique := lastIndex?_eq_none hindex
    simp only [List.findIdx?_eq_none_iff, decide_eq_false_iff_not]
    exact ⟨fun h s hs => ⟨of_decide_eq_false (hunique s hs), h s hs⟩, fun h s hs => (h s hs).2⟩

theorem move_of_unknown {q : Query} {name : String} (target : Location) (p : Option Nat)
    (h : q.find? name = none) : q.move name target p = .error (.unknown .hierarchy name) := by
  rw [move, hierarchyIndex, h]
  rfl

theorem move_of_found {q : Query} {name : String} {i : Nat} (target : Location) (p : Option Nat)
    (h : q.find? name = some i) :
    q.move name target p =
      if q.locationAt i = target ∧ p = none then .error (.alreadyOn name target.name)
      else .ok { q with
        axes := (q.axes.modify (q.locationAt i) (·.erase i)).modify target (·.insert i p)
        hierarchies := relocate q.hierarchies [i] target } := by
  rw [move, hierarchyIndex, h]
  dsimp only [ok_bind]
  split <;> rfl

theorem move_eq_error {q : Query} {name : String} {target : Location} {p : Option Nat}
    {e : Rejection} :
    q.move name target p = .error e ↔
      (q.find? name = none ∧ e = .unknown .hierarchy name) ∨
        ∃ i, q.find? name = some i ∧ (q.locationAt i = target ∧ p = none) ∧
          e = .alreadyOn name target.name := by
  cases hi : q.find? name with
  | none => simp [move_of_unknown target p hi, eq_comm]
  | some i =>
    rw [move_of_found target p hi]
    by_cases h : q.locationAt i = target ∧ p = none
    · simp [h, eq_comm]
    · simp [h]

/-! ## Accepted moves -/

/-- The hierarchy at a position names the location whose axis lists it. -/
theorem Placed.locationAt_iff {q : Query} (hq : q.Placed) {i : Nat}
    (hi : i < q.hierarchies.length) {l : Location} :
    q.locationAt i = l ↔ i ∈ (q.axes.get l).hierarchies := by
  rw [hq.listed, location?_of_lt hi, Option.some_inj]

/-- A move takes the hierarchy from every axis and puts it on the target. -/
theorem Placed.axes_of_move {q r : Query} (hq : q.Placed) {name : String} {target : Location}
    {p : Option Nat} (h : q.move name target p = .ok r) :
    ∃ i, q.find? name = some i ∧ ¬(i ∈ (q.axes.get target).hierarchies ∧ p = none) ∧
      (∀ l, r.axes.get l =
        if l = target then ((q.axes.get l).erase i).insert i p else (q.axes.get l).erase i) ∧
      { q with
        axes := r.axes
        hierarchies := q.hierarchies.modify i ({ · with location := target }) } = r := by
  obtain ⟨i, hi, hp, rfl⟩ := move_eq_ok.1 h
  have hon : ∀ {l}, q.locationAt i = l ↔ i ∈ (q.axes.get l).hierarchies :=
    hq.locationAt_iff (find?_lt hi)
  refine ⟨i, hi, by rwa [← hon], fun l => ?_, rfl⟩
  have herased : (q.axes.modify (q.locationAt i) (·.erase i)).get l = (q.axes.get l).erase i := by
    rw [Axes.get_modify]
    split
    · rfl
    · next hl => exact (Axis.erase_of_notMem fun hmem => hl (hon.2 hmem)).symm
  show ((q.axes.modify (q.locationAt i) (·.erase i)).modify target (·.insert i p)).get l = _
  rw [Axes.get_modify, herased]
  by_cases hl : l = target
  · rw [if_pos hl, if_pos hl.symm]
  · rw [if_neg hl, if_neg (Ne.symm hl)]

/-- The hierarchies of an axis but the one at a position. -/
def othersOn (q : Query) (i : Nat) (l : Location) : List Nat :=
  (q.axes.get l).hierarchies.filter (· ≠ i)

/-- The queries differ in the place of one hierarchy only, which has been moved to a position of the
target. -/
structure Moved (q : Query) (i : Nat) (target : Location) (position : Option Nat) (r : Query) :
    Prop where
  /-- It has its place among the other hierarchies of the target. -/
  place : (r.axes.get target).hierarchies[
    Axis.indexAmong (q.othersOn i target).length position]? = some i
  once : ∀ l, (r.axes.get l).hierarchies.count i = if l = target then 1 else 0
  /-- The others lie where they lay, in the same order. -/
  order : ∀ l, r.othersOn i l = q.othersOn i l
  settings : ∀ l, r.axes.get l = { q.axes.get l with hierarchies := (r.axes.get l).hierarchies }
  /-- Nothing but its location is written to its selection. -/
  selections : r.hierarchies = q.hierarchies.modify i ({ · with location := target })
  rest : r = { q with axes := r.axes, hierarchies := r.hierarchies }

theorem Placed.moved {q r : Query} (hq : q.Placed) {name : String} {target : Location}
    {p : Option Nat} (h : q.move name target p = .ok r) :
    ∃ i, q.find? name = some i ∧ q.Moved i target p r := by
  obtain ⟨i, hi, -, haxes, hr⟩ := hq.axes_of_move h
  have hselections : r.hierarchies = q.hierarchies.modify i ({ · with location := target }) := by
    rw [← hr]
  have hothers : ∀ l, i ∉ ((q.axes.get l).erase i).hierarchies := by simp [Axis.erase]
  refine ⟨i, hi, ?_, fun l => ?_, fun l => ?_, fun l => ?_, hselections, ?_⟩
  · rw [haxes, if_pos rfl]
    exact Axis.getElem?_insert ((q.axes.get target).erase i) i p
  · rw [haxes]
    split
    · refine List.count_eq_one_of_mem ?_ (mem_insert.2 (.inl rfl))
      exact nodup_insert ((hq.nodup l).filter _) (hothers l)
    · exact List.count_eq_zero.2 (hothers l)
  · rw [othersOn, haxes]
    split
    · rw [Axis.hierarchies_insert, filter_insertIdx (by simp), Axis.filter_erase, othersOn]
    · rw [Axis.filter_erase, othersOn]
  · rw [haxes]
    split
    · cases p <;> rfl
    · rfl
  · rw [hselections]
    exact hr.symm

/-- **Moves.** A move is rejected exactly if the name stands for no hierarchy, or for one that lies
on the target already while no position is asked for. Every other move puts the hierarchy to its
index among the other hierarchies of the target, and changes nothing else. -/
theorem hierarchy_moved {cube : Cube} {q : Query} (hq : Reachable cube q) (name : String)
    (target : Location) (position : Option Nat) :
    (∀ e, q.move name target position = .error e ↔
      ((∀ s ∈ q.hierarchies, s.uniqueName ≠ name ∧ s.hierarchy.name ≠ name) ∧
          e = .unknown .hierarchy name) ∨
        ∃ i ∈ (q.axes.get target).hierarchies, q.find? name = some i ∧ position = none ∧
          e = .alreadyOn name target.name) ∧
      ∀ r, q.move name target position = .ok r →
        ∃ i, q.find? name = some i ∧ q.Moved i target position r := by
  obtain ⟨own, cs, rfl⟩ := hq
  have hplaced := (sound_afterAll own cube cs).toPlaced
  refine ⟨fun e => ?_, fun r => hplaced.moved⟩
  rw [move_eq_error, find?_eq_none_iff]
  refine or_congr_right (exists_congr fun i => ?_)
  constructor
  · rintro ⟨hi, ⟨hon, hp⟩, he⟩
    exact ⟨(hplaced.locationAt_iff (find?_lt hi)).1 hon, hi, hp, he⟩
  · rintro ⟨hon, hi, hp, he⟩
    exact ⟨hi, ⟨(hplaced.locationAt_iff (find?_lt hi)).2 hon, hp⟩, he⟩

/-- Years and countries on rows. -/
def yearsThenCountries : Query :=
  (new "q" sales).afterAll [.move "Time" .rows none, .move "Store" .rows none]

/-- Far behind the end of its own axis, the first of two hierarchies becomes the last. -/
theorem hierarchy_moved_behind :
    Reachable sales yearsThenCountries ∧
      ∃ r, yearsThenCountries.move "[Time]" .rows (some 7) = .ok r ∧
        yearsThenCountries.Moved 0 .rows (some 7) r ∧
          (r.axes.get .rows).hierarchies[1]? = some 0 := by
  have hq : Reachable sales yearsThenCountries := ⟨"q", _, rfl⟩
  obtain ⟨r, hr⟩ : ∃ r, yearsThenCountries.move "[Time]" .rows (some 7) = .ok r :=
    isOk_eq_true.1 (by decide +kernel)
  obtain ⟨i, hi, hmoved⟩ := (hierarchy_moved hq "[Time]" .rows (some 7)).2 r hr
  have hfound : yearsThenCountries.find? "[Time]" = some 0 := by decide +kernel
  cases hfound.symm.trans hi
  have hothers : (yearsThenCountries.othersOn 0 .rows).length = 1 := by decide +kernel
  have hplace := hmoved.place
  rw [hothers] at hplace
  exact ⟨hq, r, hr, hmoved, hplace⟩

end Query
end CubeQuery
