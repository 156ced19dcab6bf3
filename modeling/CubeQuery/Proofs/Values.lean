import CubeQuery.Proofs.Alike
import CubeQuery.Proofs.Runs

/-!
# Values that pick nothing

A value of a parameter picks members only if values are looked up at all and it is not blank. Any
other value has no part in what a level picks (`picked_of_filled`), but a level bound to it does not
count as simple, so that it can become the pivot of its hierarchy. `statement_values` says when such
values do not count: among several levels in use the first one that is not simple has to stay the
same. Where it does not, the statement changes (`blank_value_declares`).
-/

namespace CubeQuery

/-- The value of a parameter, unless it is blank. -/
def Parameters.filled? (p : Parameters) (name : String) : Option String :=
  ((p.get? name).getD none).filter (fun v => !Text.isBlankText v)

/-- A blank value is as good as none. -/
theorem Parameters.filled?_insert_blank {value : String} (h : Text.isBlankText value = true)
    (p : Parameters) (name n : String) :
    Parameters.filled? (p.insert name (some value)) n =
      Parameters.filled? (p.insert name none) n := by
  rw [filled?, filled?, Bindings.get?_insert, Bindings.get?_insert]
  split
  · simp [h]
  · rfl

namespace Compiler

variable {c : Compiler} {p p' : Parameters}

theorem valueOn_of_unresolved (h : c.options.legacyParameters = false) (l : LevelSelection) :
    c.valueOn p l = none := by
  rw [valueOn, h]
  rfl

theorem valueOn_of_filled (h : ∀ name, p'.filled? name = p.filled? name) (l : LevelSelection) :
    c.valueOn p' l = c.valueOn p l := by
  unfold valueOn
  split
  · cases hl : l.parameter? with
    | none => rfl
    | some name => exact h name
  · rfl

theorem picked_of_valueOn {l : LevelSelection} (h : c.valueOn p' l = c.valueOn p l) :
    c.picked p' l = c.picked p l := by
  rw [picked, picked, h]

end Compiler

/-- Under other values the same level is the first one that is not simple. That counts among several
levels only, and not under an override. -/
def HierarchySelection.KeepsPivot (s : HierarchySelection) (p p' : Parameters) : Prop :=
  s.shape.base.override.isSome ∨ s.activeLevels.length ≤ 1 ∨
    s.activeLevels.findIdx? (!·.isSimple p') = s.activeLevels.findIdx? (!·.isSimple p)

instance (s : HierarchySelection) (p p' : Parameters) : Decidable (s.KeepsPivot p p') :=
  inferInstanceAs (Decidable (_ ∨ _ ∨ _))

namespace Query

variable {q : Query} {p : Parameters}

theorem sameQuery_values {c : Compiler}
    (hpivot : ∀ l, q.Shows l → ∀ h ∈ q.hierarchiesOn l, h.KeepsPivot q.parameters p)
    (hvalue : ∀ l, c.valueOn p l = c.valueOn q.parameters l) :
    c.SameQuery q { q with parameters := p } where
  cube := rfl
  block := rfl
  lowestLevelsOnly := rfl
  calculated := rfl
  axes _ _ := rfl
  shown l hl := by
    refine List.forall₂_same.2 fun h hh => ⟨rfl, rfl, fun _ => rfl, fun ho => ?_⟩
    refine ⟨rfl, rfl, rfl, rfl, fun l _ => Compiler.picked_of_valueOn (hvalue l), ?_⟩
    rcases hpivot l hl h hh with hoverride | hfew | hsame
    · rw [ho] at hoverride
      cases hoverride
    · exact .inl hfew
    · exact .inr (by simp only [Compiler.Linkage.of, hsame])

/-- **Values that pick nothing.** Where other values leave the pivot of every shown hierarchy what
it was, the outcome of a compilation stays the same: whatever the values are, if values are not
looked up, and else if the two differ in blank values only. -/
theorem statement_values
    (hpivot : ∀ l, q.Shows l → ∀ h ∈ q.hierarchiesOn l, h.KeepsPivot q.parameters p)
    (c : Compiler) :
    (c.options.legacyParameters = false →
        c.statement { q with parameters := p } = c.statement q) ∧
      ((∀ name, p.filled? name = q.parameters.filled? name) →
        c.statement { q with parameters := p } = c.statement q) := by
  constructor
  · intro hlegacy
    refine Compiler.statement_alike (sameQuery_values hpivot fun l => ?_)
    rw [Compiler.valueOn_of_unresolved hlegacy, Compiler.valueOn_of_unresolved hlegacy]
  · intro hfilled
    exact Compiler.statement_alike
      (sameQuery_values hpivot (Compiler.valueOn_of_filled hfilled))

/-- Years and months on rows, one of the levels bound to a parameter. -/
def yearsAndMonths (bound : String) : Query :=
  (Query.new "q" sales).afterAll [.move "Time" .rows none,
    .hierarchy "Time" (.includeLevel "Year"), .hierarchy "Time" (.includeLevel "Month"),
    .hierarchy "Time" (.level bound (.bind "choice"))]

/-- The query with that parameter made known, with or without a value. -/
def choose (q : Query) (value : Option String) : Query :=
  { q with parameters := q.parameters.insert "choice" value }

/-- With a member picked on the years, a value on the months leaves the pivot in its place. -/
theorem statement_values_below_pivot :
    let q := (yearsAndMonths "Month").after (.pickMember .inclusion "Time" "[Time].[2024]")
    (Compiler.ofCube sales).statement (q.choose (some "5")) =
        (Compiler.ofCube sales).statement (q.choose none) ∧
      (Compiler.ofCube sales { legacyParameters := true }).statement (q.choose (some " ")) =
        (Compiler.ofCube sales { legacyParameters := true }).statement (q.choose none) := by
  intro q
  have hkeeps : ∀ v ∈ ["5", " "], ∀ l ∈ Location.all, ∀ h ∈ q.hierarchiesOn l,
      h.KeepsPivot (q.choose none).parameters (q.choose (some v)).parameters := by
    decide +kernel
  have hall : ∀ l, l ∈ Location.all := by
    intro l
    cases l <;> decide
  have hvalue := statement_values fun l (_ : (q.choose none).Shows l) =>
    hkeeps "5" (by decide) l (hall l)
  have hblank := statement_values fun l (_ : (q.choose none).Shows l) =>
    hkeeps " " (by decide) l (hall l)
  exact ⟨(hvalue _).1 rfl, (hblank _).2 (Parameters.filled?_insert_blank (by decide) _ _)⟩

/-- How many declarations the statement of a query has. -/
def declarationCount? (q : Query) (options : Options) : Option Nat :=
  (q.statement options).toOption.map (·.declarations.length)

/-- A value on the years makes them the pivot, and both levels are declared: even a blank value, and
even if values are not looked up. -/
theorem blank_value_declares :
    let bare := (yearsAndMonths "Year").choose none
    let blank := (yearsAndMonths "Year").choose (some " ")
    (bare.declarationCount? {} = some 0 ∧ blank.declarationCount? {} = some 2 ∧
        blank.statement ≠ bare.statement) ∧
      bare.declarationCount? { legacyParameters := true } = some 0 ∧
        blank.declarationCount? { legacyParameters := true } = some 2 ∧
        blank.statement { legacyParameters := true } ≠
          bare.statement { legacyParameters := true } := by
  intro bare blank
  have hcount : ∀ legacyParameters : Bool,
      bare.declarationCount? { legacyParameters } = some 0 ∧
        blank.declarationCount? { legacyParameters } = some 2 := by
    decide +kernel
  have hne : ∀ legacyParameters : Bool,
      blank.statement { legacyParameters } ≠ bare.statement { legacyParameters } := by
    intro legacyParameters heq
    obtain ⟨hbare, hblank⟩ := hcount legacyParameters
    rw [declarationCount?, heq, ← declarationCount?, hbare] at hblank
    cases hblank
  exact ⟨⟨(hcount false).1, (hcount false).2, hne false⟩, (hcount true).1, (hcount true).2,
    hne true⟩

end Query
end CubeQuery
