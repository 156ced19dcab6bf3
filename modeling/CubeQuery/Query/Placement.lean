import CubeQuery.Query

/-!
# Placing hierarchies

Where a hierarchy lies is known twice: its axis lists it, and it names its location. Moving a
hierarchy and swapping the result axes keep both in step.
-/

namespace CubeQuery.Query

/-- Gives the hierarchies at the listed positions a location. -/
def relocate (hs : List HierarchySelection) (ids : List Nat) (l : Location) :
    List HierarchySelection :=
  ids.foldl (fun hs i => hs.modify i ({ · with location := l })) hs

/-- The location that the hierarchy at a position names. -/
def locationAt (q : Query) (i : Nat) : Location :=
  ((q.hierarchies[i]?).map (·.location)).getD .unused

/-- Moves a hierarchy to a position of an axis, or to its end. Without a position it must not lie
there already.
mirrors query/model:112-133 -/
def move (q : Query) (name : String) (target : Location) (position : Option Nat) :
    Except Rejection Query := do
  let i ← q.hierarchyIndex name
  let source := q.locationAt i
  if source = target ∧ position = none then throw (.alreadyOn name target.name)
  return { q with
    axes := (q.axes.modify source (·.erase i)).modify target (·.insert i position)
    hierarchies := relocate q.hierarchies [i] target }

/-- Exchanges the hierarchies of columns and rows.
mirrors query/model:136-155 -/
def swapAxes (q : Query) : Query :=
  let columns := q.axes.columns.hierarchies
  let rows := q.axes.rows.hierarchies
  { q with
    axes :=
      { q.axes with
        columns := { q.axes.columns with hierarchies := rows }
        rows := { q.axes.rows with hierarchies := columns } }
    hierarchies := relocate (relocate q.hierarchies columns .rows) rows .columns }

end CubeQuery.Query
