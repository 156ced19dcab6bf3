import CubeQuery.Axis
import CubeQuery.Calculated

/-!
# The measure block

The measures that a query shows, in order and each once, with the axis they are joined to and the
side of the axis's own set on which they stand.
-/

namespace CubeQuery

/-- A measure that a query shows. -/
inductive Measure where
  | stored (m : Member)
  | calculated (m : CalculatedMeasure)

namespace Measure

def name : Measure → String
  | stored m => m.name
  | calculated m => m.name

def uniqueName : Measure → String
  | stored m => m.uniqueName
  | calculated m => m.uniqueName

def isCalculated : Measure → Bool
  | stored _ => false
  | calculated _ => true

/-- The calculated measure, if it is one. -/
def calculated? : Measure → Option CalculatedMeasure
  | stored _ => none
  | calculated m => some m

end Measure

/-- The side of the axis's set on which the measures stand. -/
inductive Side where
  | top
  | bottom
  deriving DecidableEq, Repr, Inhabited

/-- mirrors query/details:58-62 -/
structure MeasureBlock where
  measures : List Measure := []
  axis : Location := .columns
  side : Side := .bottom

namespace MeasureBlock

/-- The block without the measure of a unique name.
mirrors query/details:93-96 -/
def erase (b : MeasureBlock) (uniqueName : String) : MeasureBlock :=
  { b with measures := b.measures.filter (·.uniqueName ≠ uniqueName) }

/-- Appends a measure that is not in the block yet.
mirrors query/details:78-83 -/
def add (b : MeasureBlock) (m : Measure) : MeasureBlock :=
  if b.measures.any (·.uniqueName = m.uniqueName) then b
  else { b with measures := b.measures ++ [m] }

/-- Puts a measure at a position among the others, at the end if there are fewer.
mirrors query/details:86-91 -/
def place (b : MeasureBlock) (m : Measure) (position : Nat) : MeasureBlock :=
  let others := b.erase m.uniqueName
  { others with
    measures := others.measures.insertIdx (min position others.measures.length) m }

def clear (b : MeasureBlock) : MeasureBlock := { b with measures := [] }

end MeasureBlock
end CubeQuery
