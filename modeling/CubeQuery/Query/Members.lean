import CubeQuery.Query

/-!
# Members and measures of a query

Members are picked by name, calculated members are defined on a hierarchy, and measures, stored or
calculated, are put into the measure block.
-/

namespace CubeQuery.Query

/-! ## Picking by name -/

/-- The member of a written name.
mirrors query/model:212-216 -/
def lookupMember (q : Query) (uniqueName : String) : Except Rejection Member :=
  match q.cube.memberNamed? uniqueName with
  | some m => .ok m
  | none => .error (.unknown .member uniqueName)

/-- Picks the member of a written name on a hierarchy.
mirrors query/model:218-226 -/
def pickMember (q : Query) (pick : Pick) (hierarchy member : String) :
    Except Rejection Query := do
  let m ← q.lookupMember member
  q.update hierarchy (·.pickMember pick m)

/-- Picks the range between the members of two written names.
mirrors query/model:228-237 -/
def includeRange (q : Query) (hierarchy start stop : String) : Except Rejection Query := do
  let first ← q.lookupMember start
  let last ← q.lookupMember stop
  q.update hierarchy (·.includeRange first last)

/-! ## Calculated members -/

/-- The calculated members of all hierarchies. -/
def calculatedMembers (q : Query) : List CalculatedMember :=
  q.hierarchies.flatMap (·.calculated)

/-- Registers a calculated member with the hierarchy it was built for. A parent that can be looked
up has to lie on that hierarchy too.
mirrors query/model:261-278 -/
def addCalculatedMember (q : Query) (m : CalculatedMember) : Except Rejection Query :=
  match q.indexOf? m.hierarchy with
  | none => .error (.unknown .hierarchy m.hierarchy)
  | some i => do
    if let some parent := m.parent then
      if let some p := q.cube.memberNamed? parent then
        if p.hierarchy ≠ m.hierarchy then
          throw (.parentElsewhere parent m.name m.hierarchy)
    return { q with
      hierarchies := ← changeAt (fun h => return (← h.register m).1) q.hierarchies i }

/-- Defines a calculated member on a hierarchy.
mirrors query/model:242-258 -/
def createCalculatedMember (q : Query) (hierarchy name formula : String)
    (properties : Bindings String) (parent : Option Member) :
    Except Rejection (Query × CalculatedMember) := do
  match q.hierarchy? hierarchy with
  | none => throw (.unknown .hierarchy hierarchy)
  | some h =>
    let m := (CalculatedMember.new h.hierarchy name formula).withProperties properties
    let m := match parent with
      | some p => m.withParent p
      | none => m
    return (← q.addCalculatedMember m, m)

/-! ## Measures -/

/-- Defines a calculated measure, in place of one of the same name.
mirrors query/model:288-304 -/
def createCalculatedMeasure (q : Query) (name formula : String) (properties : Bindings String) :
    Except Rejection (Query × CalculatedMeasure) :=
  if q.cube.measures.isEmpty then .error (.noMeasures q.cube.name name)
  else
    let m := (CalculatedMeasure.new name formula).withProperties properties
    .ok ({ q with
      calculatedMeasures := q.calculatedMeasures.filter (·.name ≠ name) ++ [m] }, m)

/-- The calculated measure of a name. -/
def calculatedMeasure? (q : Query) (name : String) : Option CalculatedMeasure :=
  q.calculatedMeasures.find? (·.name = name)

/-- The stored measure of a name or unique name.
mirrors query/model:315-320 -/
def storedMeasure? (q : Query) (name : String) : Option Member :=
  q.cube.measureMembers.find? fun m => m.name = name ∨ m.uniqueName = name

/-- The measure of a name or unique name, a stored one before a calculated one. -/
def measure (q : Query) (name : String) : Except Rejection Measure :=
  match q.storedMeasure? name with
  | some m => .ok (.stored m)
  | none =>
    match q.calculatedMeasures.find? fun m => m.name = name ∨ m.uniqueName = name with
    | some m => .ok (.calculated m)
    | none => .error (.unknown .measure name)

/-- Appends a measure to the block.
mirrors query/model:323-336 -/
def addMeasure (q : Query) (name : String) : Except Rejection Query := do
  let m ← q.measure name
  return { q with block := q.block.add m }

end CubeQuery.Query
