import CubeQuery.SetFilter

/-!
# Rejections

A change of a query that makes no sense is rejected, and the query stays as it was. A rejection
says what was wrong.
-/

namespace CubeQuery

/-- What a name was taken for. -/
inductive NameKind where
  | cube
  | hierarchy
  | level
  | member
  | measure
  deriving DecidableEq, Repr

def NameKind.word : NameKind → String
  | .cube => "cube"
  | .hierarchy => "hierarchy"
  | .level => "level"
  | .member => "member"
  | .measure => "measure"

/-- The two ways to pick a member on its level. -/
inductive Pick where
  | inclusion
  | exclusion
  deriving DecidableEq, Repr

def Pick.word : Pick → String
  | .inclusion => "include"
  | .exclusion => "exclude"

/-- Why a change is rejected.
mirrors query/error:8-25 -/
inductive Rejection where
  /-- The name stands for nothing. -/
  | unknown (kind : NameKind) (name : String)
  /-- The member belongs to another hierarchy. -/
  | memberElsewhere (pick : Pick) (member hierarchy : String)
  /-- The start of the range belongs to another hierarchy. -/
  | rangeElsewhere (start stop hierarchy : String)
  /-- The bounds of the range lie on different levels. -/
  | rangeAcrossLevels (startLevel stopLevel : String)
  /-- The calculated member was built for another hierarchy. -/
  | calculatedElsewhere (member hierarchy : String)
  /-- The parent of a calculated member lies on another hierarchy. -/
  | parentElsewhere (parent member hierarchy : String)
  /-- The hierarchy is where it was to be moved. -/
  | alreadyOn (hierarchy axis : String)
  | noFilterAt (index count : Nat)
  | unknownMode (text : String)
  /-- A calculated measure needs a cube with a stored one. -/
  | noMeasures (cube measure : String)
  /-- A name filter without a hierarchy whose names it compares. -/
  | filterWithoutHierarchy
  deriving DecidableEq, Repr

def Rejection.message : Rejection → String
  | .unknown kind name => "Unknown " ++ kind.word ++ " '" ++ name ++ "'"
  | .memberElsewhere pick member hierarchy =>
    "You cannot " ++ pick.word ++ " member " ++ member ++ " on hierarchy " ++ hierarchy
  | .rangeElsewhere start stop hierarchy =>
    "Hierarchy not matching. You cannot include a range selection for " ++ start ++ " and " ++ stop
      ++ " on hierarchy " ++ hierarchy
  | .rangeAcrossLevels start stop =>
    "A range selection must include members from the same level (" ++ start ++ " vs. " ++ stop
      ++ ")"
  | .calculatedElsewhere member hierarchy =>
    "You cannot include the calculated member " ++ member ++ " on hierarchy " ++ hierarchy
  | .parentElsewhere parent member hierarchy =>
    "parent " ++ parent ++ " of calculated member " ++ member ++ " is not on hierarchy "
      ++ hierarchy
  | .alreadyOn hierarchy axis =>
    "Invalid state: hierarchy " ++ hierarchy ++ " is already on " ++ axis
  | .noFilterAt index count =>
    "Invalid state: no filter at index " ++ toString index ++ " (have " ++ toString count ++ ")"
  | .unknownMode text => "Configuration error: unknown hierarchize mode '" ++ text ++ "'"
  | .noMeasures cube measure =>
    "Configuration error: cube " ++ cube ++ " has no measures to host calculated measure "
      ++ measure
  | .filterWithoutHierarchy => "Configuration error: name filter needs a hierarchy"

end CubeQuery
