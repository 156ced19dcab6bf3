import CubeQuery.Outcome
import CubeQuery.Text.Placeholder
import CubeQuery.Bindings
import CubeQuery.Catalog.Lookup
import CubeQuery.Expr.CrossJoin
import CubeQuery.Expr.References
import CubeQuery.Expr.Writable
import CubeQuery.Statement
import CubeQuery.SetFilter
import CubeQuery.MeasureBlock
import CubeQuery.Selection.Hierarchy
import CubeQuery.Change
import CubeQuery.Change.InPlace
import CubeQuery.Compile.Demands
import CubeQuery.Compile.Origin
import CubeQuery.Execution
import CubeQuery.Definition.Build
import CubeQuery.Yaml.Token
import CubeQuery.Yaml.Document
import CubeQuery.Yaml.Value
import CubeQuery.Document.Error
import CubeQuery.Document.Catalog
import CubeQuery.Document.Options
import CubeQuery.Document.Definition
import CubeQuery.Proofs.Accepted
import CubeQuery.Proofs.Ground
import CubeQuery.Proofs.Atomicity
import CubeQuery.Proofs.Runs
import CubeQuery.Proofs.Building
import CubeQuery.Proofs.Placed
import CubeQuery.Proofs.Active
import CubeQuery.Proofs.References
import CubeQuery.Proofs.Compiled
import CubeQuery.Proofs.Inherited
import CubeQuery.Proofs.Assembly
import CubeQuery.Proofs.LevelReferences
import CubeQuery.Proofs.Closure
import CubeQuery.Proofs.SetNames
import CubeQuery.Proofs.Distinct
import CubeQuery.Proofs.NamedApart
import CubeQuery.Proofs.Coherent
import CubeQuery.Proofs.Alike
import CubeQuery.Proofs.DeadState
import CubeQuery.Proofs.Values
import CubeQuery.Proofs.AxisSets
import CubeQuery.Proofs.Hoisting
import CubeQuery.Proofs.ReadBack
import CubeQuery.Proofs.Writable
import CubeQuery.Proofs.Failures
import CubeQuery.Proofs.UniqueNames
import CubeQuery.Proofs.Constructed
import CubeQuery.Proofs.Demands
import CubeQuery.Proofs.Declared
import CubeQuery.Proofs.Balanced
import CubeQuery.Proofs.Operations
import CubeQuery.Proofs.Linked
import CubeQuery.Proofs.Owned
import CubeQuery.Proofs.LevelNames
import CubeQuery.Proofs.Lookup
import CubeQuery.Proofs.LevelValues
import CubeQuery.Proofs.Picking
import CubeQuery.Proofs.BoundValues
import CubeQuery.Proofs.Definitions
import CubeQuery.Proofs.Clearing
import CubeQuery.Proofs.Ranges
import CubeQuery.Proofs.Parents
import CubeQuery.Expr.Nesting
import CubeQuery.Proofs.Fragments
import CubeQuery.Proofs.Overrides
import CubeQuery.Proofs.CrossJoins
import CubeQuery.Proofs.MeasureAxes
import CubeQuery.Proofs.MemberNames
import CubeQuery.Proofs.DeclaredMembers
import CubeQuery.Proofs.Moves
import CubeQuery.Proofs.Retrieval
import CubeQuery.Proofs.Arrangement
import CubeQuery.Proofs.NameFilters
import CubeQuery.Proofs.PathTexts
import CubeQuery.Proofs.Faults
import CubeQuery.Proofs.Swaps
import CubeQuery.Proofs.Placeholders
import CubeQuery.Proofs.CubeNames
import CubeQuery.Proofs.MeasureLists
import CubeQuery.Proofs.MemberNames
