import NameResolution.CanonicalNames
import NameResolution.Collection.OrderedMap
import NameResolution.Collection.OrderedSet
import NameResolution.Denotation
import NameResolution.Diagnostic
import NameResolution.FileSet
import NameResolution.Json.Number
import NameResolution.Json.Policy
import NameResolution.Json.Quoted
import NameResolution.Json.Reader
import NameResolution.Json.Resolution
import NameResolution.Json.Shape
import NameResolution.Json.Skip
import NameResolution.Json.Write
import NameResolution.Name
import NameResolution.Policy
import NameResolution.Position
import NameResolution.Proofs.AnonymousBodies
import NameResolution.Proofs.AssignedScope
import NameResolution.Proofs.BaseLibrary
import NameResolution.Proofs.ChainTexts
import NameResolution.Proofs.Checks
import NameResolution.Proofs.ContourIndex
import NameResolution.Proofs.Coverage
import NameResolution.Proofs.CursorCalls
import NameResolution.Proofs.DeclarationEffect
import NameResolution.Proofs.Demand
import NameResolution.Proofs.DistinctPositions
import NameResolution.Proofs.DocumentOrder
import NameResolution.Proofs.DottedNames
import NameResolution.Proofs.DottedPaths
import NameResolution.Proofs.EnclosingInstance
import NameResolution.Proofs.EnclosingTypes
import NameResolution.Proofs.FieldChains
import NameResolution.Proofs.Findings
import NameResolution.Proofs.IndependentFiles
import NameResolution.Proofs.InnermostThis
import NameResolution.Proofs.Json.ReadValues
import NameResolution.Proofs.Json.Scalars
import NameResolution.Proofs.Json.Shapes
import NameResolution.Proofs.LinePartition
import NameResolution.Proofs.LinePieces
import NameResolution.Proofs.MergedRegistries
import NameResolution.Proofs.NearestDeclaration
import NameResolution.Proofs.NestedNames
import NameResolution.Proofs.OwnFields
import NameResolution.Proofs.ParallelWalks
import NameResolution.Proofs.Place
import NameResolution.Proofs.PolicyClosure
import NameResolution.Proofs.PolicyRoundTrip
import NameResolution.Proofs.PolicySettings
import NameResolution.Proofs.PolicySteps
import NameResolution.Proofs.PositionLabels
import NameResolution.Proofs.RegisteredFiles
import NameResolution.Proofs.RegisteredRoots
import NameResolution.Proofs.RenderedLines
import NameResolution.Proofs.ResolutionRoundTrip
import NameResolution.Proofs.SameAnswers
import NameResolution.Proofs.Sandbox
import NameResolution.Proofs.ScopeArena
import NameResolution.Proofs.ScopeLabels
import NameResolution.Proofs.ShownTexts
import NameResolution.Proofs.TrailingScopes
import NameResolution.Proofs.TransparentNodes
import NameResolution.Proofs.WalkOrder
import NameResolution.Proofs.WalkStep
import NameResolution.Proofs.WiderPolicy
import NameResolution.Resolution
import NameResolution.ResolveError
import NameResolution.Scope.Builder
import NameResolution.Scope.Cursor
import NameResolution.Scope.Lookup
import NameResolution.Scope.Tree
import NameResolution.Syntax.Build
import NameResolution.Syntax.Contour
import NameResolution.Syntax.Node
import NameResolution.Text.Bytes
import NameResolution.Text.Dotted
import NameResolution.Text.FilePath
import NameResolution.Text.LineIndex
import NameResolution.Text.Split
import NameResolution.TypeTable
import NameResolution.Walk
import NameResolution.Workspace
