import MappedQuery.Number.Decimal
import MappedQuery.Text.Like
import MappedQuery.Text.Blank
import MappedQuery.Json.Printer
import MappedQuery.Json.Reader
import MappedQuery.Value.Comparison
import MappedQuery.Value.Text
import MappedQuery.Value.Document
import MappedQuery.Schema.Lookup
import MappedQuery.Schema.Declared
import MappedQuery.Document.Operation
import MappedQuery.Query.Normal
import MappedQuery.Query.Text
import MappedQuery.Problem.Response
import MappedQuery.Mapping.Delegation
import MappedQuery.Mapping.Validation
import MappedQuery.Mapping.Rules
import MappedQuery.Sql.Session
import MappedQuery.Sql.Plan
import MappedQuery.Cursor.View
import MappedQuery.Cursor.Root
import MappedQuery.Request.Selection
import MappedQuery.Request.Elaboration
import MappedQuery.Request.Delegation
import MappedQuery.Engine
import MappedQuery.World.Mapping
import MappedQuery.World.Tables
import MappedQuery.Main
import MappedQuery.Proofs.CellOrder
import MappedQuery.Proofs.Sequencing
import MappedQuery.Proofs.PredicateTruth
import MappedQuery.Proofs.Pushdown
import MappedQuery.Proofs.Patterns
import MappedQuery.Proofs.PushedFilters
import MappedQuery.Proofs.EntityGroups
import MappedQuery.Proofs.EntityTree
import MappedQuery.Proofs.Flattening
import MappedQuery.Proofs.PlannerSteps
import MappedQuery.Proofs.EndlessRequirements
import MappedQuery.Proofs.EndingPlans
import MappedQuery.Proofs.PlanCoverage
import MappedQuery.Proofs.Supply
import MappedQuery.Proofs.Readiness
import MappedQuery.Proofs.AgreeingTypes
import MappedQuery.Proofs.PlanCompleteness
import MappedQuery.Proofs.KeyOrder
import MappedQuery.Proofs.LeftJoins
import MappedQuery.Proofs.PlanLayout
import MappedQuery.Proofs.ChosenRows
import MappedQuery.Proofs.HeldRows
import MappedQuery.Proofs.RowsShown
import MappedQuery.Proofs.ObjectMembers
import MappedQuery.Proofs.Readings
import MappedQuery.Proofs.HistoryFree
import MappedQuery.Proofs.CompiledRoots
import MappedQuery.Proofs.RootIsolation
import MappedQuery.Proofs.SharedJoins
import MappedQuery.Proofs.ShownMembers
import MappedQuery.Proofs.Ancestry
import MappedQuery.Proofs.InterfaceLookups
import MappedQuery.Proofs.ConformingDocuments
import MappedQuery.Proofs.CheckedQueries
import MappedQuery.Proofs.TypeSoundness
import MappedQuery.Proofs.SortedParts
import MappedQuery.Proofs.ResidualLists
import MappedQuery.Proofs.NeutralOperations
import MappedQuery.Proofs.ObjectPositions
import MappedQuery.Proofs.NarrowedTypes
import MappedQuery.Proofs.OverlappingFragments
import MappedQuery.Proofs.BoundArguments
import MappedQuery.Proofs.RepeatedArguments
import MappedQuery.Proofs.DelegatedRoots
import MappedQuery.Proofs.SelectionSites
import MappedQuery.Proofs.RequestGaps
import MappedQuery.Proofs.FragmentCycles
import MappedQuery.Proofs.TransparentFragments
import MappedQuery.Proofs.AlikeRuns
import MappedQuery.Proofs.StaticPaths
import MappedQuery.Proofs.DelegatedPlans
import MappedQuery.Proofs.TransparentComponents
import MappedQuery.Proofs.Placeholders
import MappedQuery.Proofs.ReadableConditions
import MappedQuery.Proofs.NormalForms
import MappedQuery.Proofs.TypenameFreePlans
import MappedQuery.Proofs.SentStatements
import MappedQuery.Proofs.ScopedPlans
import MappedQuery.Proofs.WithheldSchemas
import MappedQuery.Proofs.RequiredSiblings
import MappedQuery.Proofs.RequirementLoops
import MappedQuery.Proofs.FragmentedLists
import MappedQuery.Proofs.SeenDocuments
import MappedQuery.Proofs.TypeDescriptions
import MappedQuery.Proofs.IntrospectionRoots
import MappedQuery.Proofs.IntrospectionAnswers
import MappedQuery.Proofs.DroppedRoots
import MappedQuery.Proofs.EntityPartition
import MappedQuery.Proofs.OrderedElements
import MappedQuery.Proofs.RoundedIntegers
import MappedQuery.Proofs.KeyComparison
import MappedQuery.Proofs.SelectedColumns
import MappedQuery.Proofs.TypeLattice
import MappedQuery.Proofs.CountedLeaves
import MappedQuery.Proofs.PatternExpressions
import MappedQuery.Proofs.ReadableDefaults
import MappedQuery.Proofs.InlinedFragments
import MappedQuery.Proofs.ValueDocuments
import MappedQuery.Proofs.MirroredComparisons
import MappedQuery.Proofs.SimplifiedPredicates
import MappedQuery.Proofs.LooseEquality
import MappedQuery.Proofs.DeclaredNames
import MappedQuery.Proofs.TypeReferences
import MappedQuery.Proofs.DeclaredPrecedence
