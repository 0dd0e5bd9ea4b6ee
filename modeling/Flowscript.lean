import Flowscript.CallError
import Flowscript.Console.Answer
import Flowscript.Console.GraphSteps
import Flowscript.Console.Natives
import Flowscript.Console.Request
import Flowscript.Console.Respond
import Flowscript.Console.RunSteps
import Flowscript.Console.Session
import Flowscript.Console.Shown
import Flowscript.Console.TypeSteps
import Flowscript.Console.ValueSteps
import Flowscript.Diagnostic
import Flowscript.Form
import Flowscript.Graph.Basic
import Flowscript.Graph.Check
import Flowscript.Graph.Document
import Flowscript.Graph.Edit
import Flowscript.Graph.Id
import Flowscript.Graph.Node
import Flowscript.Graph.Pin
import Flowscript.Graph.Reach
import Flowscript.Json.Basic
import Flowscript.Json.Decode
import Flowscript.Json.Printer
import Flowscript.Json.Reader
import Flowscript.Layout
import Flowscript.Loader
import Flowscript.Machine.Care
import Flowscript.Machine.Host
import Flowscript.Machine.Lifecycle
import Flowscript.Machine.Native
import Flowscript.Machine.State
import Flowscript.Machine.Value
import Flowscript.Memory
import Flowscript.Memory.Block
import Flowscript.Name
import Flowscript.Number.Binary
import Flowscript.Number.Decimal
import Flowscript.Number.Shortest
import Flowscript.Operator
import Flowscript.Program
import Flowscript.Proofs.CollectionLemmas
import Flowscript.Proofs.Documents.DocumentReading
import Flowscript.Proofs.Documents.LoadedRecords
import Flowscript.Proofs.Documents.NumeralText
import Flowscript.Proofs.Documents.RecordReading
import Flowscript.Proofs.Documents.SavedDocuments
import Flowscript.Proofs.Graph.CheckFindings
import Flowscript.Proofs.Graph.CycleSearch
import Flowscript.Proofs.Graph.EditedGraphs
import Flowscript.Proofs.Graph.FlowSearch
import Flowscript.Proofs.Graph.LinkLimits
import Flowscript.Proofs.Graph.LinkWiring
import Flowscript.Proofs.Graph.NodeRefresh
import Flowscript.Proofs.Graph.PersistentNumbers
import Flowscript.Proofs.Graph.PinRenewal
import Flowscript.Proofs.Graph.RefreshedLinks
import Flowscript.Proofs.Graph.RerouteChains
import Flowscript.Proofs.Graph.SlotArrays
import Flowscript.Proofs.Graph.ValidGraphs
import Flowscript.Proofs.Loading.BodyLifetimes
import Flowscript.Proofs.Loading.CallConvention
import Flowscript.Proofs.Loading.CompileOverruns
import Flowscript.Proofs.Loading.DeclarationPlans
import Flowscript.Proofs.Loading.DeclarationRounds
import Flowscript.Proofs.Loading.DeclaredScripts
import Flowscript.Proofs.Loading.FieldCircles
import Flowscript.Proofs.Loading.HostTypes
import Flowscript.Proofs.Loading.LoadingOrder
import Flowscript.Proofs.Loading.MirroredLoading
import Flowscript.Proofs.Loading.RefusedFields
import Flowscript.Proofs.Loading.RenumberedCompilation
import Flowscript.Proofs.Loading.RepeatedDefaults
import Flowscript.Proofs.Machine.AcceptedArguments
import Flowscript.Proofs.Machine.DeterminedComputations
import Flowscript.Proofs.Machine.InterpreterOutlook
import Flowscript.Proofs.Machine.LookupOperations
import Flowscript.Proofs.Machine.MachineStanding
import Flowscript.Proofs.Machine.NestedInvocation
import Flowscript.Proofs.Machine.NumberCopies
import Flowscript.Proofs.Machine.OutcomeLogic
import Flowscript.Proofs.Machine.SettledValues
import Flowscript.Proofs.Machine.SettlingFamilies
import Flowscript.Proofs.Machine.StackRanges
import Flowscript.Proofs.Machine.StorageRanges
import Flowscript.Proofs.Machine.ValueAccount
import Flowscript.Proofs.Run.AssembledPrograms
import Flowscript.Proofs.Run.AuditedStatements
import Flowscript.Proofs.Run.BudgetBounds
import Flowscript.Proofs.Run.CacheTransparency
import Flowscript.Proofs.Run.CachedEvaluation
import Flowscript.Proofs.Run.CallCare
import Flowscript.Proofs.Run.CallResults
import Flowscript.Proofs.Run.CallStanding
import Flowscript.Proofs.Run.ConstantArguments
import Flowscript.Proofs.Run.CountingLoops
import Flowscript.Proofs.Run.ErrorLocations
import Flowscript.Proofs.Run.EvaluationCounts
import Flowscript.Proofs.Run.EvaluatorAgreement
import Flowscript.Proofs.Run.ExpressionMeanings
import Flowscript.Proofs.Run.ExpressionTallies
import Flowscript.Proofs.Run.FailureCauses
import Flowscript.Proofs.Run.FaithfulFunctions
import Flowscript.Proofs.Run.FrameCare
import Flowscript.Proofs.Run.FramePreservation
import Flowscript.Proofs.Run.InputDelivery
import Flowscript.Proofs.Run.InputMeanings
import Flowscript.Proofs.Run.LoopBodies
import Flowscript.Proofs.Run.LoopMarkers
import Flowscript.Proofs.Run.LoopRounds
import Flowscript.Proofs.Run.LoopVisits
import Flowscript.Proofs.Run.NestedCallChains
import Flowscript.Proofs.Run.OutlivingReferences
import Flowscript.Proofs.Run.OwnErrors
import Flowscript.Proofs.Run.PinArrangement
import Flowscript.Proofs.Run.PinTyping
import Flowscript.Proofs.Run.PullDepth
import Flowscript.Proofs.Run.PureFunctions
import Flowscript.Proofs.Run.RecordedEvents
import Flowscript.Proofs.Run.ReferenceLineage
import Flowscript.Proofs.Run.ReturnStatements
import Flowscript.Proofs.Run.RunMoments
import Flowscript.Proofs.Run.SafeRuns
import Flowscript.Proofs.Run.SlotContents
import Flowscript.Proofs.Run.SlotFilling
import Flowscript.Proofs.Run.SlotStamps
import Flowscript.Proofs.Run.SoundInputs
import Flowscript.Proofs.Run.SoundPulls
import Flowscript.Proofs.Run.SoundStatements
import Flowscript.Proofs.Run.StackRoom
import Flowscript.Proofs.Run.SteadyCalls
import Flowscript.Proofs.Run.StepBudget
import Flowscript.Proofs.Run.StoredIntegers
import Flowscript.Proofs.Run.TendedCalls
import Flowscript.Proofs.Run.UncachedEvaluation
import Flowscript.Proofs.Run.UprightActivations
import Flowscript.Proofs.Run.VisitedNodes
import Flowscript.Proofs.Run.WellFormedPrograms
import Flowscript.Proofs.Types.BarrenTypes
import Flowscript.Proofs.Types.ChangeAnnouncements
import Flowscript.Proofs.Types.DeclaredComposition
import Flowscript.Proofs.Types.DeclaredTypeLaws
import Flowscript.Proofs.Types.DescribedTypeLaws
import Flowscript.Proofs.Types.FailedConstruction
import Flowscript.Proofs.Types.FunctionNames
import Flowscript.Proofs.Types.MirroredCatalogues
import Flowscript.Proofs.Types.OverloadSelection
import Flowscript.Proofs.Types.RegistryEvolution
import Flowscript.Proofs.Types.Renumbering
import Flowscript.Proofs.Types.SuccessorSearch
import Flowscript.Proofs.Types.TypeRegistration
import Flowscript.Proofs.Types.ValueDocuments
import Flowscript.Proofs.Types.ValueLaws
import Flowscript.Proofs.Types.ValueSpacing
import Flowscript.Run.Activation
import Flowscript.Run.Execute
import Flowscript.Run.Frame
import Flowscript.Run.Pull
import Flowscript.Run.Statement
import Flowscript.Script
import Flowscript.Settings
import Flowscript.Settings.Toml
import Flowscript.Signature
import Flowscript.Text.Hex
import Flowscript.Text.Printable
import Flowscript.Text.Quote
import Flowscript.Text.Shown
import Flowscript.Trace
import Flowscript.Traits
import Flowscript.Type.Aggregate
import Flowscript.Type.Builtin
import Flowscript.Type.Catalogue
import Flowscript.Type.Codec
import Flowscript.Type.Function
import Flowscript.Type.Info
import Flowscript.Type.Shape
import Flowscript.Workspace
