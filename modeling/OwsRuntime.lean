import OwsRuntime.Async.Abreast
import OwsRuntime.Async.Endings
import OwsRuntime.Async.Joining
import OwsRuntime.Async.Lockstep
import OwsRuntime.Async.Own
import OwsRuntime.Async.Requests
import OwsRuntime.Async.Rules
import OwsRuntime.Async.Safety
import OwsRuntime.Async.Serial
import OwsRuntime.Async.Triples
import OwsRuntime.Async.Turns
import OwsRuntime.Async.Twins
import OwsRuntime.Catalogs
import OwsRuntime.Compile
import OwsRuntime.CompileScopes
import OwsRuntime.CompileSources
import OwsRuntime.Core.Brackets
import OwsRuntime.Core.Equality
import OwsRuntime.Core.Float
import OwsRuntime.Core.Pointer
import OwsRuntime.Core.Rounding
import OwsRuntime.Core.Services
import OwsRuntime.Core.Streams
import OwsRuntime.Dsl.Normalize
import OwsRuntime.Duration
import OwsRuntime.Engine.Accuracy
import OwsRuntime.Engine.Agreement
import OwsRuntime.Engine.Attempts
import OwsRuntime.Engine.Cancelling
import OwsRuntime.Engine.Checkpoints
import OwsRuntime.Engine.Context
import OwsRuntime.Engine.ContextSound
import OwsRuntime.Engine.Directives
import OwsRuntime.Engine.Effects
import OwsRuntime.Engine.Engine
import OwsRuntime.Engine.EngineRequests
import OwsRuntime.Engine.EngineSound
import OwsRuntime.Engine.Executions
import OwsRuntime.Engine.Flow
import OwsRuntime.Engine.Hearing
import OwsRuntime.Engine.Http
import OwsRuntime.Engine.Invokers
import OwsRuntime.Engine.Listening
import OwsRuntime.Engine.Protocol
import OwsRuntime.Engine.Requests
import OwsRuntime.Engine.Restarts
import OwsRuntime.Engine.Rounds
import OwsRuntime.Engine.Runs
import OwsRuntime.Engine.Runtime
import OwsRuntime.Engine.Sessions
import OwsRuntime.Engine.Tasks
import OwsRuntime.Engine.TasksSound
import OwsRuntime.Engine.Turns
import OwsRuntime.Engine.VeiledRuns
import OwsRuntime.Engine.VeiledTasks
import OwsRuntime.Engine.Veils
import OwsRuntime.Events.Broker
import OwsRuntime.Expressions.Blocks
import OwsRuntime.Expressions.Depth
import OwsRuntime.Expressions.Engine
import OwsRuntime.Expressions.Eval
import OwsRuntime.Expressions.Grammar
import OwsRuntime.Expressions.JsonText
import OwsRuntime.Expressions.LexSteps
import OwsRuntime.Expressions.Lexer
import OwsRuntime.Expressions.Lexing
import OwsRuntime.Expressions.Parser
import OwsRuntime.Expressions.Paths
import OwsRuntime.Expressions.PrintedText
import OwsRuntime.Expressions.Printing
import OwsRuntime.Expressions.References
import OwsRuntime.Expressions.Simulation
import OwsRuntime.Expressions.Spine
import OwsRuntime.Expressions.Templates
import OwsRuntime.Expressions.Trimming
import OwsRuntime.Expressions.VariableNames
import OwsRuntime.Expressions.Variables
import OwsRuntime.Graph.Discovery
import OwsRuntime.Graph.Walks
import OwsRuntime.Graph.Worklist
import OwsRuntime.Observability.Otlp
import OwsRuntime.Properties.Acceptance
import OwsRuntime.Properties.Backoff
import OwsRuntime.Properties.BlockDelimiting
import OwsRuntime.Properties.BranchOrder
import OwsRuntime.Properties.BranchScope
import OwsRuntime.Properties.BrokerDelivery
import OwsRuntime.Properties.CallEvaluation
import OwsRuntime.Properties.CancellationCaught
import OwsRuntime.Properties.CatalogClosure
import OwsRuntime.Properties.CatalogOrder
import OwsRuntime.Properties.Comparison
import OwsRuntime.Properties.ContextReads
import OwsRuntime.Properties.ContextUpdates
import OwsRuntime.Properties.CrashRecovery
import OwsRuntime.Properties.CronFirings
import OwsRuntime.Properties.DiagnosticLocations
import OwsRuntime.Properties.DiagnosticSites
import OwsRuntime.Properties.DurableOutcome
import OwsRuntime.Properties.DurationGrammar
import OwsRuntime.Properties.DurationValue
import OwsRuntime.Properties.EmitListen
import OwsRuntime.Properties.ExecutionIdentity
import OwsRuntime.Properties.ExpressionSyntax
import OwsRuntime.Properties.ExtensionExit
import OwsRuntime.Properties.FlowTargets
import OwsRuntime.Properties.ForkJoin
import OwsRuntime.Properties.FrontEnd
import OwsRuntime.Properties.Histograms
import OwsRuntime.Properties.IfChains
import OwsRuntime.Properties.InlineCollections
import OwsRuntime.Properties.IntegerArithmetic
import OwsRuntime.Properties.JsonSublanguage
import OwsRuntime.Properties.LifecycleEvents
import OwsRuntime.Properties.ListenCorrelation
import OwsRuntime.Properties.ListenSoundness
import OwsRuntime.Properties.ListenUntil
import OwsRuntime.Properties.LoopFold
import OwsRuntime.Properties.NetworkPolicy
import OwsRuntime.Properties.Normalization
import OwsRuntime.Properties.NumericEquality
import OwsRuntime.Properties.OperatorPrecedence
import OwsRuntime.Properties.OtlpEncoders
import OwsRuntime.Properties.ParallelBound
import OwsRuntime.Properties.PathKeywords
import OwsRuntime.Properties.PolicyMonotonicity
import OwsRuntime.Properties.PostgresRefinement
import OwsRuntime.Properties.PrintedTrees
import OwsRuntime.Properties.Reachability
import OwsRuntime.Properties.RedisRefinement
import OwsRuntime.Properties.ReferenceClosure
import OwsRuntime.Properties.RegistryIntegrity
import OwsRuntime.Properties.RetryLimits
import OwsRuntime.Properties.ReusableFunctions
import OwsRuntime.Properties.ScheduleCancel
import OwsRuntime.Properties.ScheduleEvents
import OwsRuntime.Properties.ScopeCompleteness
import OwsRuntime.Properties.SecretSilence
import OwsRuntime.Properties.SetInterpolation
import OwsRuntime.Properties.SkippedTask
import OwsRuntime.Properties.Stopping
import OwsRuntime.Properties.StoreRefinement
import OwsRuntime.Properties.StreamLaws
import OwsRuntime.Properties.StringInterpolation
import OwsRuntime.Properties.TemplateText
import OwsRuntime.Properties.TerminalFinal
import OwsRuntime.Properties.UriTemplates
import OwsRuntime.Registry
import OwsRuntime.Schedule.Loops
import OwsRuntime.Schedule.Timing
import OwsRuntime.Schedule.Trigger
import OwsRuntime.Stores.Keyspace
import OwsRuntime.Stores.Machines
import OwsRuntime.Stores.Postgres
import OwsRuntime.Stores.Redis
import OwsRuntime.Stores.Sqlite
import OwsRuntime.Stores.Tables
