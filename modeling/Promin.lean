import Promin.Spec.RewriteSettles
import Promin.Spec.SourcesKept
import Promin.Spec.Joins
import Promin.Spec.WindowRanks
import Promin.Spec.OverlappingSave
import Promin.Spec.CsvReaders
import Promin.Spec.DataDiff
import Promin.Spec.Components
import Promin.Spec.ShortestPaths
import Promin.Spec.PageRank
import Promin.Spec.Neighbors
import Promin.Spec.Louvain
import Promin.Spec.LeaderLeases
import Promin.Spec.TickIdentity
import Promin.Spec.DueTracking
import Promin.Spec.StepQueueOrder
import Promin.Spec.QueuedOutcomes
import Promin.Spec.WorkerAccount
import Promin.Spec.TimeoutVisits
import Promin.Spec.TransitionLimits
import Promin.Spec.RegistryRuns
import Promin.Spec.StartQueueSteps
import Promin.Spec.ResumeDispatch
import Promin.Spec.ResumeDownstream
import Promin.Spec.TaskRows
import Promin.Spec.SignalTokens
import Promin.Spec.CascadeCancel
import Promin.Spec.ChildIds
import Promin.Spec.FreshRuns
import Promin.Spec.StepSequences
import Promin.Spec.CompletedAnswers
import Promin.Spec.StackUnwind
import Promin.Spec.CompensationReplay
import Promin.Spec.NamespaceRuns
import Promin.Spec.CacheRecency
import Promin.Spec.VersionLifecycle
import Promin.Spec.ReferenceFence
import Promin.Spec.EngineDrains
import Promin.Spec.PollLoopWakes
import Promin.Spec.StaleRuns
import Promin.Spec.BudgetedCalls
import Promin.Spec.ContextTail
import Promin.Spec.CompactionRuns
import Promin.Spec.CompactedTurns
import Promin.Spec.DagBudget
import Promin.Spec.ChunkCoverage
import Promin.Durable.WorkflowVersionOrder
import Promin.Spec.ScheduleFilters
import Promin.Spec.StreamChunks
import Promin.Spec.IngestionClaims
import Promin.Spec.FilteredPolls
import Promin.Spec.OptimizedPlans
import Promin.Spec.RateLimits
import Promin.Spec.Reservations
import Promin.Spec.Communities
