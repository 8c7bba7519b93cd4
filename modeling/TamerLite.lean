import TamerLite.BuiltInHeuristics
import TamerLite.Difference
import TamerLite.Expression
import TamerLite.FNode
import TamerLite.Converter
import TamerLite.FirstUse
import TamerLite.Exploration
import TamerLite.InterpretedFunctions
import TamerLite.RaisingExpansion
import TamerLite.Records
import TamerLite.SearchSpace
import TamerLite.DeltaSTN
import TamerLite.Encoder
import TamerLite.Novelty
import TamerLite.NoveltyFeatures
import TamerLite.NoveltyEvaluation
import TamerLite.NoveltyHistory
import TamerLite.Configuration
import TamerLite.Firing
import TamerLite.Scheduling
import TamerLite.Refinement
import TamerLite.Simulation
import TamerLite.Compression
import TamerLite.Acceptance
import TamerLite.Buckets
import TamerLite.CompressionSafety
import TamerLite.ConditionCheck
import TamerLite.Symmetry
import TamerLite.Classical
import TamerLite.Deadline
import TamerLite.Progress
import TamerLite.ActiveConditions
import TamerLite.Expansion
import TamerLite.Takeover
import TamerLite.Continuation
import TamerLite.Makespan
import TamerLite.Dominance
import TamerLite.Dedup
import TamerLite.Search
import TamerLite.PrioritySearch
import TamerLite.SearchCores
import TamerLite.EnforcedHillClimbing
import TamerLite.MultiqueueSearch
import TamerLite.Reordering
import TamerLite.Trace
import TamerLite.Plan
import TamerLite.PlanNetwork
import TamerLite.Linearisation
import TamerLite.PlanBounds
import TamerLite.PlanValidity
import TamerLite.Links
import TamerLite.ClosedConditions
import TamerLite.EventSeparation
import TamerLite.HMaxAdmissible
import TamerLite.BloomKey
import TamerLite.EffectMerging
import TamerLite.HeuristicSimplification
import TamerLite.EvaluatorAgreement
import TamerLite.Simplification
import TamerLite.TimedGoals
import TamerLite.TypedConditions
import TamerLite.Representatives
import TamerLite.Canonicalizer
import TamerLite.EquivalentObjects
import TamerLite.ClimbingCores
import TamerLite.SharedCounter
import TamerLite.Relevance
import TamerLite.BasicSearch
import TamerLite.TemporalMultiqueue
import TamerLite.CompactedPlans
import TamerLite.NothingLost
import TamerLite.Engine
