import NixEvalJobs.Basic
import NixEvalJobs.Lib.Transition
import NixEvalJobs.Lib.Simulation
import NixEvalJobs.Lib.Slots
import NixEvalJobs.Lib.Utf8
import NixEvalJobs.Lib.Walk
import NixEvalJobs.Lib.Lines
import NixEvalJobs.Lib.Order
import NixEvalJobs.Json
import NixEvalJobs.JsonText
import NixEvalJobs.AttrPath
import NixEvalJobs.Response
import NixEvalJobs.Codec
import NixEvalJobs.ResponseTexts
import NixEvalJobs.Scheduler.State
import NixEvalJobs.Spec.Policy
import NixEvalJobs.Spec.Quint
import NixEvalJobs.Spec.Termination
import NixEvalJobs.Scheduler.Handlers
import NixEvalJobs.Scheduler.System
import NixEvalJobs.Scheduler.Moves
import NixEvalJobs.Scheduler.Pool
import NixEvalJobs.Scheduler.Exit
import NixEvalJobs.Scheduler.Solo
import NixEvalJobs.Scheduler.Processes
import NixEvalJobs.Scheduler.Budget
import NixEvalJobs.Scheduler.Progress
import NixEvalJobs.Scheduler.Admission
import NixEvalJobs.Scheduler.Conservation
import NixEvalJobs.Scheduler.Traversal
import NixEvalJobs.Scheduler.Eviction
import NixEvalJobs.Scheduler.Retries
import NixEvalJobs.Scheduler.Refinement
import NixEvalJobs.Scheduler.Termination
import NixEvalJobs.Derivation
import NixEvalJobs.CacheStatus.Resolver
import NixEvalJobs.CacheStatus.Direct
import NixEvalJobs.CacheStatus.Visits
import NixEvalJobs.CacheStatus.NeededWork
import NixEvalJobs.CacheStatus.Status
import NixEvalJobs.CacheStatus.BuildOrder
import NixEvalJobs.CacheStatus.Probes
import NixEvalJobs.CacheStatus.Thread
import NixEvalJobs.CacheStatus.Pruning
import NixEvalJobs.CacheStatus.Batches
import NixEvalJobs.CacheStatus.Rounds
import NixEvalJobs.CacheStatus.Lookups
import NixEvalJobs.Constituents.Aggregates
import NixEvalJobs.Constituents.Resolution
import NixEvalJobs.Constituents.Order
import NixEvalJobs.Constituents.Recording
import NixEvalJobs.Constituents.Rewriting
import NixEvalJobs.Constituents.Inputs
import NixEvalJobs.Constituents.Broken
import NixEvalJobs.Constituents.Links
import NixEvalJobs.Constituents.Deferral
import NixEvalJobs.Constituents.Addressing
import NixEvalJobs.Constituents.Handling
import NixEvalJobs.Constituents.Success
import NixEvalJobs.Constituents.Printing
import NixEvalJobs.Constituents.Record
import NixEvalJobs.Constituents.Selection
import NixEvalJobs.Collector.System
import NixEvalJobs.Collector.Output
import NixEvalJobs.Collector.Schedule
import NixEvalJobs.Collector.Invariant
import NixEvalJobs.Collector.Result
import NixEvalJobs.Worker.Evaluator
import NixEvalJobs.Worker.Cycles
import NixEvalJobs.Worker.Round
import NixEvalJobs.Worker.Process
import NixEvalJobs.Worker.Framing
import NixEvalJobs.Worker.Protocol
import NixEvalJobs.Worker.Traversal
import NixEvalJobs.Program.System
import NixEvalJobs.Program.Result
import NixEvalJobs.Program.Termination
