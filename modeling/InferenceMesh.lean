import InferenceMesh.Cache.Allocator
import InferenceMesh.Cache.CacheManager
import InferenceMesh.Cache.Holdings
import InferenceMesh.Cache.Idempotence
import InferenceMesh.Cache.LinearCache
import InferenceMesh.Cache.LivePrefixes
import InferenceMesh.Cache.LockAccounting
import InferenceMesh.Cache.LongestPrefix
import InferenceMesh.Cache.Ownership
import InferenceMesh.Cache.RadixCache
import InferenceMesh.Cache.RadixEviction
import InferenceMesh.Cache.RadixGrowth
import InferenceMesh.Cache.RadixLinks
import InferenceMesh.Cache.RadixLocks
import InferenceMesh.Cache.RadixTree
import InferenceMesh.Cache.Residents
import InferenceMesh.Cache.Rollback
import InferenceMesh.Frontend.Chunking
import InferenceMesh.Frontend.StreamReaders
import InferenceMesh.Kernel.GptOss
import InferenceMesh.Kernel.Indexer
import InferenceMesh.Kernel.PagedAttention
import InferenceMesh.Kernel.PagedRun
import InferenceMesh.Kernel.ReshapeAndCache
import InferenceMesh.Kernel.Selection
import InferenceMesh.Kernel.TopK
import InferenceMesh.Lib.Argsort
import InferenceMesh.Lib.CausalStages
import InferenceMesh.Lib.Channel
import InferenceMesh.Lib.Dict
import InferenceMesh.Lib.DottedNames
import InferenceMesh.Lib.ExceptList
import InferenceMesh.Lib.FreeList
import InferenceMesh.Lib.Grouping
import InferenceMesh.Lib.Heap
import InferenceMesh.Lib.Lanes
import InferenceMesh.Lib.OnlineSoftmax
import InferenceMesh.Lib.PrefixStore
import InferenceMesh.Lib.PyExn
import InferenceMesh.Lib.PyString
import InferenceMesh.Lib.Scatter
import InferenceMesh.Lib.StackWalk
import InferenceMesh.Lib.StateExn
import InferenceMesh.Lib.TextLines
import InferenceMesh.Lib.Tilings
import InferenceMesh.Lib.Utf8
import InferenceMesh.Models.CausalBlocks
import InferenceMesh.Models.DecodeAgrees
import InferenceMesh.Models.DeepSeekV32
import InferenceMesh.Models.DenseBlocks
import InferenceMesh.Models.GptOss
import InferenceMesh.Models.Mlx
import InferenceMesh.Models.MlxArrays
import InferenceMesh.Models.PrefillStates
import InferenceMesh.Models.Qwen3Next
import InferenceMesh.Models.SparseSelection
import InferenceMesh.P2P.ActivityFlag
import InferenceMesh.P2P.Flights
import InferenceMesh.P2P.LayerChange
import InferenceMesh.P2P.MessageUtil
import InferenceMesh.P2P.NodeSender
import InferenceMesh.P2P.StreamBridge
import InferenceMesh.P2P.WireRoundTrip
import InferenceMesh.Scheduling.AllocationOutcome
import InferenceMesh.Scheduling.BacktrackedPipelines
import InferenceMesh.Scheduling.BatchCapacity
import InferenceMesh.Scheduling.Bookkeeping
import InferenceMesh.Scheduling.Bootstrapped
import InferenceMesh.Scheduling.CachedPipelines
import InferenceMesh.Scheduling.Capacity
import InferenceMesh.Scheduling.Chains
import InferenceMesh.Scheduling.CostAgreement
import InferenceMesh.Scheduling.Departure
import InferenceMesh.Scheduling.DispatchLoad
import InferenceMesh.Scheduling.FairRotation
import InferenceMesh.Scheduling.FullPipeline
import InferenceMesh.Scheduling.GlobalAllocation
import InferenceMesh.Scheduling.GreedySearch
import InferenceMesh.Scheduling.Heartbeat
import InferenceMesh.Scheduling.Hosting
import InferenceMesh.Scheduling.Invariants
import InferenceMesh.Scheduling.JoinQueue
import InferenceMesh.Scheduling.LayerAllocation
import InferenceMesh.Scheduling.LayerRoute
import InferenceMesh.Scheduling.ManualRange
import InferenceMesh.Scheduling.Marking
import InferenceMesh.Scheduling.ModelInfo
import InferenceMesh.Scheduling.Node
import InferenceMesh.Scheduling.PipelineCharges
import InferenceMesh.Scheduling.PipelineDP
import InferenceMesh.Scheduling.PipelineEnumeration
import InferenceMesh.Scheduling.PipelineLayers
import InferenceMesh.Scheduling.PipelineOptimum
import InferenceMesh.Scheduling.PipelineSearch
import InferenceMesh.Scheduling.PipelineSplit
import InferenceMesh.Scheduling.Placement
import InferenceMesh.Scheduling.RequestRouting
import InferenceMesh.Scheduling.RoundRobin
import InferenceMesh.Scheduling.RouterAgreement
import InferenceMesh.Scheduling.RoutingSoundness
import InferenceMesh.Scheduling.Scheduler
import InferenceMesh.Scheduling.SchedulerView
import InferenceMesh.Scheduling.ShortestChain
import InferenceMesh.Scheduling.Truncation
import InferenceMesh.Scheduling.Upkeep
import InferenceMesh.Scheduling.WaterFilling
import InferenceMesh.Scheduling.WaterLevel
import InferenceMesh.Server.Addressing
import InferenceMesh.Server.Admission
import InferenceMesh.Server.BatchEffect
import InferenceMesh.Server.BatchFailure
import InferenceMesh.Server.BatchLoop
import InferenceMesh.Server.BatchRows
import InferenceMesh.Server.BatchTurn
import InferenceMesh.Server.Batching
import InferenceMesh.Server.Cancellation
import InferenceMesh.Server.Delivery
import InferenceMesh.Server.Downstream
import InferenceMesh.Server.Executor
import InferenceMesh.Server.FirstPeer
import InferenceMesh.Server.Generation
import InferenceMesh.Server.HttpServer
import InferenceMesh.Server.Journey
import InferenceMesh.Server.JourneyBatches
import InferenceMesh.Server.JourneySteps
import InferenceMesh.Server.LengthBudget
import InferenceMesh.Server.ModelPartition
import InferenceMesh.Server.PeerRun
import InferenceMesh.Server.Pipeline
import InferenceMesh.Server.PipelineDecoding
import InferenceMesh.Server.PrepareBatch
import InferenceMesh.Server.Progress
import InferenceMesh.Server.Request
import InferenceMesh.Server.RequestSteps
import InferenceMesh.Server.ResidencyAgreement
import InferenceMesh.Server.RunningSet
import InferenceMesh.Server.Sampling
import InferenceMesh.Server.Scheduler
import InferenceMesh.Server.Seats
import InferenceMesh.Server.ShardBatches
import InferenceMesh.Server.ShardLoader
import InferenceMesh.Server.ShardRun
import InferenceMesh.Server.ShardSoundness
import InferenceMesh.Server.ShardSplits
import InferenceMesh.Server.ShardedModel
import InferenceMesh.Server.SlotMapping
import InferenceMesh.Server.StepAgreement
import InferenceMesh.Server.Timeouts
import InferenceMesh.Sglang.Alignment
import InferenceMesh.Sglang.BatchInfo
import InferenceMesh.Utils.DownloadCoverage
import InferenceMesh.Utils.Masks
import InferenceMesh.Utils.WeightFilter
import InferenceMesh.Vllm.BatchInfo
import InferenceMesh.Vllm.Positions
