import CodeIndexer.Lib.Refill
import CodeIndexer.Auth.TokenBucket
import CodeIndexer.Auth.IdleBuckets
import CodeIndexer.Auth.ClockSkew
import CodeIndexer.Lib.Calendar
import CodeIndexer.Lib.PyText
import CodeIndexer.Temporal.ShardNaming
import CodeIndexer.Temporal.ShardMerge
import CodeIndexer.Temporal.ShardPruning
import CodeIndexer.Temporal.ProgressiveMetadata
import CodeIndexer.Temporal.FailedFlush
import CodeIndexer.Temporal.ProgressKept
import CodeIndexer.Lib.ByteReader
import CodeIndexer.Lib.Dict
import CodeIndexer.Lib.PurePath
import CodeIndexer.Storage.IdIndex
import CodeIndexer.GlobalRepos.Cleanup
import CodeIndexer.GlobalRepos.CleanupAttempts
import CodeIndexer.GlobalRepos.WriteLock
import CodeIndexer.GlobalRepos.WriteLockExclusion
import CodeIndexer.Coalescer.Lane
import CodeIndexer.Coalescer.Delivery
import CodeIndexer.Embedding.Providers
import CodeIndexer.Embedding.ProviderLanes
import CodeIndexer.Daemon.ReaderWriterLock
import CodeIndexer.Coalescer.OneRequest
import CodeIndexer.Coalescer.SingleFlight
import CodeIndexer.GlobalRepos.RegexTrigram
import CodeIndexer.GlobalRepos.TrigramIndex
import CodeIndexer.GlobalRepos.Prefilter
import CodeIndexer.GlobalRepos.RegexSearch
import CodeIndexer.Storage.Quantizer
import CodeIndexer.Storage.VectorStore
import CodeIndexer.Storage.OneFile
import CodeIndexer.Storage.HnswIndex
import CodeIndexer.Storage.SessionUpdate
import CodeIndexer.Storage.Ownership
import CodeIndexer.Storage.ConcurrentUpserts
import CodeIndexer.Storage.BranchIsolation
import CodeIndexer.Storage.LabelTable
import CodeIndexer.Storage.LabelMaps
import CodeIndexer.Storage.RebuildPublished
import CodeIndexer.Temporal.StaleBarrier
import CodeIndexer.Temporal.FreshShard
import CodeIndexer.Indexing.FileLifecycle
import CodeIndexer.Indexing.CleanStore
import CodeIndexer.Indexing.Reindex
import CodeIndexer.Auth.TotpReplay
import CodeIndexer.Lib.Pager
import CodeIndexer.Indexing.Scroll
import CodeIndexer.Indexing.Reconcile
import CodeIndexer.Indexing.GitDelta
import CodeIndexer.Indexing.Incremental
import CodeIndexer.Indexing.Watermark
import CodeIndexer.Indexing.Visibility
import CodeIndexer.Indexing.ImageChunks
import CodeIndexer.Indexing.HardDelete
import CodeIndexer.Indexing.BranchChanges
import CodeIndexer.Indexing.EqualContent
import CodeIndexer.Indexing.FullText
import CodeIndexer.Indexing.Chunking
import CodeIndexer.Lib.ReadCommitted
import CodeIndexer.Auth.LoginLockout
import CodeIndexer.Auth.LockoutNodes
import CodeIndexer.Auth.MfaChallenge
import CodeIndexer.Auth.OAuthTokens
import CodeIndexer.Auth.OAuthSingleUse
import CodeIndexer.Jobs.Execution
import CodeIndexer.Jobs.Finality
import CodeIndexer.Jobs.Cancellation
import CodeIndexer.Lib.UniqueTable
import CodeIndexer.Jobs.Registration
import CodeIndexer.DependencyMap.DeltaRun
import CodeIndexer.DependencyMap.NoChangeLost
import CodeIndexer.Memory.Governor
import CodeIndexer.GlobalRepos.AliasSwap
import CodeIndexer.Indexing.IndexingLock
import CodeIndexer.Jobs.ClusterClaims
import CodeIndexer.Lib.History
import CodeIndexer.DependencyMap.Resume
import CodeIndexer.Temporal.StrayVectors
import CodeIndexer.Temporal.ShardScan
import CodeIndexer.Temporal.OperatorReconcile
import CodeIndexer.Temporal.PathFilters
import CodeIndexer.Lib.SqlLike
import CodeIndexer.Scip.SymbolExpansion
import CodeIndexer.Lib.RecursiveQuery
import CodeIndexer.Lib.Separator
import CodeIndexer.Scip.CallChains
import CodeIndexer.Lib.TextLines
import CodeIndexer.DependencyMap.MirrorRows
import CodeIndexer.Xray.Validator
import CodeIndexer.Jobs.ClaimLimit
import CodeIndexer.Lib.Ranking
import CodeIndexer.Cluster.ShardOwnership
import CodeIndexer.Coalescer.CacheKey
import CodeIndexer.Xray.OwnedNode
