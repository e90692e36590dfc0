import Photon.Lib.MachineInt
import Photon.Lib.AssocTotal
import Photon.Lib.Machine
import Photon.Lib.Recency
import Photon.Lib.AgingCounter
import Photon.Stdlib.Lru
import Photon.Stdlib.TinyLfu
import Photon.FlashDb.Shard
import Photon.FlashDb.Fields
import Photon.FlashDb.ShardOps
import Photon.FlashDb.Store
import Photon.FlashDb.Invariant
import Photon.FlashDb.StoreInvariant
import Photon.FlashDb.Frame
import Photon.FlashDb.History
import Photon.FlashDb.Admission
import Photon.FlashDb.FieldUpdate
import Photon.FlashDb.Readback
import Photon.Lock.RedisLocker
import Photon.Lock.Safety
import Photon.Lock.Transition
import Photon.Lock.LocalRecord
import Photon.Lib.TokenBucket
import Photon.RateLimiter.RedisLimiter
import Photon.RateLimiter.UpperBound
import Photon.RateLimiter.Accrual
import Photon.Middleware.RateLimit
import Photon.Workers.Exchange
import Photon.Workers.Slots
import Photon.Workers.Recovery
import Photon.Lib.SlidingWindow
import Photon.Workers.Budget
import Photon.Elasticsearch.Helper
import Photon.Elasticsearch.SearchAfter
import Photon.Postgres.Converter
import Photon.Postgres.Conversion
import Photon.Mysql.Conversion
import Photon.Sql.InClause
import Photon.Lib.ReadersWriter
import Photon.Sql.Identifier
import Photon.Stdlib.SafeLru
import Photon.Stdlib.LruSpec
import Photon.Stdlib.SketchBounds
import Photon.FlashDb.Counters
import Photon.Stdlib.Bloom
import Photon.Stdlib.BloomMembership
import Photon.Postgres.BulkBinding
import Photon.FlashDb.Exists
import Photon.Lib.AtomicSteps
import Photon.Stdlib.SketchSteps
import Photon.FlashDb.SharedSketch
import Photon.Elasticsearch.ScrollReplies
import Photon.Elasticsearch.Scroll
import Photon.Elasticsearch.ScrollFailures
import Photon.Elasticsearch.QueryMap
import Photon.FlashDb.Eviction
import Photon.FlashDb.RecencyOrder
import Photon.Lib.Delimited
import Photon.Caching.Keys
import Photon.Caching.FlashCache
import Photon.Caching.Isolation
import Photon.Caching.MultiGet
import Photon.Sql.HashKey
import Photon.Postgres.UpdateMap
import Photon.Lib.NearestEven
import Photon.Lib.Binary64
import Photon.Features.Config
import Photon.Features.Selection
import Photon.Features.Evaluation
import Photon.Features.Panics
import Photon.Features.Comparison
import Photon.Features.Manager
import Photon.Features.Updates
import Photon.Features.Lifecycle
import Photon.Aws.ListObject
import Photon.Middleware.Compressor
import Photon.Middleware.AcceptEncoding
import Photon.Middleware.ContentEncoding
import Photon.Http.Routes
import Photon.Http.Minify
import Photon.Lib.Contexts
import Photon.Postgres.DbContext
import Photon.Config.Loader
import Photon.Config.Updates
import Photon.Config.Singleton
import Photon.Aws.AppConfig
import Photon.Aws.WatcherRegistry
import Photon.Aws.CurrentValue
import Photon.Lib.Bits
import Photon.Stdlib.BitSetContract
import Photon.Lib.LinkedHeap
import Photon.Stdlib.LinkedList
import Photon.Stdlib.LinkedListReversal
import Photon.Stdlib.LinkedListDeletion
import Photon.Lock.Independence
import Photon.Caching.FlashTtl
import Photon.Lib.Paths
import Photon.Filesys.Unzip
import Photon.Middleware.Timeout
import Photon.Middleware.TimeoutTransparency
import Photon.Oidc.Client
import Photon.Oidc.SingleUse
import Photon.Lib.Text
import Photon.Lib.Percent
import Photon.Lib.Url
import Photon.Qdrant.Client
import Photon.Qdrant.Addressing
import Photon.Qdrant.Backoff
import Photon.Qdrant.Retries
import Photon.Aws.ObjectStorage
import Photon.Aws.WatcherIdentity
import Photon.Caching.MultiSet
import Photon.I18n.Translate
import Photon.Encoding.Html
import Photon.Workers.Restart
import Photon.Coordination.Backoff
