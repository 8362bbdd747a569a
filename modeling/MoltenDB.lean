import MoltenDB.Auth.Crates
import MoltenDB.Auth.Scopes
import MoltenDB.Auth.Store
import MoltenDB.Auth.Token
import MoltenDB.Auth.Types
import MoltenDB.Common.Aliases
import MoltenDB.Common.Decoder
import MoltenDB.Common.Iso
import MoltenDB.Common.JsonText
import MoltenDB.Common.LogCommands
import MoltenDB.Common.LogEntry
import MoltenDB.Common.Msgpack
import MoltenDB.Common.RoundTrip
import MoltenDB.Common.SystemFields
import MoltenDB.Common.SystemViews
import MoltenDB.Common.TokenReader
import MoltenDB.Common.WhereOperator
import MoltenDB.Crates
import MoltenDB.Engine.AllDocs
import MoltenDB.Engine.Clock
import MoltenDB.Engine.Coalesce
import MoltenDB.Engine.Coalescer
import MoltenDB.Engine.Db
import MoltenDB.Engine.Items
import MoltenDB.Engine.Mirror
import MoltenDB.Engine.Moves
import MoltenDB.Engine.OneCollection
import MoltenDB.Engine.Operations
import MoltenDB.Engine.Reads
import MoltenDB.Engine.Records
import MoltenDB.Engine.Removals
import MoltenDB.Engine.Settings
import MoltenDB.Engine.Steps
import MoltenDB.Engine.Storage.AsyncDisk
import MoltenDB.Engine.Storage.Disk
import MoltenDB.Engine.Storage.DiskSteps
import MoltenDB.Engine.Storage.Encrypted
import MoltenDB.Engine.Storage.Log
import MoltenDB.Engine.Storage.LogReader
import MoltenDB.Engine.Storage.Opfs
import MoltenDB.Engine.Storage.Recover
import MoltenDB.Engine.Storage.Registers
import MoltenDB.Engine.Storage.Replay
import MoltenDB.Engine.Storage.Snapshot
import MoltenDB.Engine.Targets
import MoltenDB.Engine.Types
import MoltenDB.Engine.Wasm
import MoltenDB.Handlers.Builds
import MoltenDB.Handlers.Common
import MoltenDB.Handlers.Documents
import MoltenDB.Handlers.Flatten
import MoltenDB.Handlers.Get
import MoltenDB.Handlers.Queries
import MoltenDB.Handlers.Requests
import MoltenDB.Handlers.Rules
import MoltenDB.Handlers.SingleKey
import MoltenDB.Handlers.Sums
import MoltenDB.Handlers.Writes
import MoltenDB.Json
import MoltenDB.Lib.Binary64
import MoltenDB.Lib.Buffer
import MoltenDB.Lib.Bytes
import MoltenDB.Lib.Calendar
import MoltenDB.Lib.Collect
import MoltenDB.Lib.Cursor
import MoltenDB.Lib.Decimal
import MoltenDB.Lib.Eff
import MoltenDB.Lib.Fields
import MoltenDB.Lib.Firsts
import MoltenDB.Lib.Frames
import MoltenDB.Lib.Groups
import MoltenDB.Lib.Hex
import MoltenDB.Lib.Interleaving
import MoltenDB.Lib.Journal
import MoltenDB.Lib.Maps
import MoltenDB.Lib.Notes
import MoltenDB.Lib.Numbering
import MoltenDB.Lib.Overwrite
import MoltenDB.Lib.Pages
import MoltenDB.Lib.Runs
import MoltenDB.Lib.Schedule
import MoltenDB.Lib.Slices
import MoltenDB.Lib.Window
import MoltenDB.Proof.AsyncCrash
import MoltenDB.Proof.AsyncWriter
import MoltenDB.Proof.Atomicity
import MoltenDB.Proof.BoundedHeaps
import MoltenDB.Proof.Builds
import MoltenDB.Proof.BulkDelete
import MoltenDB.Proof.CappedCollections
import MoltenDB.Proof.ChangeFeed
import MoltenDB.Proof.CircuitBreaker
import MoltenDB.Proof.CoalescedCalls
import MoltenDB.Proof.Coalescing
import MoltenDB.Proof.Compaction
import MoltenDB.Proof.Concurrency
import MoltenDB.Proof.Counters
import MoltenDB.Proof.Crash
import MoltenDB.Proof.CursorPages
import MoltenDB.Proof.CursorScan
import MoltenDB.Proof.DamagedLog
import MoltenDB.Proof.DecoderSafety
import MoltenDB.Proof.DeleteCounts
import MoltenDB.Proof.Deletions
import MoltenDB.Proof.DocumentCodec
import MoltenDB.Proof.DocumentDepth
import MoltenDB.Proof.Durability
import MoltenDB.Proof.Encryption
import MoltenDB.Proof.Enforcement
import MoltenDB.Proof.Exchange
import MoltenDB.Proof.ExpiredReads
import MoltenDB.Proof.Expiry
import MoltenDB.Proof.Extends
import MoltenDB.Proof.FailedInsert
import MoltenDB.Proof.FailedSettings
import MoltenDB.Proof.FailedUpdate
import MoltenDB.Proof.FastSort
import MoltenDB.Proof.FeedEnd
import MoltenDB.Proof.FieldViews
import MoltenDB.Proof.FilteredPages
import MoltenDB.Proof.FreshExpiry
import MoltenDB.Proof.Idempotence
import MoltenDB.Proof.IndexRuns
import MoltenDB.Proof.KeyDerivation
import MoltenDB.Proof.KeyPages
import MoltenDB.Proof.Locking
import MoltenDB.Proof.LogCodec
import MoltenDB.Proof.MalformedWhere
import MoltenDB.Proof.MultiLookup
import MoltenDB.Proof.Numbers
import MoltenDB.Proof.OpfsPage
import MoltenDB.Proof.OpfsReads
import MoltenDB.Proof.PageSums
import MoltenDB.Proof.Pagination
import MoltenDB.Proof.PathLookup
import MoltenDB.Proof.PlainQueries
import MoltenDB.Proof.PointInTime
import MoltenDB.Proof.PrefixReplay
import MoltenDB.Proof.Privilege
import MoltenDB.Proof.Projections
import MoltenDB.Proof.RateLimits
import MoltenDB.Proof.ReadBack
import MoltenDB.Proof.RecoverCommand
import MoltenDB.Proof.RejectedSnapshot
import MoltenDB.Proof.RequestLimits
import MoltenDB.Proof.Restart
import MoltenDB.Proof.RetryAfter
import MoltenDB.Proof.ReturnedVersions
import MoltenDB.Proof.Revocation
import MoltenDB.Proof.RevocationFile
import MoltenDB.Proof.SaveRace
import MoltenDB.Proof.SchemaReplay
import MoltenDB.Proof.ScopeKeys
import MoltenDB.Proof.ScopedReads
import MoltenDB.Proof.Scopes
import MoltenDB.Proof.SetConfinement
import MoltenDB.Proof.Shutdown
import MoltenDB.Proof.SnapshotFormat
import MoltenDB.Proof.SortOrder
import MoltenDB.Proof.Sweep
import MoltenDB.Proof.Timestamps
import MoltenDB.Proof.TokenReads
import MoltenDB.Proof.TornLog
import MoltenDB.Proof.UpdateDelete
import MoltenDB.Proof.UpdateDeleteLog
import MoltenDB.Proof.UpdateMerges
import MoltenDB.Proof.WhereAgreement
import MoltenDB.Query.Clauses
import MoltenDB.Query.Lookup
import MoltenDB.Query.Msgpack
import MoltenDB.Query.MultiLookup
import MoltenDB.Query.Projection
import MoltenDB.Query.Values
import MoltenDB.Query.Where
import MoltenDB.Server.Handlers
import MoltenDB.Server.RateLimit
import MoltenDB.Server.Recover
import MoltenDB.Server.Revocations
import MoltenDB.Server.Socket
import MoltenDB.Server.Sweep
import MoltenDB.Server.Tokens
