import OpenChess.Tools.LegalMovesExact
import OpenChess.Ingest.Pgn
import OpenChess.Ingest.PgnSpec
import OpenChess.Chess.Contracts
import OpenChess.Graph.Fen
import OpenChess.Graph.EnPassant
import OpenChess.Lib.Separated
import OpenChess.Tools.VariantContractLint
import OpenChess.Graph.EnPassantSpec
import OpenChess.Agreement.Node
import OpenChess.Ingest.PgnMoves
import OpenChess.Ingest.PgnApply
import OpenChess.Agreement.Moves
import OpenChess.Graph.FenCodec
import OpenChess.Graph.PositionDigest
import OpenChess.Lib.Buckets
import OpenChess.Graph.TranspositionNode
import OpenChess.Graph.TranspositionNodeSpec
import OpenChess.Graph.TranspositionNodeTable
import OpenChess.Graph.TranspositionNodeMerge
import OpenChess.Graph.RouteEdge
import OpenChess.Graph.RouteEdgeSpec
import OpenChess.Graph.RouteEdgeTable
import OpenChess.Graph.VersionStore
import OpenChess.Graph.VersionStoreSpec
import OpenChess.Agreement.FenChecks
import OpenChess.Graph.Node
import OpenChess.Agreement.FenClosure
import OpenChess.Graph.VersionStoreMerge
import OpenChess.Graph.VersionStoreTime
import OpenChess.Chess.Value
import OpenChess.Lib.Dict
import OpenChess.Graph.Snapshot
import OpenChess.Graph.Diff
import OpenChess.Graph.DiffSpec
import OpenChess.Graph.DiffExact
import OpenChess.Graph.Conflict
import OpenChess.Lib.Assoc
import OpenChess.Graph.Provenance
import OpenChess.Graph.ProvenanceSpec
import OpenChess.Lib.HashChain
import OpenChess.Store.Wal
import OpenChess.Store.WalSpec
import OpenChess.Lib.LongestPrefix
import OpenChess.Store.Rollback
import OpenChess.Store.Corruption
import OpenChess.Store.CrashResume
import OpenChess.Store.RecoverySpec
import OpenChess.Lib.Growth
import OpenChess.Store.LifeCycle
import OpenChess.Lib.ObjectHeap
import OpenChess.Store.Idempotency
import OpenChess.Store.Live
import OpenChess.Store.LiveTrees
import OpenChess.Store.LiveCommit
import OpenChess.Store.LiveSpec
import OpenChess.Store.Restore
import OpenChess.Store.RestoreSpec
import OpenChess.Store.Validators
import OpenChess.Store.KeyedRun
import OpenChess.Chess.LiveObject
import OpenChess.Chess.Reference
import OpenChess.Jobs.Json
import OpenChess.Jobs.Payload
import OpenChess.Jobs.Job
import OpenChess.Jobs.Queue
import OpenChess.Jobs.Restart
import OpenChess.Jobs.Cancel
import OpenChess.Jobs.Validators
import OpenChess.Jobs.Commit
import OpenChess.Jobs.QueueSpec
import OpenChess.Lib.Walk
import OpenChess.Jobs.Run
import OpenChess.Jobs.LifeCycle
import OpenChess.Jobs.Lease
import OpenChess.Jobs.Limit
import OpenChess.Lib.TokenBucket
import OpenChess.Jobs.LimitSpec
import OpenChess.Identity.Admission
import OpenChess.Identity.Quota
import OpenChess.ControlPlane.Equal
import OpenChess.ControlPlane.Schema
import OpenChess.ControlPlane.Versioning
import OpenChess.ControlPlane.Operations
import OpenChess.ControlPlane.Substitution
import OpenChess.ControlPlane.Preorder
import OpenChess.Jobs.Idempotency
import OpenChess.Jobs.IdempotencySpec
import OpenChess.Jobs.LiveQueue
import OpenChess.Jobs.KeyedRefinement
import OpenChess.Lib.Trace
import OpenChess.Lib.Cells
import OpenChess.Privacy.Request
import OpenChess.Privacy.SensitiveFlag
import OpenChess.Privacy.CloudOff
import OpenChess.Privacy.Byom
import OpenChess.Privacy.Consent
import OpenChess.Privacy.Egress
import OpenChess.Privacy.SingleUse
import OpenChess.Privacy.Delete
import OpenChess.Privacy.DeleteSpec
import OpenChess.Lib.StableSort
import OpenChess.Backtest.Replay
import OpenChess.Lib.Scanner
import OpenChess.Ingest.Movetext
import OpenChess.Ingest.MovetextSpec
import OpenChess.Ingest.PgnGame
import OpenChess.Ingest.PgnDistinct
import OpenChess.Ingest.San
import OpenChess.Lib.LineText
import OpenChess.Ingest.PgnTags
import OpenChess.Ingest.Validate
import OpenChess.Ingest.Stream
import OpenChess.Ingest.ImportRecord
import OpenChess.Ingest.ImportStore
import OpenChess.Ingest.ImportInvariant
import OpenChess.Ingest.Import
import OpenChess.Ingest.ImportSpec
import OpenChess.Ingest.ImportCrash
import OpenChess.Ingest.ImportRuns
import OpenChess.Chess.Mirror
import OpenChess.Tools.LegalMovesLaws
import OpenChess.Tools.CastlingRuns
import OpenChess.Tools.TurnRuntime
import OpenChess.Agreement.EnPassant
import OpenChess.Agreement.Castling
import OpenChess.Agreement.VariantIdentity
import OpenChess.Graph.OpeningContext
import OpenChess.Graph.OpeningContextMerge
import OpenChess.Jobs.ClaimOrder
import OpenChess.Jobs.RestartNacks
import OpenChess.Jobs.Progress
import OpenChess.ControlPlane.Errors
import OpenChess.ControlPlane.Projection
import OpenChess.Lib.Triple
import OpenChess.ControlPlane.Session
import OpenChess.ControlPlane.SessionSpec
import OpenChess.ControlPlane.SessionHygiene
import OpenChess.Jobs.JsonLoads
import OpenChess.Lib.KeyedLog
import OpenChess.ControlPlane.Outbox
import OpenChess.ControlPlane.Publication
import OpenChess.Store.Migration
import OpenChess.Lib.UniqueDecoding
import OpenChess.Jobs.JsonInjective
import OpenChess.Store.CorruptionEncoding
import OpenChess.Store.CorruptionLive
import OpenChess.Store.Preimages
import OpenChess.Lib.UndoStack
import OpenChess.Privacy.FlagHistory
import OpenChess.Lib.Utf8
import OpenChess.Ingest.Streaming
import OpenChess.Ingest.Importer
import OpenChess.Ingest.Offsets
import OpenChess.Ingest.LineEnds
import OpenChess.Ingest.Positions
import OpenChess.Ingest.Schemas
import OpenChess.Ingest.Dedup
import OpenChess.Backtest.Scoring
import OpenChess.Backtest.Calibration
import OpenChess.Lib.WordSplit
import OpenChess.Tools.LicenseAudit
import OpenChess.Ingest.Lichess
import OpenChess.Lib.Kahn
import OpenChess.Tools.Dag
import OpenChess.Tools.DagSpec
import OpenChess.Lib.Receiver
import OpenChess.ControlPlane.Mock
import OpenChess.ControlPlane.MockSpec
import OpenChess.ControlPlane.MockQuota
import OpenChess.ControlPlane.MockSessions
import OpenChess.ControlPlane.MockRetry
import OpenChess.ControlPlane.LossyLink
import OpenChess.Jobs.JsonRoundTrip
import OpenChess.Brand.Approval
import OpenChess.Brand.ApprovalSpec
import OpenChess.Ingest.QuarantineStore
import OpenChess.Store.Export
import OpenChess.Ingest.DedupRuns
import OpenChess.Ingest.Incremental
import OpenChess.Ingest.Download
import OpenChess.Jobs.Retry
import OpenChess.Jobs.Receipts
