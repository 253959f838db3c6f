import NosqlBuddy.Lib.BitGroups
import NosqlBuddy.Lib.Bytes
import NosqlBuddy.Lib.Crc
import NosqlBuddy.Lib.Codes
import NosqlBuddy.Lib.Cut
import NosqlBuddy.Lib.UnixPath
import NosqlBuddy.Profiles.MongoUri
import NosqlBuddy.Profiles.Store
import NosqlBuddy.ImportExport.BsonArchive
import NosqlBuddy.ImportExport.DumpPaths
import NosqlBuddy.Lib.CounterLog
import NosqlBuddy.Lib.Fallible
import NosqlBuddy.Lib.Aligned
import NosqlBuddy.Lib.JsonText
import NosqlBuddy.Lib.Merkle
import NosqlBuddy.Lib.Mutation
import NosqlBuddy.Lib.PairTree
import NosqlBuddy.Lib.Runs
import NosqlBuddy.Lib.Segments
import NosqlBuddy.Lib.SortedMap
import NosqlBuddy.Lib.Text
import NosqlBuddy.Lib.Tickets
import NosqlBuddy.Lib.Tiling
import NosqlBuddy.Contract.Storage
import NosqlBuddy.Contract.Entrypoints
import NosqlBuddy.Contract.Calls
import NosqlBuddy.Contract.RootLog
import NosqlBuddy.Contract.Attestation
import NosqlBuddy.Contract.Malleability
import NosqlBuddy.Audit.Types
import NosqlBuddy.Audit.Commitment
import NosqlBuddy.Audit.MerkleTree
import NosqlBuddy.Audit.Log
import NosqlBuddy.Audit.Replay
import NosqlBuddy.Audit.Readers
import NosqlBuddy.Audit.Rebuild
import NosqlBuddy.Lib.Primality
import NosqlBuddy.Circuits.AuditedAction
import NosqlBuddy.Audit.InclusionProof
import NosqlBuddy.Lib.Circomlib
import NosqlBuddy.Audit.Recording
import NosqlBuddy.Audit.EventText
import NosqlBuddy.Audit.Session
import NosqlBuddy.Audit.SuperRoot
import NosqlBuddy.Audit.DomainProofs
import NosqlBuddy.Audit.ConcurrentRecord
import NosqlBuddy.Audit.FastPath
import NosqlBuddy.Audit.CrashSafety
import NosqlBuddy.Audit.RecordAtomic
import NosqlBuddy.Audit.HistoricalRoots
import NosqlBuddy.Audit.TamperEvidence
import NosqlBuddy.Audit.Attribution
import NosqlBuddy.Audit.Epochs
import NosqlBuddy.Audit.EpochPartition
import NosqlBuddy.Audit.EpochSync
import NosqlBuddy.Audit.AutoCommit
import NosqlBuddy.Audit.Batches
import NosqlBuddy.Audit.Verification
import NosqlBuddy.Audit.HonestFile
import NosqlBuddy.Audit.NoFalseAlarm
import NosqlBuddy.Audit.OplogRanges
import NosqlBuddy.Audit.OplogRoot
import NosqlBuddy.Audit.AutoAttest
import NosqlBuddy.Audit.Replica
import NosqlBuddy.Audit.Retention
import NosqlBuddy.Audit.OplogVerify
import NosqlBuddy.Audit.AttestationSound
import NosqlBuddy.Audit.HonestCommitment
import NosqlBuddy.Audit.RangeGaps
import NosqlBuddy.Audit.Interceptor
import NosqlBuddy.Lib.PairPath
import NosqlBuddy.Audit.OplogProofs
import NosqlBuddy.Audit.SuperLeaf
import NosqlBuddy.Audit.SparseTree
import NosqlBuddy.Audit.Capacity
import NosqlBuddy.Audit.PublishBatch
import NosqlBuddy.Stellar.Base32
import NosqlBuddy.Stellar.Fee
import NosqlBuddy.Stellar.Strkey
import NosqlBuddy.Audit.ChangeStream
import NosqlBuddy.Audit.Operator
import NosqlBuddy.Audit.OperatorSpec
import NosqlBuddy.Audit.Omission
import NosqlBuddy.Audit.AttestationManager
import NosqlBuddy.Audit.ThresholdStatus
import NosqlBuddy.Audit.LegalHold
import NosqlBuddy.Oplog.Bson
import NosqlBuddy.Oplog.Canonical
import NosqlBuddy.Oplog.Injective
import NosqlBuddy.Oplog.TypeClash
import NosqlBuddy.Desktop.ProofCommands
import NosqlBuddy.Desktop.Disclosure
import NosqlBuddy.Audit.Transparency
import NosqlBuddy.Desktop.Commits
import NosqlBuddy.Desktop.CommitSpec
import NosqlBuddy.Desktop.CommitMetadata
import NosqlBuddy.Desktop.ProofBundles
import NosqlBuddy.Lib.Warned
import NosqlBuddy.Lib.Wildcards
import NosqlBuddy.Lib.Binary64
import NosqlBuddy.Mongo.Value
import NosqlBuddy.Mongo.Expr
import NosqlBuddy.Mongo.Pipeline
import NosqlBuddy.Mongo.Update
import NosqlBuddy.Sql.Ast
import NosqlBuddy.Sql.Expr
import NosqlBuddy.Sql.Semantics
import NosqlBuddy.Sql.AggExact
import NosqlBuddy.Sql.FilterExact
import NosqlBuddy.Sql.Where
import NosqlBuddy.Sql.WriteSafety
import NosqlBuddy.Sql.Translate
import NosqlBuddy.Sql.FindShortcut
import NosqlBuddy.Sql.Congruence
import NosqlBuddy.Sql.Canonical
import NosqlBuddy.Sql.Literals
import NosqlBuddy.Sql.Like
import NosqlBuddy.Sql.WriteValues
import NosqlBuddy.Lib.Fields
import NosqlBuddy.Shell.Values
import NosqlBuddy.Shell.Dispatch
import NosqlBuddy.Shell.ReadBack
import NosqlBuddy.Shell.Calls
import NosqlBuddy.Shell.Recording
import NosqlBuddy.Shell.BadFilter
import NosqlBuddy.Lib.Json
import NosqlBuddy.SafeChange.Plan
import NosqlBuddy.Shell.Source
import NosqlBuddy.Shell.Eval
import NosqlBuddy.SafeChange.Rollback
import NosqlBuddy.SafeChange.Server
import NosqlBuddy.SafeChange.Risk
import NosqlBuddy.Lib.Paths
import NosqlBuddy.Lib.Pcre
import NosqlBuddy.Lib.Postings
import NosqlBuddy.SafeChange.Inverse
import NosqlBuddy.SafeChange.PlanJson
import NosqlBuddy.SafeChange.Restore
import NosqlBuddy.Timeline.Instants
import NosqlBuddy.Timeline.Store
import NosqlBuddy.Jobs.Updates
import NosqlBuddy.Jobs.Restart
import NosqlBuddy.History.Crash
import NosqlBuddy.Jobs.Lifecycle
import NosqlBuddy.Vqb.Scalar
import NosqlBuddy.Vqb.Integers
import NosqlBuddy.Vqb.Builder
import NosqlBuddy.Vqb.Reopen
import NosqlBuddy.Vqb.RoundTrip
import NosqlBuddy.Mongo.Meaning
import NosqlBuddy.Vqb.Widening
import NosqlBuddy.Lib.JsonGrammar
import NosqlBuddy.Sql.JsonInsert
import NosqlBuddy.ImportExport.Templates
import NosqlBuddy.ImportExport.JsonArray
import NosqlBuddy.ImportExport.ValidatedPaths
import NosqlBuddy.ImportExport.CsvSource
import NosqlBuddy.ImportExport.ImportSources
import NosqlBuddy.ImportExport.Coercion
import NosqlBuddy.ImportExport.FieldMapping
import NosqlBuddy.ImportExport.Pipeline
import NosqlBuddy.ImportExport.FileExport
import NosqlBuddy.ImportExport.CollectionSink
import NosqlBuddy.ImportExport.Restore
import NosqlBuddy.Audit.FieldMaps
import NosqlBuddy.Schema.ShapeRatios
import NosqlBuddy.Audit.TornTail
import NosqlBuddy.Schema.OrderFree
import NosqlBuddy.Redaction.Documents
import NosqlBuddy.QueryCode.Denotes
