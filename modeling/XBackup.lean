import XBackup.Cli.RedactUri
import XBackup.Config.Expand
import XBackup.Config.Layers
import XBackup.Config.ReadBack
import XBackup.Config.ReadDestination
import XBackup.Config.Resolve
import XBackup.Config.Settings
import XBackup.Config.WriteV2
import XBackup.Config.WrittenText
import XBackup.Crypto.AesGcm
import XBackup.Crypto.PumpFailures
import XBackup.Crypto.PumpReader
import XBackup.Crypto.PumpStack
import XBackup.Crypto.Pumps
import XBackup.Crypto.StreamFormat
import XBackup.Engine.Archive
import XBackup.Engine.Catalog
import XBackup.Engine.CutArchives
import XBackup.Engine.DbKind
import XBackup.Engine.Encoding
import XBackup.Engine.File.Backup
import XBackup.Engine.File.Index
import XBackup.Engine.File.Restore
import XBackup.Engine.Increment
import XBackup.Engine.Mongo.Apply
import XBackup.Engine.Mongo.BatchLimits
import XBackup.Engine.Mongo.Bson
import XBackup.Engine.Mongo.Oplog
import XBackup.Engine.Mongo.Reference
import XBackup.Engine.Mongo.Sanitise
import XBackup.Engine.Mongo.Slices
import XBackup.Engine.Mongo.Stream
import XBackup.Engine.Mysql.Apply
import XBackup.Engine.Mysql.Backup
import XBackup.Engine.Mysql.Binlog
import XBackup.Engine.Mysql.Capture
import XBackup.Engine.Mysql.Columns
import XBackup.Engine.Mysql.Copy
import XBackup.Engine.Mysql.Literals
import XBackup.Engine.Mysql.Reapply
import XBackup.Engine.Mysql.Replay
import XBackup.Engine.Mysql.Restore
import XBackup.Engine.Mysql.Server
import XBackup.Engine.Mysql.Session
import XBackup.Engine.Mysql.Statements
import XBackup.Engine.Mysql.Value
import XBackup.Engine.Native.Backup
import XBackup.Engine.Native.Copy
import XBackup.Engine.Native.Restore
import XBackup.Engine.Postgres.Apply
import XBackup.Engine.Postgres.Backup
import XBackup.Engine.Postgres.Checked
import XBackup.Engine.Postgres.Convergence
import XBackup.Engine.Postgres.Copy
import XBackup.Engine.Postgres.Heard
import XBackup.Engine.Postgres.Malformed
import XBackup.Engine.Postgres.Messages
import XBackup.Engine.Postgres.Pgoutput
import XBackup.Engine.Postgres.Reapply
import XBackup.Engine.Postgres.Replay
import XBackup.Engine.Postgres.Restore
import XBackup.Engine.Postgres.Server
import XBackup.Engine.Truncation
import XBackup.Engine.WholeArchives
import XBackup.Foundation.AscendingLog
import XBackup.Foundation.Bytes
import XBackup.Foundation.Calendar
import XBackup.Foundation.CappedLines
import XBackup.Foundation.Chunks
import XBackup.Foundation.Coroutines
import XBackup.Foundation.EscapedText
import XBackup.Foundation.Fallible
import XBackup.Foundation.FileTree
import XBackup.Foundation.Framing
import XBackup.Foundation.Groups
import XBackup.Foundation.History
import XBackup.Foundation.Infixes
import XBackup.Foundation.Interleaving
import XBackup.Foundation.Interrupted
import XBackup.Foundation.JsonGrammar
import XBackup.Foundation.JsonText
import XBackup.Foundation.KeyedBuffer
import XBackup.Foundation.KeyedDatabase
import XBackup.Foundation.KeyedRows
import XBackup.Foundation.LastWrite
import XBackup.Foundation.LineLog
import XBackup.Foundation.MemoTable
import XBackup.Foundation.Occurrences
import XBackup.Foundation.Overwrite
import XBackup.Foundation.Parsing
import XBackup.Foundation.Precedence
import XBackup.Foundation.ProcessTable
import XBackup.Foundation.Ranking
import XBackup.Foundation.ReaderLanguage
import XBackup.Foundation.Redaction
import XBackup.Foundation.Rounds
import XBackup.Foundation.RowActs
import XBackup.Foundation.Rows
import XBackup.Foundation.Sections
import XBackup.Foundation.SortedMap
import XBackup.Foundation.SortedNames
import XBackup.Foundation.SplitReads
import XBackup.Foundation.SqlLiterals
import XBackup.Foundation.Streams
import XBackup.Foundation.Tiling
import XBackup.Foundation.TokenScan
import XBackup.Foundation.TomlText
import XBackup.Foundation.Touching
import XBackup.Foundation.Transition
import XBackup.Foundation.TreePatch
import XBackup.Foundation.Utf8
import XBackup.Foundation.Walks
import XBackup.Hooks.ConnectionUris
import XBackup.Hooks.MaskSecrets
import XBackup.Hooks.MaskedText
import XBackup.Lock.Exclusion
import XBackup.Lock.FileLock
import XBackup.Manifest.Artifact
import XBackup.Manifest.Chain
import XBackup.Manifest.Schema
import XBackup.Manifest.Store
import XBackup.Manifest.Verifier
import XBackup.Pipeline.ArtifactRuns
import XBackup.Pipeline.ArtifactSafety
import XBackup.Pipeline.ArtifactWrites
import XBackup.Pipeline.DriverPitr
import XBackup.Pipeline.DumpTask
import XBackup.Pipeline.FileChain
import XBackup.Pipeline.FileRestore
import XBackup.Pipeline.FullBackup
import XBackup.Pipeline.Incremental
import XBackup.Pipeline.Migrate
import XBackup.Pipeline.MigrateScope
import XBackup.Pipeline.MongoHistory
import XBackup.Pipeline.MongoRecovery
import XBackup.Pipeline.MysqlHistory
import XBackup.Pipeline.PgChain
import XBackup.Pipeline.Pitr
import XBackup.Pipeline.Prune
import XBackup.Pipeline.PruneCommand
import XBackup.Pipeline.PruneInterrupt
import XBackup.Pipeline.PrunePromises
import XBackup.Pipeline.PruneRun
import XBackup.Pipeline.PruneSafety
import XBackup.Pipeline.PruneStore
import XBackup.Pipeline.Reapply
import XBackup.Pipeline.RecoveryWindow
import XBackup.Pipeline.ReplicaSet
import XBackup.Pipeline.Restore
import XBackup.Pipeline.RestoreCommand
import XBackup.Pipeline.SharedStore
import XBackup.Pipeline.Verify
import XBackup.Schedule.CronExpr
import XBackup.Schedule.Fields
import XBackup.Schedule.LocalTime
import XBackup.Storage.Multipart
import XBackup.Storage.Objects
import XBackup.Storage.S3Paths
import XBackup.Web.ConfigChange
import XBackup.Web.ConfigOrigins
import XBackup.Web.ConfigSaves
import XBackup.Web.CronAgreement
import XBackup.Web.CronExpr
import XBackup.Web.CronFieldValues
import XBackup.Web.CronRange
import XBackup.Web.Firing
import XBackup.Web.Guard
import XBackup.Web.JobHub
import XBackup.Web.JobLines
import XBackup.Web.JobRecord
import XBackup.Web.JobSpec
import XBackup.Web.JobStore
import XBackup.Web.JsonGuard
import XBackup.Web.Lifecycle
import XBackup.Web.Mask
import XBackup.Web.ProfileName
import XBackup.Web.PruneApproval
import XBackup.Web.RestoreApproval
import XBackup.Web.Schedule
import XBackup.Web.ScheduleClock
import XBackup.Web.ScheduleFile
import XBackup.Web.ScheduleHistory
import XBackup.Web.ScheduleStore
import XBackup.Web.ScheduleWrites
import XBackup.Web.SingleFlight
import XBackup.Web.StdoutRelay
import XBackup.Web.TtlCache
import XBackup.Engine.RowCounts
