import HpcPerfStats.Transition
import HpcPerfStats.Lockstep
import HpcPerfStats.KeyedList
import HpcPerfStats.WhileLoop
import HpcPerfStats.OnlineMerge
import HpcPerfStats.PyDict
import HpcPerfStats.PyText
import HpcPerfStats.FileLocking
import HpcPerfStats.ArchiveMembers
import HpcPerfStats.DailyArchive
import HpcPerfStats.RawRemoval
import HpcPerfStats.StatsSchema
import HpcPerfStats.MonitorMarks
import HpcPerfStats.StatsParser
import HpcPerfStats.MarkBinding
import HpcPerfStats.SharedStamp
import HpcPerfStats.CodonFeed
import HpcPerfStats.CodonProcs
import HpcPerfStats.StreamingParse
import HpcPerfStats.CounterDeltas
import HpcPerfStats.DeltaChunks
import HpcPerfStats.DeltaResume
import HpcPerfStats.DuplicateScan
import HpcPerfStats.ResumeIndex
import HpcPerfStats.IngestStart
import HpcPerfStats.IngestHistory
import HpcPerfStats.MonitorDict
import HpcPerfStats.DictRuns
import HpcPerfStats.DictGrowth
import HpcPerfStats.ResizeLoop
import HpcPerfStats.LinkedRing
import HpcPerfStats.RingBuffer
import HpcPerfStats.RingResend
import HpcPerfStats.RingRuns
import HpcPerfStats.DumpFile
import HpcPerfStats.CollapseKeys
import HpcPerfStats.JobStore
import HpcPerfStats.JobStoreInv
import HpcPerfStats.JobStoreRuns
import HpcPerfStats.PersistProtocol
import HpcPerfStats.ArchiveReorder
import HpcPerfStats.AckProtocol
import HpcPerfStats.AckSafety
import HpcPerfStats.TokenText
import HpcPerfStats.MonitorText
import HpcPerfStats.MonitorRoundTrip
import HpcPerfStats.ArchiveRotation
import HpcPerfStats.RotationSafety
import HpcPerfStats.RemovalDone
import HpcPerfStats.DayCloseManifest
import HpcPerfStats.MembersHistory
import HpcPerfStats.SidecarStore
import HpcPerfStats.PopulateProtocol
import HpcPerfStats.ReadCleanup
import HpcPerfStats.RestoreSafety
import HpcPerfStats.LookupRuns
import HpcPerfStats.AccountingFile
import HpcPerfStats.CompleteMarks
import HpcPerfStats.WriteStage
import HpcPerfStats.ReadinessGate
import HpcPerfStats.ProcUpsert
import HpcPerfStats.LiveWorker
import HpcPerfStats.ShardBudget
import HpcPerfStats.SchemaEntryParse
import HpcPerfStats.SchemaInit
import HpcPerfStats.JsonText
import HpcPerfStats.CodonWire
import HpcPerfStats.CodonRpc
import HpcPerfStats.CollectTier
import HpcPerfStats.CpuList
import HpcPerfStats.CpuListSets
import HpcPerfStats.SharedBurst
import HpcPerfStats.SealGuard
import HpcPerfStats.DayReconcile
import HpcPerfStats.TarDedupe
import HpcPerfStats.LabelCodes
import HpcPerfStats.DeltaGroups
import HpcPerfStats.NvidiaCollapse
import HpcPerfStats.IngestClaims
import HpcPerfStats.IngestRecovery
import HpcPerfStats.JobSnapshot
import HpcPerfStats.SnapshotRuns
import HpcPerfStats.HostDataInsert
import HpcPerfStats.AcctIngest
import HpcPerfStats.BulkInvalidate
import HpcPerfStats.GzMigration
import HpcPerfStats.PointLookup
import HpcPerfStats.TailScan
import HpcPerfStats.PayloadKind
import HpcPerfStats.DcgmBlanks
import HpcPerfStats.SlidingRuns
import HpcPerfStats.Custody
import HpcPerfStats.JobCustody
import HpcPerfStats.LeaseOwners
import HpcPerfStats.DailyTarPaths
import HpcPerfStats.Custodians
import HpcPerfStats.IngestCoordinator
import HpcPerfStats.IngestRuns
import HpcPerfStats.IngestSafety
import HpcPerfStats.AppendCoordinator
import HpcPerfStats.AppendRuns
import HpcPerfStats.AppendSafety
import HpcPerfStats.ListQueues
import HpcPerfStats.CallPool
import HpcPerfStats.DayCloseCoordinator
import HpcPerfStats.DayCloseRuns
import HpcPerfStats.DayCloseSafety
import HpcPerfStats.Interleaving
import HpcPerfStats.Orchestrator
import HpcPerfStats.UnorderedResults
import HpcPerfStats.MetricsRun
import HpcPerfStats.MetricsBatch
import HpcPerfStats.FindRecords
