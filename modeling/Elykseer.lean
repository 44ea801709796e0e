import Elykseer.Foundation.Striping
import Elykseer.Foundation.Overlay
import Elykseer.Foundation.Lru
import Elykseer.Foundation.NextFit
import Elykseer.Analysis.Finalise
import Elykseer.Analysis.Placement
import Elykseer.Analysis.KeysConsistent
import Elykseer.Analysis.AcceptedWrites
import Elykseer.Analysis.Deduplication
import Elykseer.Analysis.Incremental
import Elykseer.Analysis.RestoreFile
import Elykseer.Model.Restore
import Elykseer.Foundation.XmlParser
import Elykseer.Model.Tools
import Elykseer.Analysis.DocumentRoundTrip
import Elykseer.Analysis.Calls
import Elykseer.Analysis.ChunkStore
import Elykseer.Analysis.AuthenticatedEncryption
import Elykseer.Analysis.ReaderNchunks
import Elykseer.Analysis.SharedQueues
import Elykseer.Analysis.OutputDirectory
import Elykseer.Analysis.RecursiveBackup
import Elykseer.Analysis.BlockRecords
import Elykseer.Analysis.FailedDecryption
import Elykseer.Analysis.BufferBounds
import Elykseer.Analysis.RefusedDocuments
import Elykseer.Analysis.ReadFrame
import Elykseer.Analysis.Metrics
import Elykseer.Analysis.ChunkPaths
import Elykseer.Analysis.TamperEvidence
import Elykseer.Analysis.DamageDetection
import Elykseer.Analysis.MixedRuns
import Elykseer.Analysis.BackupRestore
import Elykseer.Analysis.BackupVerify
import Elykseer.Analysis.QueueOvershoot
import Elykseer.Analysis.IdleBackup
import Elykseer.Analysis.StorageBounds
import Elykseer.Analysis.TreeCopy
import Elykseer.Analysis.BackupPlans
import Elykseer.Analysis.LizTexts
