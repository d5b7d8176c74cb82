import Rag3db.Transaction.GroupedProtocol
import Rag3db.Transaction.JournalOrder
import Rag3db.Transaction.RefusedWork
import Rag3db.Storage.BlockContiguity
import Rag3db.Storage.FailedCommit
import Rag3db.Storage.UnseenCommits
import Rag3db.Storage.Generations
import Rag3db.Weaver.FilterExactness
import Rag3db.Weaver.StreamDeadlock
import Rag3db.Weaver.StreamBinding
import Rag3db.Storage.RefusedCheckpoint
import Rag3db.Storage.FileWriter
import Rag3db.Storage.Reopening
import Rag3db.Storage.UndoBuffer
import Rag3db.Catalog.Sequence
import Rag3db.Catalog.FailedStatements
import Rag3db.Catalog.CatalogOids
import Rag3db.Weaver.NodePolicy
import Rag3db.Weaver.ElementTaint
import Rag3db.Weaver.ExecutorAgreement
import Rag3db.Weaver.Resume
import Rag3db.Weaver.WorkerChannels
import Rag3db.Weaver.CellNames
import Rag3db.Weaver.MigrationRecords
import Rag3db.Weaver.MigrationLock
import Rag3db.Weaver.BlobBufferRuns
import Rag3db.Weaver.BackgroundRuns
import Rag3db.Weaver.SpawnedRunEnds
import Rag3db.Weaver.QueuedWrites
import Rag3db.Weaver.IngestBatch
import Rag3db.Weaver.FileWatch
import Rag3db.Weaver.TableClosures
