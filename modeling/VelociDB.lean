import VelociDB.Lib.Bytes
import VelociDB.Lib.Blocks
import VelociDB.Lib.Disk
import VelociDB.Lib.Multimap
import VelociDB.Lib.Prog
import VelociDB.Lib.Sorting
import VelociDB.Lib.Transition
import VelociDB.Types
import VelociDB.Lock
import VelociDB.Session
import VelociDB.Disk
import VelociDB.Wal
import VelociDB.WalCodec
import VelociDB.Pager
import VelociDB.PagerLogic
import VelociDB.PagerSys
import VelociDB.Recovery
import VelociDB.PagerInv
import VelociDB.PagerOps
import VelociDB.Reopen
import VelociDB.CrashInv
import VelociDB.Durability
import VelociDB.Query
import VelociDB.Executor
import VelociDB.Select
import VelociDB.ExecutorLogic
import VelociDB.Columns
import VelociDB.TableInv
import VelociDB.PrimaryKey
import VelociDB.FastPath
import VelociDB.Constraints
import VelociDB.ValueOrder
import VelociDB.Unique
import VelociDB.Cdc
import VelociDB.CdcLog
import VelociDB.Mvcc
import VelociDB.MvccReads
import VelociDB.MvccVacuum
import VelociDB.MvccStable
import VelociDB.Crdt
import VelociDB.CrdtClock
import VelociDB.CrdtSync
import VelociDB.CrdtConverge
import VelociDB.AsyncCache
import VelociDB.Lib.Fuel
import VelociDB.Lib.SearchTree
import VelociDB.BTree
import VelociDB.BTreeShape
import VelociDB.BTreeLink
import VelociDB.BTreeLeaf
import VelociDB.BTreeInsert
import VelociDB.BTreePair
import VelociDB.BTreeUnderflow
import VelociDB.BTreeDelete
import VelociDB.Slices
import VelociDB.Lib.Frames
import VelociDB.WalPrefix
import VelociDB.WalScan
import VelociDB.PagerCache
import VelociDB.RowCodec
import VelociDB.BTreeRuns
import VelociDB.BTreePages
import VelociDB.QuerySteps
import VelociDB.InsertRow
import VelociDB.AlterRace
import VelociDB.ReloadRace
import VelociDB.WriterRace
import VelociDB.SchemaCodec
import VelociDB.Database
import VelociDB.PageStore
import VelociDB.SchemaScan
import VelociDB.SchemaInv
import VelociDB.SchemaRuns
import VelociDB.SchemaLoad
import VelociDB.StatementUndo
import VelociDB.Lib.Regex
import VelociDB.ValuePreorder
import VelociDB.Knn
import VelociDB.WhereErrors
import VelociDB.UpdateFrame
import VelociDB.LikeMatch
import VelociDB.Lib.Text
import VelociDB.Literals
import VelociDB.LetterCase
import VelociDB.LiteralFaults
import VelociDB.Parser
import VelociDB.ParserRegex
import VelociDB.ParserFaults
import VelociDB.OrderScan
import VelociDB.ParserPanics
import VelociDB.AndSplit
import VelociDB.ParserExec
import VelociDB.DeleteScope
import VelociDB.LiteralText
import VelociDB.Printer
import VelociDB.WhereRound
import VelociDB.LockGrants
import VelociDB.Lib.StepBy
import VelociDB.Simd
import VelociDB.KeySearch
import VelociDB.LockFreeCache
import VelociDB.HybridTable
import VelociDB.CountStar
import VelociDB.TreeFile
import VelociDB.TreeSim
import VelociDB.RowWidth
import VelociDB.TreeRuns
import VelociDB.Repl
import VelociDB.DescribeText
import VelociDB.Describe
import VelociDB.BTreeOccupancy
import VelociDB.ValuesRound
import VelociDB.CrdtJoin
import VelociDB.Lib.Edits
import VelociDB.Lib.Follow
import VelociDB.Lib.Listing
import VelociDB.BTreeBytes
import VelociDB.BTreeLayout
import VelociDB.BTreeFollow
import VelociDB.BTreeFollowDelete
import VelociDB.BTreeLocal
import VelociDB.BTreeFrame
import VelociDB.BTreeScan
import VelociDB.BTreeFile
import VelociDB.TransactionUndo
import VelociDB.SqlPages
import VelociDB.CdcConsumer
import VelociDB.PmemLog
import VelociDB.VectorBatch
import VelociDB.Lib.RegexExact
import VelociDB.StatementText
import VelociDB.StatementRound
import VelociDB.SelectRound
