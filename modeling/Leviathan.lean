import Leviathan.Runs
import Leviathan.CircularScan
import Leviathan.CTypes
import Leviathan.Fifo
import Leviathan.SList
import Leviathan.Queue
import Leviathan.QueueFifo
import Leviathan.SizeClass
import Leviathan.BufPool
import Leviathan.MemManager
import Leviathan.MemManagerPairing
import Leviathan.Ownership
import Leviathan.MemPool
import Leviathan.MemPoolRelease
import Leviathan.MemPoolThreads
import Leviathan.MemList
import Leviathan.MemListThreads
import Leviathan.MemListSafety
import Leviathan.Wire
import Leviathan.RecvLength
import Leviathan.RecvFraming
import Leviathan.RecvSegmentation
import Leviathan.FileLines
import Leviathan.FileLinesRead
import Leviathan.Simulation
import Leviathan.Hash
import Leviathan.DualKeyHash
import Leviathan.DualKeyRefine
import Leviathan.DualKeyMap
import Leviathan.DualKeyDelete
import Leviathan.SessionPool
import Leviathan.Communicator
import Leviathan.CommunicatorClose
import Leviathan.CommunicatorAccept
import Leviathan.SendData
import Leviathan.Broadcast
import Leviathan.EventThread
import Leviathan.TList
import Leviathan.LoggerCommands
import Leviathan.LoggerConverge
import Leviathan.CStrings
import Leviathan.RecvString
import Leviathan.RecvStringCut
import Leviathan.DateTimeHeader
import Leviathan.DateTimeRead
import Leviathan.Cells
import Leviathan.RedBlack
import Leviathan.RBTree
import Leviathan.RBTreeHeap
import Leviathan.RBTreeInsert
import Leviathan.RBTreeDelete
import Leviathan.RBTreeVerify
import Leviathan.SortedKeys
import Leviathan.RBTreeSearch
import Leviathan.RBTreeMap
import Leviathan.RBTreeErase
import Leviathan.RBTreeRuns
import Leviathan.SortEx
import Leviathan.FileList
import Leviathan.FileOrder
import Leviathan.StringSearch
import Leviathan.MemListCalls
import Leviathan.ConnectList
import Leviathan.Scheduler
import Leviathan.TimerPool
import Leviathan.Buffers
import Leviathan.LogMessage
import Leviathan.LogMessageSafe
import Leviathan.LogPacketSafe
import Leviathan.StringHash
import Leviathan.ProfileUtil
import Leviathan.IniLines
import Leviathan.ConfigValues
import Leviathan.ConfigParse
import Leviathan.ConfigRoundTrip
import Leviathan.ProfileStore
import Leviathan.Slots
import Leviathan.MemListBag
import Leviathan.MemListDel
import Leviathan.MemListSetup
import Leviathan.TListAdd
import Leviathan.PushBack
import Leviathan.BufPoolRuns
import Leviathan.BufPoolList
import Leviathan.PoolSlot
import Leviathan.PoolSlotRuns
import Leviathan.CSBufPool
import Leviathan.HashUnique
import Leviathan.RecvHostile
import Leviathan.MString
import Leviathan.MStringPush
import Leviathan.SizeTables
import Leviathan.FileFilter
import Leviathan.FileTime
import Leviathan.ResetFold
import Leviathan.LogTime
import Leviathan.TimeInterval
import Leviathan.IntValue
import Leviathan.FloatRound
import Leviathan.IntervalStats
import Leviathan.Average
import Leviathan.BetweenLines
import Leviathan.IntervalBounds
import Leviathan.BetweenConfig
import Leviathan.Sequence
import Leviathan.StringList
import Leviathan.Tally
import Leviathan.RunningBounds
import Leviathan.KeyValue
import Leviathan.Deviation
import Leviathan.TimeSlots
import Leviathan.LineBuffer
import Leviathan.LineRecords
import Leviathan.FieldList
import Leviathan.FieldRecord
import Leviathan.ChunkedRead
import Leviathan.DelDirectory
import Leviathan.Ring
import Leviathan.RingQueue
import Leviathan.DenseList
import Leviathan.Filled
import Leviathan.RedisList
import Leviathan.RedisContents
import Leviathan.Timespec
import Leviathan.KeepInfo
import Leviathan.SizeString
import Leviathan.FullPath
import Leviathan.ProfileEx
import Leviathan.DynBuf
import Leviathan.Volume
import Leviathan.LogRotation
import Leviathan.LogKept
import Leviathan.LogNames
import Leviathan.LogRetention
import Leviathan.LogDefined
import Leviathan.QueueOrder
import Leviathan.LogDelivery
import Leviathan.EventRecords
import Leviathan.Relay
import Leviathan.ExtractNToFile
import Leviathan.LogAnalysis
import Leviathan.BufPoolThreads
import Leviathan.MemManagerThreads
import Leviathan.MemManagerSafe
