import Andren.Machine.Basic
import Andren.Machine.Channel
import Andren.Base.MutexQue
import Andren.Base.CircleQue
import Andren.Network.FreelockSmem
import Andren.Base.ThreadPool
import Andren.Network.TaskDistributor
import Andren.Machine.OrderedMap
import Andren.Network.RePoller
import Andren.Network.SockStream
import Andren.Network.SSLStream
import Andren.Network.IoService
import Andren.Network.Schedule
import Andren.Network.EventLoop
import Andren.Network.ServiceOrder
import Andren.Base.BinaryHeap
import Andren.Base.FourWayHeap
import Andren.Base.TimerManger
import Andren.Machine.Trace
import Andren.Network.Polling
import Andren.Network.DispatchSafety
import Andren.Network.PollingChain
import Andren.Network.ObjectStore
import Andren.Network.Listening
import Andren.Base.ShmMutex
import Andren.Machine.PriorityQueue
import Andren.Base.Socket
import Andren.Base.SharedMem
import Andren.Network.IoFile
import Andren.Network.UnreadMessage
import Andren.Network.StreamClose
import Andren.Network.Http2
import Andren.Base.Zlib
import Andren.Base.ZlibStream
import Andren.Base.TimerDeadlines
import Andren.Network.SmemRestart
import Andren.Base.TimerMove
import Andren.Base.CircleMove
import Andren.Base.MutexQueCircle
import Andren.Base.MutexQueConsumer
import Andren.Base.SSLContextCreator
import Andren.Base.AlpnWire
import Andren.Base.SSLSocketIo
import Andren.Network.SSLClose
import Andren.Base.ZlibDecompress
import Andren.Base.ZlibCompress
import Andren.Base.ZlibLifetime
import Andren.Base.ArchiveCopy
import Andren.Base.ArchiveDecompress
import Andren.Network.Http2Streams
import Andren.Machine.Fields
import Andren.Network.Http2Headers
import Andren.Machine.GrowVec
import Andren.Network.Http2Frames
import Andren.Machine.Carry
import Andren.Base.MySQLResult
import Andren.Base.MySQLCells
import Andren.Machine.Pieces
import Andren.Base.SysPipe
import Andren.Network.AFile
import Andren.Network.DataGram
import Andren.Network.UnixAddress
import Andren.Base.Thread
import Andren.Network.StartShutdown
import Andren.Network.ServiceDelete
import Andren.Network.IoGauges
import Andren.Network.IoServiceMove
import Andren.Network.IoFileRequest
import Andren.Network.Executor
import Andren.Network.ProcessEvents
import Andren.Base.UFile
import Andren.Machine.DirTree
import Andren.Base.Directories
import Andren.Machine.Splitting
import Andren.Base.StringTools
import Andren.Base.TimeText
import Andren.Base.PosixSignal
import Andren.Base.PgNotice
import Andren.Base.PoolNotify
import Andren.Network.FurtureTask
import Andren.Machine.Decimal
import Andren.Machine.Cells
import Andren.Base.EndPoint
import Andren.Base.MinHeap
import Andren.Machine.Owners
import Andren.Base.OwningHandles
import Andren.Base.ArchiveRoundTrip
import Andren.Network.Acceptor
import Andren.Network.Connection
import Andren.Network.Strand
import Andren.Network.FileSession
import Andren.Machine.Names
import Andren.Base.NamedSignal
import Andren.Base.PipeWriters
import Andren.Base.AlpnHandshake
import Andren.Machine.Progress
import Andren.Network.WorkerProgress
import Andren.Machine.Overlay
import Andren.Network.IoFileData
import Andren.Network.IoFileContents
import Andren.Network.ServiceSteps
