import Hulatang.Lib.Machine
import Hulatang.Lib.KeyedSet
import Hulatang.Io.TimerEventManager
import Hulatang.Io.TimerInvariants
import Hulatang.Io.TimerOrder
import Hulatang.Lib.ProducerQueue
import Hulatang.Io.CycleEventManager
import Hulatang.Io.CycleInvariants
import Hulatang.Io.TaskQueue
import Hulatang.Io.EventLoop
import Hulatang.Io.LostWakeup
import Hulatang.Io.EventLoopThread
import Hulatang.Io.ThreadStop
import Hulatang.Io.Reactor
import Hulatang.Io.Connector
import Hulatang.Io.ConnectorOutcome
import Hulatang.Io.TCPConnection
import Hulatang.Io.TearDown
import Hulatang.Io.Registration
import Hulatang.Lib.Segment
import Hulatang.Lib.PacketReader
import Hulatang.Lib.Pipe
import Hulatang.Base.Buffer
import Hulatang.Base.ByteQueue
import Hulatang.Base.Placement
import Hulatang.Base.FileDescriptor
import Hulatang.Io.InetAddress
import Hulatang.Io.SendStream
import Hulatang.Io.WSProactor
import Hulatang.Io.PostedStream
import Hulatang.Io.PostedRegion
import Hulatang.Lib.Lines
import Hulatang.Lib.Numeral
import Hulatang.Http.HttpResponse
import Hulatang.Http.ResponseLines
import Hulatang.Http.HostileBytes
import Hulatang.Http.Rendered
import Hulatang.Http.ContentLength
import Hulatang.Http.Chunked
import Hulatang.Http.HttpClient
import Hulatang.Http.ResponseStream
import Hulatang.Io.Ownership
import Hulatang.Io.Dispatch
import Hulatang.Io.TimerFiring
import Hulatang.Io.InvokeTimer
import Hulatang.Io.IOCPFdEventManager
import Hulatang.Lib.Occurrence
import Hulatang.Lib.Owners
import Hulatang.Http.URL
import Hulatang.Http.URLRoundTrip
import Hulatang.Http.URLGrammar
import Hulatang.Http.RequestGrammar
import Hulatang.Http.HttpRequest
import Hulatang.Io.UnixReactor
import Hulatang.Io.WriteInterest
import Hulatang.Io.OffLoopSend
import Hulatang.Lib.Heap
import Hulatang.Io.OverLists
import Hulatang.Io.OverDispatch
import Hulatang.Io.OverCompletion
import Hulatang.Io.TimerPass
import Hulatang.Io.Blocktime
import Hulatang.Io.OverFree
import Hulatang.Io.WSAcceptProactor
import Hulatang.Io.PostedRead
import Hulatang.Io.WSLink
import Hulatang.Base.Win32File
import Hulatang.Io.EPollFdEventManager
import Hulatang.Http.HeaderLine
import Hulatang.Base.BufferAppend
import Hulatang.Base.MovedFrom
import Hulatang.Lib.Fallible
import Hulatang.Lib.ByteOrder
import Hulatang.Base.IntCodec
import Hulatang.Io.Polling
import Hulatang.Io.Link
import Hulatang.Io.PingPong
import Hulatang.Io.EventLoopThreadPool
import Hulatang.Io.Acceptor
import Hulatang.Io.TCPServer
import Hulatang.Io.TCPClient
import Hulatang.Io.PollBatch
import Hulatang.Io.ServerTables
