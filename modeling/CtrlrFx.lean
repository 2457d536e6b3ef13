import CtrlrFx.Data.BufCodec
import CtrlrFx.Data.CircQueue
import CtrlrFx.Data.Decoding
import CtrlrFx.Data.ArrayTrip
import CtrlrFx.Data.RawBuffer
import CtrlrFx.Data.BufferQueue
import CtrlrFx.Data.CircBytes
import CtrlrFx.Data.CircRoom
import CtrlrFx.Data.KeySlots
import CtrlrFx.Data.Stack
import CtrlrFx.Host.DigIO
import CtrlrFx.Idl.Agreement
import CtrlrFx.Idl.Constants
import CtrlrFx.Idl.Recovery
import CtrlrFx.Idl.Remote
import CtrlrFx.Io.BestEffort
import CtrlrFx.Io.Blocks
import CtrlrFx.Io.DeclaredOrder
import CtrlrFx.Io.InDevHandle
import CtrlrFx.Io.OutDevHandle
import CtrlrFx.Io.PutBack
import CtrlrFx.Io.Seek
import CtrlrFx.Io.SocketOwner
import CtrlrFx.Io.Transports
import CtrlrFx.Io.BufferTrip
import CtrlrFx.Os.AcqBufQueue
import CtrlrFx.Os.ConditionData
import CtrlrFx.Os.OSEvent
import CtrlrFx.Os.Pipeline
import CtrlrFx.Os.PoolSize
import CtrlrFx.Os.PosixCondVar
import CtrlrFx.Os.RdWrLock
import CtrlrFx.Os.RecursiveCalls
import CtrlrFx.Os.RecursiveMutex
import CtrlrFx.Os.SeqLock
import CtrlrFx.Os.SlotCalls
import CtrlrFx.Os.ThreadTimer
import CtrlrFx.Os.Milliseconds
import CtrlrFx.Os.PosixTime
import CtrlrFx.Os.QueueStatus
import CtrlrFx.Os.TickTime
import CtrlrFx.Os.Win32CondVar
import CtrlrFx.DistObj.Failing
import CtrlrFx.DistObj.Integrity
import CtrlrFx.DistObj.Output
import CtrlrFx.DistObj.Scan
import CtrlrFx.DistObj.Replies
import CtrlrFx.DistObj.Transparency
import CtrlrFx.Os.AcqRun
import CtrlrFx.Host.NetEncoder
import CtrlrFx.Os.EvtTest
import CtrlrFx.Io.MtEchoServer
