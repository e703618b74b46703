import Xtr.Machine
import Xtr.Amortized
import Xtr.Arrangement
import Xtr.CircularMemory
import Xtr.Align
import Xtr.RingBuffer
import Xtr.RingFifo
import Xtr.Record
import Xtr.CString
import Xtr.Post
import Xtr.PostCorrect
import Xtr.PostDropped
import Xtr.PostExact
import Xtr.PostNonBlocking
import Xtr.RecordQueue
import Xtr.Sanitize
import Xtr.SparseFile
import Xtr.IoUring
import Xtr.IoUringBookkeeping
import Xtr.IoUringData
import Xtr.IoUringSync
import Xtr.IoUringReopen
import Xtr.IoUringRotation
import Xtr.IoUringFailures
import Xtr.OutputBuffer
import Xtr.Logger
import Xtr.Registry
import Xtr.Backlog
import Xtr.LoggerSteps
import Xtr.LoggerRegistry
import Xtr.LoggerPresence
import Xtr.LoggerOutput
import Xtr.LoggerFlush
import Xtr.LoggerSync
import Xtr.LoggerProgress
import Xtr.LoggerStorage
import Xtr.Control
import Xtr.ControlExclusion
import Xtr.SwapRemove
import Xtr.Buffer
import Xtr.FdStorage
import Xtr.Dispatcher
import Xtr.Handlers
import Xtr.DropCount
import Xtr.DropReports
import Xtr.RunOnce
import Xtr.PostSpace
import Xtr.Tsc
import Xtr.IoUringOrder
import Xtr.FailingBuffer
import Xtr.PosixStorage
import Xtr.DispatcherService
import Xtr.DispatcherAnswers
import Xtr.CommandPath
import Xtr.Requests
import Xtr.Wire
import Xtr.Frames
import Xtr.Xtrctl
import Xtr.Timespec
import Xtr.Interference
import Xtr.AddressSpace
import Xtr.MirroredMapping
