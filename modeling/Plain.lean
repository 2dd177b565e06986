import Plain.Foundation.Machine
import Plain.Foundation.Queue
import Plain.Foundation.BoundedQueue
import Plain.Foundation.Circular
import Plain.Foundation.Bytes
import Plain.Foundation.Shift
import Plain.Foundation.Pool
import Plain.Foundation.Blocks
import Plain.Foundation.Decimal
import Plain.Foundation.Int32
import Plain.Foundation.Scan
import Plain.Foundation.Linked
import Plain.Foundation.Ordered
import Plain.Foundation.Arena
import Plain.Basic.Error
import Plain.Basic.Endian
import Plain.Basic.Explode
import Plain.Basic.Slashes
import Plain.Basic.Trim
import Plain.Basic.Hex
import Plain.Basic.Crc
import Plain.Basic.Escape
import Plain.Basic.Stringstream
import Plain.Basic.Password
import Plain.Basic.PasswordCodec
import Plain.Basic.NumberCrypt
import Plain.Ring.Basic
import Plain.Ring.Wellformed
import Plain.Ring.Refinement
import Plain.Ring.Growth
import Plain.Ring.Fixed
import Plain.Logger.Async
import Plain.Logger.Drain
import Plain.Logger.Roll
import Plain.Rpc.Unpacker
import Plain.Rpc.Integer
import Plain.Rpc.Unsigned
import Plain.Rpc.Signed
import Plain.Rpc.Codec
import Plain.Rpc.Composition
import Plain.Rpc.Reading
import Plain.Rpc.Shape
import Plain.Rpc.Overwrite
import Plain.Rpc.Spending
import Plain.Rpc.Truncation
import Plain.Rpc.Tracking
import Plain.Rpc.Sticky
import Plain.Rpc.Cursor
import Plain.Rpc.Dispatcher
import Plain.Net.Packet
import Plain.Net.Framing
import Plain.Net.Line
import Plain.Net.Fields
import Plain.Net.Transfer
import Plain.Net.Access
import Plain.Net.Address
import Plain.Connection.WorkFlag
import Plain.Connection.Command
import Plain.Connection.Chunking
import Plain.Connection.Request
import Plain.Connection.Response
import Plain.Connection.Output
import Plain.Connection.Input
import Plain.Connection.Traffic
import Plain.Connection.LineCall
import Plain.Connection.CallIndex
import Plain.Connection.Select
import Plain.Connection.Exchange
import Plain.Manager.Registry
import Plain.Manager.SetUp
import Plain.Manager.Balancer
import Plain.Manager.Worker
import Plain.Manager.Names
import Plain.Sys.UnitPool
import Plain.Sys.MemoryPool
import Plain.Sys.MemoryBlocks
import Plain.Sys.MemoryRace
import Plain.File.Tab
import Plain.File.Lines
import Plain.File.Records
import Plain.File.Text
import Plain.File.Binary
import Plain.File.Lookup
import Plain.File.Reopen
import Plain.File.Ini
import Plain.File.IniLookup
import Plain.File.Library
import Plain.Concurrency.State
import Plain.Concurrency.Result
import Plain.Concurrency.Shared
import Plain.Concurrency.WhenAny
import Plain.Concurrency.WorkerThread
import Plain.Concurrency.PoolWorker
import Plain.Concurrency.ThreadPool
import Plain.Concurrency.ThreadExecutor
import Plain.Concurrency.ThreadReturns
import Plain.Engine.TimerQueue
import Plain.Engine.TimerRuns
import Plain.Engine.TimerEvents
import Plain.Engine.TimerStarvation
