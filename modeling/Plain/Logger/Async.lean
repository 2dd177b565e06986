import Plain.Foundation.Bytes
import Plain.Foundation.Machine
import Plain.Ring.Basic

/-! # The asynchronous logger

Callers append messages to a current buffer under a mutex. A worker thread takes the
filled buffers under the same mutex, writes them to the file and keeps two of them as
spares. The loop condition of the worker is read outside the mutex. Steps of the callers
and of the worker interleave arbitrarily.
-/

namespace Plain.Log

def kLargeBufferSize : Capacity := ⟨4096 * 1024, by decide⟩

abbrev Buffer := Ring Byte

def newBuffer (SIZE : Capacity) : Buffer := .make (.fixedRing SIZE)

/-- The bytes of `{buf->peek(), buf->read_avail()}`, consecutive cells from the tail on. -/
def text (buf : Buffer) : List Byte :=
  (buf.buffer.drop (buf.tail &&& buf.mask).toNat).take buf.readAvail.toNat

inductive Worker where
  | test
  | swap
  | write
  | ended
  deriving DecidableEq, Repr

/-- The members of the logger and the local variables of its worker. Null pointers are
`none`; `file` is all that was appended to the log file. -/
structure AsyncLogger where
  running : Bool
  currentBuffer : Option Buffer
  nextBuffer : Option Buffer
  buffers : List Buffer
  worker : Worker
  buffer1 : Option Buffer
  buffer2 : Option Buffer
  writeBuffers : List Buffer
  file : List Byte
  deriving DecidableEq, Repr

def start (SIZE : Capacity) : AsyncLogger :=
  ⟨true, some (newBuffer SIZE), some (newBuffer SIZE), [], .test, some (newBuffer SIZE),
    some (newBuffer SIZE), [], []⟩

namespace AsyncLogger

variable (SIZE : Capacity)

def append (s : AsyncLogger) (log : List Byte) : AsyncLogger :=
  match s.currentBuffer with
  | some current =>
      if current.writeAvail > BitVec.ofNat 64 log.length then
        { s with currentBuffer := some (current.write (.fixedRing SIZE) log false).2 }
      else
        let current' := s.nextBuffer.getD (newBuffer SIZE)
        { s with
          buffers := s.buffers ++ [current]
          nextBuffer := none
          currentBuffer := some (current'.write (.fixedRing SIZE) log false).2 }
  | none => s

def stop (s : AsyncLogger) : AsyncLogger := { s with running := false }

/-- The block of the loop under the mutex. A wait for appended messages comes first and
releases the mutex. -/
def swap (s : AsyncLogger) : AsyncLogger :=
  { s with
    worker := .write
    writeBuffers := s.buffers ++ s.currentBuffer.toList
    buffers := s.writeBuffers
    currentBuffer := s.buffer1
    buffer1 := none
    nextBuffer := s.nextBuffer.or s.buffer2
    buffer2 := if s.nextBuffer = none then none else s.buffer2 }

/-- The text for buffers that are dropped, with the time it is written at. -/
def dropped (now : List Byte) (count : ℕ) : List Byte :=
  let chars (s : String) : List Byte := s.toList.map fun c => BitVec.ofNat 8 c.toNat
  chars "Dropped log messages at " ++ now ++ chars ", " ++ chars (toString count) ++
    chars " larger buffers\n"

/-- A spare that is null is taken from the back of the written buffers. -/
def recycle (spare : Option Buffer) (writeBuffers : List Buffer) :
    Option Buffer × List Buffer :=
  match spare with
  | some buf => (some buf, writeBuffers)
  | none => (writeBuffers.getLast?.map Ring.producerClear, writeBuffers.dropLast)

/-- The loop behind the mutex: drop, write and keep buffers. -/
def write (s : AsyncLogger) (now : List Byte) : AsyncLogger :=
  let (file, writeBuffers) :=
    if s.writeBuffers.length > 25 then
      (s.file ++ dropped now (s.writeBuffers.length - 2), s.writeBuffers.take 2)
    else (s.file, s.writeBuffers)
  let file := file ++ writeBuffers.flatMap text
  let (buffer1, writeBuffers) := recycle s.buffer1 (writeBuffers.take 2)
  let (buffer2, _) := recycle s.buffer2 writeBuffers
  { s with
    worker := .test, file := file, buffer1 := buffer1, buffer2 := buffer2, writeBuffers := [] }

def work (s : AsyncLogger) (now : List Byte) : AsyncLogger :=
  match s.worker with
  | .test => { s with worker := if s.running then .swap else .ended }
  | .swap => s.swap
  | .write => s.write now
  | .ended => s

end AsyncLogger

/-- The atomic steps. A message has a `std::size_t` as its size. -/
inductive LoggerOp where
  | append (log : List Byte) (sized : log.length < 2 ^ 64)
  | stop
  | work (now : List Byte)

/-- A logger with its past: the messages appended to it, how many of them the worker has
taken, and how many had been appended when it was stopped. -/
structure History where
  logger : AsyncLogger
  log : List (List Byte)
  taken : ℕ
  stopped : Option ℕ
  deriving DecidableEq, Repr

def History.start (SIZE : Capacity) : History := ⟨Log.start SIZE, [], 0, none⟩

def loggerStep (SIZE : Capacity) (h : History) : LoggerOp → History
  | .append log _ => { h with logger := h.logger.append SIZE log, log := h.log ++ [log] }
  | .stop =>
      { h with logger := h.logger.stop, stopped := h.stopped.or (some h.log.length) }
  | .work now =>
      { h with
        logger := h.logger.work now
        taken := if h.logger.worker = .swap then h.log.length else h.taken }

/-- A logger under any interleaving of its callers and its worker. -/
def logger (SIZE : Capacity) : Machine History LoggerOp Unit :=
  ⟨fun h op => (loggerStep SIZE h op, ())⟩

end Plain.Log
