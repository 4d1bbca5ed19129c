import OhosFfrt.Io.Traits
import OhosFfrt.Lib.Runs

/-!
# `io::duplex` and `io::simplex`: the pipes and the steps of a run

A pair of streams is two pipes, each under a mutex of its own.  A call is one section under the
mutex of one pipe; dropping an end is two, first the writer of its outgoing pipe and then the reader
of its incoming one, and the other end may go on in between.
-/

namespace OhosFfrt.Io.Duplex

open Basic Lib.Files Io.Traits

/-! ## A pipe -/

structure MemoryPipe where
  buffer : List Byte
  capacity : ℕ
  writerClosed : Bool
  readerClosed : Bool
  readerWaker : Option Waker
  writerWaker : Option Waker
  deriving DecidableEq, Repr

/-- `io::Error`, of the kind `BrokenPipe`. -/
structure BrokenPipe where
  message : String
  deriving DecidableEq, Repr

/-- `MemoryPipe::new`. -/
def MemoryPipe.new (capacity : ℕ) : MemoryPipe where
  buffer := []
  capacity := capacity
  writerClosed := false
  readerClosed := false
  readerWaker := none
  writerWaker := none

/-- `MemoryPipe::register`. -/
def register (slot : Option Waker) (waker : Waker) : Option Waker :=
  if slot.all fun registered => registered ≠ waker then some waker else slot

/-- The section of `poll_read`, with room for `n` bytes, and the waker that it wakes. -/
def MemoryPipe.pollRead (pipe : MemoryPipe) (cx : Waker) (n : ℕ) :
    Poll (List Byte) × MemoryPipe × Option Waker :=
  if pipe.buffer ≠ [] then
    let amount := min pipe.buffer.length n
    (.ready (pipe.buffer.take amount),
      { pipe with buffer := pipe.buffer.drop amount, writerWaker := none }, pipe.writerWaker)
  else if pipe.writerClosed then (.ready [], pipe, none)
  else (.pending, { pipe with readerWaker := register pipe.readerWaker cx }, none)

/-- The section of `poll_write`.  The buffer is never longer than the capacity, so that the room in
it is a difference of natural numbers. -/
def MemoryPipe.pollWrite (pipe : MemoryPipe) (cx : Waker) (buf : List Byte) :
    Poll (Except BrokenPipe ℕ) × MemoryPipe × Option Waker :=
  if pipe.readerClosed then (.ready (.error ⟨"duplex peer dropped its reader"⟩), pipe, none)
  else
    let available := pipe.capacity - pipe.buffer.length
    if available = 0 then
      (.pending, { pipe with writerWaker := register pipe.writerWaker cx }, none)
    else
      let amount := min available buf.length
      (.ready (.ok amount),
        { pipe with buffer := pipe.buffer ++ buf.take amount, readerWaker := none },
        pipe.readerWaker)

/-- The section of `poll_shutdown`, and the first one of `drop`. -/
def MemoryPipe.closeWriter (pipe : MemoryPipe) : MemoryPipe × Option Waker :=
  ({ pipe with writerClosed := true, readerWaker := none }, pipe.readerWaker)

/-- The second section of `drop`. -/
def MemoryPipe.closeReader (pipe : MemoryPipe) : MemoryPipe × Option Waker :=
  ({ pipe with readerClosed := true, writerWaker := none }, pipe.writerWaker)

/-! ## A pair of streams -/

/-- The two ends. -/
inductive Side
  | left
  | right
  deriving DecidableEq, Repr

/-- The other end. -/
def Side.peer : Side → Side
  | .left => .right
  | .right => .left

/-- Where an end is: in use, between the two sections of its `drop`, or gone. -/
inductive End
  | live
  | closing
  | dropped
  deriving DecidableEq, Repr

/-- Two connected streams: the pipe that each end writes to, and the ends. -/
structure Sys where
  outgoing : Side → MemoryPipe
  ends : Side → End

/-- `duplex`; `none` is the failed assertion. -/
def duplex (maxBufSize : ℕ) : Option Sys :=
  if 0 < maxBufSize then some ⟨fun _ => .new maxBufSize, fun _ => .live⟩ else none

/-- The pipe that `d` reads. -/
def Sys.incoming (s : Sys) (d : Side) : MemoryPipe := s.outgoing d.peer

inductive Op
  | read (d : Side) (cx : Waker) (n : ℕ)
  | write (d : Side) (cx : Waker) (buf : List Byte)
  | flush (d : Side)
  | shutdown (d : Side)
  /-- `drop`, as far as the outgoing pipe. -/
  | drop (d : Side)
  | dropRest (d : Side)
  deriving DecidableEq, Repr

inductive Ev
  | read (d : Side) (n : ℕ) (bytes : List Byte)
  | readPending (d : Side) (w : Waker)
  | wrote (d : Side) (bytes : List Byte)
  | writePending (d : Side) (w : Waker)
  | refused (d : Side) (error : BrokenPipe)
  | flushed (d : Side)
  | shutdown (d : Side)
  | writerDropped (d : Side)
  | readerDropped (d : Side)
  | woke (w : Waker)
  deriving DecidableEq, Repr

/-- The event of a wake-up, if any. -/
def wake (w : Option Waker) : List Ev := w.toList.map .woke

/-- What a read returns. -/
def reportRead (d : Side) (cx : Waker) (n : ℕ) : Poll (List Byte) → Ev
  | .ready bytes => .read d n bytes
  | .pending => .readPending d cx

/-- What a write returns. -/
def reportWrite (d : Side) (cx : Waker) (buf : List Byte) : Poll (Except BrokenPipe ℕ) → Ev
  | .ready (.ok amount) => .wrote d (buf.take amount)
  | .ready (.error e) => .refused d e
  | .pending => .writePending d cx

/-- The pipe of `d` has changed. -/
def Sys.put (s : Sys) (d : Side) (pipe : MemoryPipe) : Sys :=
  { s with outgoing := Function.update s.outgoing d pipe }

def step (s : Sys) : Op → Option (Sys × List Ev)
  | .read d cx n =>
    if s.ends d = .live then
      let (r, pipe, w) := (s.incoming d).pollRead cx n
      some (s.put d.peer pipe, wake w ++ [reportRead d cx n r])
    else none
  | .write d cx buf =>
    if s.ends d = .live then
      let (r, pipe, w) := (s.outgoing d).pollWrite cx buf
      some (s.put d pipe, wake w ++ [reportWrite d cx buf r])
    else none
  | .flush d => if s.ends d = .live then some (s, [.flushed d]) else none
  | .shutdown d =>
    if s.ends d = .live then
      let (pipe, w) := (s.outgoing d).closeWriter
      some (s.put d pipe, wake w ++ [.shutdown d])
    else none
  | .drop d =>
    if s.ends d = .live then
      let (pipe, w) := (s.outgoing d).closeWriter
      some ({ s.put d pipe with ends := Function.update s.ends d .closing },
        wake w ++ [.writerDropped d])
    else none
  | .dropRest d =>
    if s.ends d = .closing then
      let (pipe, w) := (s.incoming d).closeReader
      some ({ s.put d.peer pipe with ends := Function.update s.ends d .dropped },
        wake w ++ [.readerDropped d])
    else none

/-! ## One way -/

/-- `simplex`: the reading half of the right end and the writing half of the left one; the other
halves are gone at once. -/
def simplex (maxBufSize : ℕ) : Option Sys := duplex maxBufSize

/-- The operations of the two halves.  With its last half an end is dropped. -/
inductive HalfOp
  | read (cx : Waker) (n : ℕ)
  | dropReader
  | dropReaderRest
  | write (cx : Waker) (buf : List Byte)
  | flush
  | shutdown
  | dropWriter
  | dropWriterRest
  deriving DecidableEq, Repr

/-- Its operation on the pair. -/
def HalfOp.whole : HalfOp → Op
  | .read cx n => .read .right cx n
  | .dropReader => .drop .right
  | .dropReaderRest => .dropRest .right
  | .write cx buf => .write .left cx buf
  | .flush => .flush .left
  | .shutdown => .shutdown .left
  | .dropWriter => .drop .left
  | .dropWriterRest => .dropRest .left

/-- One operation of the halves. -/
def halfStep (s : Sys) (op : HalfOp) : Option (Sys × List Ev) := step s op.whole

end OhosFfrt.Io.Duplex
