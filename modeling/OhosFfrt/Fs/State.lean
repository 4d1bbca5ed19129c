import OhosFfrt.Lib.Files
import Mathlib.Algebra.Group.Int.Defs

/-!
# `fs::File`: the file and one turn of each of its loops

A `File` works on a file of the operating system through blocking operations that run elsewhere,
one at a time.  A call polls the operation that is under way, possibly one that an earlier,
abandoned call started, and starts its own when there is none.  The polling functions are loops,
each given by one turn (`Turn`), so that an operation can be executed between any two turns.
-/

namespace OhosFfrt.Fs.State

open Lib.Files

/-- `io::Error`. -/
inductive IoError
  | other (message : String)
  | invalidInput (message : String)
  | os
  deriving DecidableEq, Repr

/-- `io::Result`. -/
abbrev Result (α : Type) := Except IoError α

/-- `JoinHandle` of a blocking operation. -/
inductive Handle (α : Type)
  | queued
  | ran (result : Result α)
  | finished (result : Result α)
  deriving Repr

/-- `FileOperation`, with what the closure captures. -/
inductive FileOperation
  | read (capacity : ℕ) (handle : Handle (List Byte))
  | write (unread : ℕ) (bytes : List Byte) (handle : Handle ℕ)
  | seek (position : SeekFrom) (handle : Handle ℕ)
  deriving Repr

/-- `CompletedOperation`.  A read has the bytes that were read. -/
inductive CompletedOperation
  | read (result : Result (List Byte))
  | write (result : Result ℕ)
  | seek (result : Result ℕ)
  deriving Repr

/-- `File`, but for the file of the operating system. -/
structure File where
  operation : Option FileOperation
  pendingSeek : Option SeekFrom
  maxBufSize : ℕ
  bufferedRead : List Byte
  deriving Repr

inductive Ev
  | read (n : ℕ) (bytes : List Byte)
  | wrote (bytes : List Byte)
  | flushed
  /-- A blocking seek is started. -/
  | seeking (position : SeekFrom)
  /-- `poll_complete` is ready. -/
  | sought (position : ℕ)
  | pending
  | failed (error : IoError)
  | readOwned (len : ℕ) (bytes : List Byte)
  | readToEndOwned (bytes : List Byte)
  | wroteOwned (bytes : List Byte)
  deriving DecidableEq, Repr

/-- `File::from_inner`. -/
def File.fromInner : File where
  operation := none
  pendingSeek := none
  maxBufSize := 2 * 1024 * 1024
  bufferedRead := []

/-- `File::set_max_buf_size`. -/
def File.setMaxBufSize (f : File) (maxBufSize : ℕ) : File :=
  { f with maxBufSize := max maxBufSize 1 }

/-! ## The operation under way -/

/-- What the handle of an operation shows. -/
def FileOperation.poll : FileOperation → Option CompletedOperation
  | .read _ (.finished r) => some (.read r)
  | .write _ _ (.finished r) => some (.write r)
  | .seek _ (.finished r) => some (.seek r)
  | _ => none

/-- `poll_operation`; `none` is `Pending`. -/
def File.pollOperation (f : File) : Option (Option CompletedOperation × File) :=
  match f.operation with
  | none => some (none, f)
  | some operation => operation.poll.map fun c => (some c, { f with operation := none })

/-- `File::finish_operation`. -/
def File.finishOperation (f : File) : CompletedOperation → Result File
  | .read (.ok bytes) => .ok { f with bufferedRead := f.bufferedRead ++ bytes }
  | .write (.ok _) | .seek (.ok _) => .ok f
  | .read (.error e) | .write (.error e) | .seek (.error e) => .error e

/-- `wait_for_operation` is over. -/
def File.waited (f : File) : Bool := f.operation.all fun operation => operation.poll.isSome

/-! ## Turns of the loops -/

/-- What a turn comes to, and whether the call returns with it. -/
structure Turn where
  file : File
  events : List Ev
  returned : Bool

/-- The loop goes on. -/
def Turn.again (f : File) (es : List Ev) : Turn := ⟨f, es, false⟩

/-- The poll returns. -/
def Turn.returns (f : File) (es : List Ev) : Turn := ⟨f, es, true⟩

/-- A turn of a loop: `idle` if there is no operation; otherwise it is polled and finished, after
which the call may return. -/
def File.turn (f : File) (idle : Turn) (ret : CompletedOperation → Option Ev) : Turn :=
  match f.pollOperation with
  | none => .returns f [.pending]
  | some (none, _) => idle
  | some (some c, f') =>
    match f'.finishOperation c with
    | .error e => .returns f' [.failed e]
    | .ok f'' =>
      match ret c with
      | some x => .returns f'' [x]
      | none => .again f'' []

/-- A read that has come to the end of the file ends a `poll_read` for `n` bytes. -/
def eof (n : ℕ) : CompletedOperation → Option Ev
  | .read (.ok []) => some (.read n [])
  | _ => none

/-- `poll_read` into a buffer with room for `n` bytes. -/
def File.pollRead (f : File) (n : ℕ) : Turn :=
  if n = 0 then .returns f [.read 0 []]
  else if f.bufferedRead ≠ [] then
    let amount := min n f.bufferedRead.length
    .returns { f with bufferedRead := f.bufferedRead.drop amount }
      [.read n (f.bufferedRead.take amount)]
  else
    f.turn (.again { f with operation := some (.read (min n f.maxBufSize) .queued) } []) (eof n)

/-- `File::poll_write`. -/
def File.pollWrite (f : File) (buf : List Byte) : Turn :=
  f.turn
    (if buf = [] then .returns f [.wrote []]
     else
       let bytes := buf.take (min buf.length f.maxBufSize)
       let operation := FileOperation.write f.bufferedRead.length bytes .queued
       .returns { f with bufferedRead := [], operation := some operation } [.wrote bytes])
    fun _ => none

/-- `poll_flush`, and `poll_shutdown`. -/
def File.pollFlush (f : File) : Turn := f.turn (.returns f [.flushed]) fun _ => none

/-- `File::start_seek`. -/
def File.startSeek (f : File) (position : SeekFrom) : Result File :=
  match f.pendingSeek, f.operation with
  | some _, _ | _, some (.seek _ _) => .error (.other "another file seek is already in progress")
  | _, _ => .ok { f with pendingSeek := some position }

/-- `i64::checked_sub` of a length. -/
def checkedSub (d : Int) (len : ℕ) : Option Int :=
  if -2 ^ 63 ≤ d - len ∧ d - len < 2 ^ 63 then some (d - len) else none

/-- The position for the operating system, which is ahead by the buffered bytes. -/
def compensate (position : SeekFrom) (buffered : ℕ) : Option SeekFrom :=
  match position with
  | .current offset => (checkedSub offset buffered).map .current
  | position => some position

/-- A seek ends a `poll_complete`. -/
def soughtBy : CompletedOperation → Option Ev
  | .seek (.ok p) => some (.sought p)
  | _ => none

/-- `File::poll_complete`. -/
def File.pollComplete (f : File) : Turn :=
  let position := f.pendingSeek.getD (.current 0)
  let f' := { f with pendingSeek := none }
  f.turn
    (match compensate position f.bufferedRead.length with
     | none => .returns f' [.failed (.invalidInput "seek offset overflow")]
     | some p =>
       .again { f' with bufferedRead := [], operation := some (.seek p .queued) }
         [.seeking position])
    soughtBy

end OhosFfrt.Fs.State
