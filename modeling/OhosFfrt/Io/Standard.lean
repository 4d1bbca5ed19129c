import OhosFfrt.Fs.State

/-!
# `io::Stdout`, `io::Stderr` and `io::Stdin`: the polling functions and the steps of a run

A call on a standard stream starts a blocking operation when there is none under way, and polls
the operation; it works on a copy of what the call that started it was given.  A call that has
returned `Pending` need not be made again, and another call may find its operation.  How many bytes
an operation writes or reads, or its error, is an input.
-/

namespace OhosFfrt.Io.Standard

open Lib.Files Fs.State

/-! ## Standard output and standard error -/

/-- `StandardWriteOperation`, with what the closure captures. -/
inductive StandardWriteOperation
  | write (stderr : Bool) (bytes : List Byte) (handle : Handle ℕ)
  | flush (stderr : Bool) (handle : Handle Unit)
  deriving Repr

inductive Ev
  | wrote (buf : List Byte) (n : ℕ)
  | flushed
  | pending
  | failed (error : IoError)
  /-- The standard library has written the bytes to a stream. -/
  | output (stderr : Bool) (bytes : List Byte)
  deriving DecidableEq, Repr

/-- What the handle of an operation shows, as an event; `none` is `Pending`. -/
def settle {α : Type} (done : α → Ev) : Handle α → Option Ev
  | .finished (.ok a) => some (done a)
  | .finished (.error e) => some (.failed e)
  | _ => none

/-- `poll_standard_write` or `poll_standard_flush`, with its arguments. -/
inductive Call
  | write (bytes : List Byte)
  | flush
  deriving DecidableEq, Repr

/-- What `poll_standard_write` and `poll_standard_flush` begin with: the operation under way, or
one that they start. -/
def Call.start (operation : Option StandardWriteOperation) (stderr : Bool) :
    Call → StandardWriteOperation
  | .write bytes => operation.getD (.write stderr bytes .queued)
  | .flush => operation.getD (.flush stderr .queued)

/-- The rest of `poll_standard_write`. -/
def pollStandardWrite (bytes : List Byte) :
    StandardWriteOperation → Option StandardWriteOperation × Ev
  | .flush stderr handle =>
    (some (.flush stderr handle), .failed (.other "standard stream flush is already in progress"))
  | .write stderr copy handle =>
    match settle (.wrote bytes) handle with
    | some x => (none, x)
    | none => (some (.write stderr copy handle), .pending)

/-- The rest of `poll_standard_flush`. -/
def pollStandardFlush : StandardWriteOperation → Option StandardWriteOperation × Ev
  | .write stderr copy handle =>
    (some (.write stderr copy handle),
      .failed (.other "standard stream write is already in progress"))
  | .flush stderr handle =>
    match settle (fun _ => .flushed) handle with
    | some x => (none, x)
    | none => (some (.flush stderr handle), .pending)

/-- What a call goes on with. -/
def Call.poll (operation : StandardWriteOperation) :
    Call → Option StandardWriteOperation × Ev
  | .write bytes => pollStandardWrite bytes operation
  | .flush => pollStandardFlush operation

/-- `Stdout`, or `Stderr` if `stderr`, and the call that is in progress. -/
structure Writer where
  stderr : Bool
  operation : Option StandardWriteOperation
  call : Option Call
  deriving Repr

/-- `stdout` and `stderr`. -/
def Writer.new (stderr : Bool) : Writer := ⟨stderr, none, none⟩

inductive Op
  /-- A call of `poll_write`, of `poll_flush`, or of `poll_shutdown`, which is `poll_flush`. -/
  | begin (c : Call)
  | poll
  /-- The blocking operation writes so many of its bytes, or flushes. -/
  | execute (amount : ℕ)
  | fail
  | finish
  deriving DecidableEq, Repr

/-- A blocking operation that is queued is executed; no write takes more than it is given. -/
def execute (amount : ℕ) : StandardWriteOperation → Option (StandardWriteOperation × List Ev)
  | .write stderr bytes .queued =>
    if amount ≤ bytes.length then
      some (.write stderr bytes (.ran (.ok amount)), [.output stderr (bytes.take amount)])
    else none
  | .flush stderr .queued => some (.flush stderr (.ran (.ok ())), [])
  | _ => none

/-- The blocking task fails. -/
def fail : StandardWriteOperation → Option StandardWriteOperation
  | .write stderr bytes .queued => some (.write stderr bytes (.ran (.error .os)))
  | .flush stderr .queued => some (.flush stderr (.ran (.error .os)))
  | _ => none

/-- The blocking task finishes. -/
def finish : StandardWriteOperation → Option StandardWriteOperation
  | .write stderr bytes (.ran r) => some (.write stderr bytes (.finished r))
  | .flush stderr (.ran r) => some (.flush stderr (.finished r))
  | _ => none

/-- **One step of a writer.** -/
def step (s : Writer) : Op → Option (Writer × List Ev)
  | .begin c =>
    if s.call = none then
      some ({ s with operation := some (c.start s.operation s.stderr), call := some c }, [])
    else none
  | .poll =>
    s.call.bind fun c => s.operation.map fun operation =>
      let r := c.poll operation
      ({ s with operation := r.1, call := none }, [r.2])
  | .execute amount =>
    s.operation.bind fun operation => (execute amount operation).map fun r =>
      ({ s with operation := some r.1 }, r.2)
  | .fail =>
    s.operation.bind fun operation => (fail operation).map fun operation =>
      ({ s with operation := some operation }, [])
  | .finish =>
    s.operation.bind fun operation => (finish operation).map fun operation =>
      ({ s with operation := some operation }, [])

/-! ## Standard input -/

/-- The operation of `Stdin`, with what the closure captures. -/
structure ReadOperation where
  capacity : ℕ
  handle : Handle (List Byte)
  deriving Repr

/-- `Stdin`, what is still to come on standard input, and the room in the buffer of the call that
is in progress. -/
structure Stdin where
  operation : Option ReadOperation
  input : List Byte
  call : Option ℕ
  deriving Repr

/-- `io::stdin`. -/
def stdin (input : List Byte) : Stdin := ⟨none, input, none⟩

inductive ReadEv
  | read (n : ℕ) (bytes : List Byte)
  | pending
  | failed (error : IoError)
  | panicked (message : String)
  | consumed (bytes : List Byte)
  deriving DecidableEq, Repr

/-- The operation that `poll_read` with room for `n` bytes starts with. -/
def startRead (operation : Option ReadOperation) (n : ℕ) : ReadOperation :=
  operation.getD ⟨min n (8 * 1024), .queued⟩

/-- The rest of `poll_read`. -/
def pollRead (n : ℕ) (operation : ReadOperation) : Option ReadOperation × ReadEv :=
  match operation.handle with
  | .finished (.ok bytes) =>
    if bytes.length ≤ n then (none, .read n bytes)
    else (none, .panicked "source does not fit in ReadBuf")
  | .finished (.error e) => (none, .failed e)
  | _ => (some operation, .pending)

/-- The blocking task reads. -/
def executeRead (amount : ℕ) (input : List Byte) : ReadOperation → Option ReadOperation
  | ⟨capacity, .queued⟩ =>
    if amount ≤ capacity ∧ amount ≤ input.length then
      some ⟨capacity, .ran (.ok (input.take amount))⟩
    else none
  | _ => none

/-- The blocking task fails. -/
def failRead : ReadOperation → Option ReadOperation
  | ⟨capacity, .queued⟩ => some ⟨capacity, .ran (.error .os)⟩
  | _ => none

/-- The blocking task finishes. -/
def finishRead : ReadOperation → Option ReadOperation
  | ⟨capacity, .ran r⟩ => some ⟨capacity, .finished r⟩
  | _ => none

inductive ReadOp
  | begin (n : ℕ)
  | poll
  | execute (amount : ℕ)
  | fail
  | finish
  deriving DecidableEq, Repr

def readStep (s : Stdin) : ReadOp → Option (Stdin × List ReadEv)
  | .begin n =>
    if s.call = none then
      if n = 0 then some (s, [.read n []])
      else some ({ s with operation := some (startRead s.operation n), call := some n }, [])
    else none
  | .poll =>
    s.call.bind fun n => s.operation.map fun operation =>
      let r := pollRead n operation
      ({ s with operation := r.1, call := none }, [r.2])
  | .execute amount =>
    s.operation.bind fun operation => (executeRead amount s.input operation).map fun operation =>
      ({ s with operation := some operation, input := s.input.drop amount },
        [.consumed (s.input.take amount)])
  | .fail =>
    s.operation.bind fun operation => (failRead operation).map fun operation =>
      ({ s with operation := some operation }, [])
  | .finish =>
    s.operation.bind fun operation => (finishRead operation).map fun operation =>
      ({ s with operation := some operation }, [])

end OhosFfrt.Io.Standard
