import OhosFfrt.Lib.Runs
import OhosFfrt.Fs.State

/-!
# `fs::File`: the steps of a run

A run has calls on a file, one after another, and the steps of the blocking operations between any
two turns of a call.  A call that has returned `Pending` need not be made again.  How many bytes a
read of the operating system returns, and whether an operation fails, are inputs (`Outcome`).  The
owned operations go straight to the file of the operating system.
-/

namespace OhosFfrt.Fs.System

open Lib.Files Fs.State

/-- A call of a polling function. -/
inductive Call
  | read (n : ℕ)
  | write (buf : List Byte)
  | flush
  | complete
  deriving DecidableEq, Repr

/-- A file of the operating system, the `File` for it, and the call that is in progress. -/
structure Sys where
  os : SeqFile
  file : File
  call : Option Call
  deriving Repr

/-- `File::from_std`. -/
def fromStd (os : SeqFile) : Sys := ⟨os, .fromInner, none⟩

/-- What becomes of an operation: it is successful, a read with so many bytes, or it fails, a write
after so many bytes. -/
inductive Outcome
  | ok (amount : ℕ)
  | err (written : ℕ)
  deriving DecidableEq, Repr

inductive Op
  | begin (c : Call)
  | turn
  | startSeek (position : SeekFrom)
  | setMaxBufSize (maxBufSize : ℕ)
  | execute (o : Outcome)
  | finish
  | readOwned (len amount : ℕ)
  | readToEndOwned
  | writeAllOwned (data : List Byte)
  deriving DecidableEq, Repr

/-- One round of the call. -/
def Call.turn (f : File) : Call → Turn
  | .read n => f.pollRead n
  | .write buf => f.pollWrite buf
  | .flush => f.pollFlush
  | .complete => f.pollComplete

/-- The closure of a write, with its step back over the bytes that were read ahead. -/
def executeWrite (os : SeqFile) (unread : ℕ) (bytes : List Byte) (o : Outcome) :
    SeqFile × Result ℕ :=
  match if unread ≠ 0 then os.seek (.current (-unread)) else some os, o with
  | none, _ => (os, .error .os)
  | some os, .ok _ => (os.writeAll bytes, .ok bytes.length)
  | some os, .err written => (os.writeAll (bytes.take written), .error .os)

/-- The blocking task of a seek. -/
def executeSeek (os : SeqFile) (position : SeekFrom) (o : Outcome) : SeqFile × Result ℕ :=
  match os.seek position, o with
  | some os, .ok _ => (os, .ok os.offset)
  | _, _ => (os, .error .os)

/-- The closure of a read; `none` if the system cannot return so many bytes. -/
def executeRead (os : SeqFile) (capacity : ℕ) : Outcome → Option (SeqFile × Result (List Byte))
  | .ok amount => (os.read capacity amount).map fun r => (r.2, .ok r.1)
  | .err _ => some (os, .error .os)

/-- The blocking task runs. -/
def execute (os : SeqFile) (o : Outcome) : FileOperation → Option (SeqFile × FileOperation)
  | .read capacity .queued =>
    (executeRead os capacity o).map fun r => (r.1, .read capacity (.ran r.2))
  | .write unread bytes .queued =>
    let r := executeWrite os unread bytes o
    some (r.1, .write unread bytes (.ran r.2))
  | .seek position .queued =>
    let r := executeSeek os position o
    some (r.1, .seek position (.ran r.2))
  | _ => none

/-- The blocking task finishes. -/
def finish : FileOperation → Option FileOperation
  | .read capacity (.ran r) => some (.read capacity (.finished r))
  | .write unread bytes (.ran r) => some (.write unread bytes (.finished r))
  | .seek position (.ran r) => some (.seek position (.finished r))
  | _ => none

def step (s : Sys) : Op → Option (Sys × List Ev)
  | .begin c => if s.call.isNone then some ({ s with call := some c }, []) else none
  | .turn =>
    s.call.map fun c =>
      let t := c.turn s.file
      ({ s with file := t.file, call := if t.returned then none else some c }, t.events)
  | .startSeek position =>
    if s.call.isNone then
      match s.file.startSeek position with
      | .ok f => some ({ s with file := f }, [])
      | .error e => some (s, [.failed e])
    else none
  | .setMaxBufSize n =>
    if s.call.isNone then some ({ s with file := s.file.setMaxBufSize n }, []) else none
  | .execute o =>
    s.file.operation.bind fun operation => (execute s.os o operation).map fun r =>
      ({ s with os := r.1, file := { s.file with operation := some r.2 } }, [])
  | .finish =>
    s.file.operation.bind fun operation => (finish operation).map fun operation =>
      ({ s with file := { s.file with operation := some operation } }, [])
  | .readOwned len amount =>
    if s.call.isNone && s.file.waited then
      (s.os.read len amount).map fun r => ({ s with os := r.2 }, [.readOwned len r.1])
    else none
  | .readToEndOwned =>
    if s.call.isNone && s.file.waited then
      some ({ s with os := s.os.readToEnd.2 }, [.readToEndOwned s.os.readToEnd.1])
    else none
  | .writeAllOwned data =>
    if s.call.isNone && s.file.waited then
      some ({ s with os := s.os.writeAll data }, [.wroteOwned data])
    else none

end OhosFfrt.Fs.System
