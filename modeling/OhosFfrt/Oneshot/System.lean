import OhosFfrt.Lib.Runs
import OhosFfrt.Oneshot.Shared

/-!
# `signal::oneshot`: the handles and the steps of a run

`send` consumes the sender, and `blocking_recv` the receiver: it takes `shared` out, looks at the
channel, and after every `cond_wait` looks again.  A `cond_wait` may return at any time.
-/

namespace OhosFfrt.Oneshot.System

open Basic Oneshot.Shared

/-- A channel with its handles; `blocking` tells whether a `blocking_recv` is under way. -/
structure Sys (T : Type*) where
  inner : Inner T
  sender : Option Sender
  receiver : Option Receiver
  blocking : Bool
  deriving DecidableEq, Repr

inductive Op (T : Type*)
  | send (v : T)
  /-- A poll of `poll_closed` or of the future of `closed`. -/
  | pollClosed (cx : Waker)
  | dropSender
  | tryRecv
  | poll (cx : Waker)
  | blockingRecv
  /-- The next round of `blocking_recv`. -/
  | resumeRecv
  | wakeWaiter
  | close
  | dropReceiver
  deriving DecidableEq, Repr

variable {T : Type*}

/-- `oneshot::channel`. -/
def channel : Sys T := ⟨.new, some ⟨true⟩, some ⟨true⟩, false⟩

/-- What `try_recv` returns. -/
def reportTry : Except TryRecvError T → Ev T
  | .ok v => .received v
  | .error .empty => .empty
  | .error .closed => .closed

/-- What a receive returns. -/
def report (wait : Ev T) : Option (Except RecvError T) → Ev T
  | none => wait
  | some (.ok v) => .received v
  | some (.error .closed) => .closed

/-- One round of `blocking_recv`. -/
def Sys.round (s : Sys T) : Sys T × List (Ev T) :=
  let r := blockingRound s.inner
  ({ s with inner := r.2, blocking := r.1.isNone }, [report .parked r.1])

def step (s : Sys T) : Op T → Option (Sys T × List (Ev T))
  | .send v =>
    s.sender.map fun tx =>
      let r := send tx s.inner v
      ({ s with inner := r.1, sender := none }, r.2)
  | .pollClosed cx => s.sender.map fun tx => ({ s with inner := pollClosed tx s.inner cx }, [])
  | .dropSender =>
    s.sender.map fun tx =>
      let r := dropSender tx s.inner
      ({ s with inner := r.1, sender := none }, r.2)
  | .tryRecv =>
    s.receiver.map fun rx =>
      let r := tryRecv rx s.inner
      ({ s with inner := r.2.2, receiver := some r.2.1 }, [reportTry r.1])
  | .poll cx =>
    s.receiver.map fun rx =>
      let r := poll rx s.inner cx
      ({ s with inner := r.2.2, receiver := some r.2.1 }, [report (.pending cx) r.1])
  | .blockingRecv =>
    s.receiver.map fun rx =>
      let s' := { s with receiver := none }
      if rx.shared then s'.round else (s', [.closed])
  | .resumeRecv => if s.blocking then some s.round else none
  | .wakeWaiter =>
    s.receiver.map fun rx =>
      let r := wakeWaiter rx s.inner
      ({ s with inner := r.1 }, r.2)
  | .close =>
    s.receiver.map fun rx =>
      let r := close rx s.inner
      ({ s with inner := r.1 }, .closeCalled :: r.2)
  | .dropReceiver =>
    s.receiver.map fun rx =>
      let r := dropReceiver rx s.inner
      ({ s with inner := r.1, receiver := none }, .receiverDropped :: r.2)

/-- It receives. -/
def Op.receives : Op T → Bool
  | .tryRecv | .poll _ | .blockingRecv | .resumeRecv => true
  | _ => false

/-- The values sent. -/
def sent (tr : List (Ev T)) : List T := tr.filterMap fun | .sent v => some v | _ => none

/-- The values received. -/
def received (tr : List (Ev T)) : List T := tr.filterMap fun | .received v => some v | _ => none

end OhosFfrt.Oneshot.System
