import OhosFfrt.Basic

/-!
# `signal::oneshot`: the shared state and the sections under its mutex

`Inner` is what the channel's FFRT mutex protects.  The receive logic exists three times, in
`try_recv`, in the loop of `blocking_recv` and in `Receiver::poll`; so it does here.
-/

namespace OhosFfrt.Oneshot.Shared

open Basic

inductive Ev (T : Type*)
  | sent (v : T)
  /-- `send` returned `Err`, with the value. -/
  | refused (v : T)
  | received (v : T)
  | closed
  | empty
  /-- `Pending` of the receiver, polled with the waker `w`. -/
  | pending (w : Waker)
  /-- `blocking_recv` goes to sleep. -/
  | parked
  | closeCalled
  | receiverDropped
  | woke (w : Waker)
  | broadcast
  deriving DecidableEq, Repr

structure Inner (T : Type*) where
  value : Option T
  senderAlive : Bool
  receiverAlive : Bool
  recvWaker : Option Waker
  closeWaker : Option Waker
  deriving DecidableEq, Repr

structure Sender where
  shared : Bool
  deriving DecidableEq, Repr

structure Receiver where
  shared : Bool
  deriving DecidableEq, Repr

variable {T : Type*}

def Inner.new : Inner T where
  value := none
  senderAlive := true
  receiverAlive := true
  recvWaker := none
  closeWaker := none

/-- The event of a wake-up, if any. -/
def wake (w : Option Waker) : List (Ev T) := w.toList.map .woke

/-! ## The sender -/

/-- `Sender::send`. -/
def send (tx : Sender) (i : Inner T) (v : T) : Inner T × List (Ev T) :=
  if tx.shared then
    if !i.receiverAlive then (i, [.refused v])
    else
      ({ i with value := some v, senderAlive := false, recvWaker := none },
        .sent v :: wake i.recvWaker ++ [.broadcast])
  else (i, [.refused v])

/-- `Sender::poll_closed` and `ClosedFuture::poll`. -/
def pollClosed (tx : Sender) (i : Inner T) (cx : Waker) : Inner T :=
  if tx.shared && i.receiverAlive then { i with closeWaker := some cx } else i

/-- `Drop` for `Sender`. -/
def dropSender (tx : Sender) (i : Inner T) : Inner T × List (Ev T) :=
  if tx.shared then
    ({ i with senderAlive := false, recvWaker := none }, wake i.recvWaker ++ [.broadcast])
  else (i, [])

/-! ## The receiver -/

inductive TryRecvError
  | empty
  | closed
  deriving DecidableEq, Repr

inductive RecvError
  | closed
  deriving DecidableEq, Repr

/-- `Receiver::try_recv`. -/
def tryRecv (rx : Receiver) (i : Inner T) : Except TryRecvError T × Receiver × Inner T :=
  if rx.shared then
    match i.value with
    | some v => (.ok v, ⟨false⟩, { i with value := none })
    | none =>
      if i.senderAlive && i.receiverAlive then (.error .empty, rx, i)
      else (.error .closed, ⟨false⟩, i)
  else (.error .closed, rx, i)

/-- One round of the loop of `Receiver::blocking_recv`; `none` goes on to `cond_wait`. -/
def blockingRound (i : Inner T) : Option (Except RecvError T) × Inner T :=
  match i.value with
  | some v => (some (.ok v), { i with value := none })
  | none =>
    if !i.senderAlive || !i.receiverAlive then (some (.error .closed), i) else (none, i)

/-- `Receiver::poll`; `none` is `Pending`. -/
def poll (rx : Receiver) (i : Inner T) (cx : Waker) :
    Option (Except RecvError T) × Receiver × Inner T :=
  if rx.shared then
    match i.value with
    | some v => (some (.ok v), ⟨false⟩, { i with value := none })
    | none =>
      if !i.senderAlive || !i.receiverAlive then (some (.error .closed), ⟨false⟩, i)
      else (none, rx, { i with recvWaker := some cx })
  else (some (.error .closed), rx, i)

/-- `Receiver::is_finished`. -/
def isFinished (rx : Receiver) (i : Inner T) : Bool :=
  if rx.shared then i.value.isSome || !i.senderAlive || !i.receiverAlive else true

/-- `Receiver::wake_waiter`. -/
def wakeWaiter (rx : Receiver) (i : Inner T) : Inner T × List (Ev T) :=
  if rx.shared then ({ i with recvWaker := none }, wake i.recvWaker ++ [.broadcast]) else (i, [])

/-- What `Receiver::close` and `Drop for Receiver` do. -/
def shut (rx : Receiver) (i : Inner T) : Inner T × List (Ev T) :=
  if rx.shared then
    ({ i with receiverAlive := false, closeWaker := none }, wake i.closeWaker ++ [.broadcast])
  else (i, [])

/-- `Receiver::close`. -/
def close (rx : Receiver) (i : Inner T) : Inner T × List (Ev T) := shut rx i

/-- `Drop` for `Receiver`. -/
def dropReceiver (rx : Receiver) (i : Inner T) : Inner T × List (Ev T) := shut rx i

end OhosFfrt.Oneshot.Shared
