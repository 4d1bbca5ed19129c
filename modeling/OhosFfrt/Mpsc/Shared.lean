import OhosFfrt.Basic

/-!
# `signal::mpsc`: the shared state and the sections under its mutex

`Inner` is what the channel's FFRT mutex protects, for both flavours: `capacity` is `none` in an
unbounded channel.  Each function is one section under the mutex; `none` stands for an underflow of
a counter.  `SendWaker` also has the number of slots that was asked for, which no section looks at.
-/

namespace OhosFfrt.Mpsc.Shared

open Basic

/-- What becomes of the value of a send: it is accepted, handed back with an error, or dropped with
the future. -/
inductive Fate
  | accepted
  | closed
  | full
  | timeout
  | dropped
  deriving DecidableEq, Repr

/-- Who waits on the condition variable: the receiver, or the thread of a `blocking_send`. -/
inductive Party
  | receiver
  | sender (j : ℕ)
  deriving DecidableEq, Repr

/-- The events.  Sends are numbered in the order in which they begin. -/
inductive Ev (T : Type*)
  | started (op : ℕ) (v : T)
  | settled (op : ℕ) (v : T) (f : Fate)
  | received (v : T)
  | ended
  | recvRegistered
  | closeCalled
  | receiverDropped
  | parked (p : Party)
  | woke (w : Waker)
  | broadcast
  deriving DecidableEq, Repr

/-- An entry of `send_wakers`. -/
structure SendWaker where
  waker : Waker
  slots : ℕ
  deriving DecidableEq, Repr

structure Inner (T : Type*) where
  queue : List T
  capacity : Option ℕ
  reserved : ℕ
  senderCount : ℕ
  receiverAlive : Bool
  recvWaker : Option Waker
  sendWakers : List SendWaker
  closeWaiters : List Waker
  deriving DecidableEq, Repr

variable {T : Type*}

/-- `Inner::new`. -/
def Inner.new (capacity : Option ℕ) : Inner T where
  queue := []
  capacity := capacity
  reserved := 0
  senderCount := 1
  receiverAlive := true
  recvWaker := none
  sendWakers := []
  closeWaiters := []

/-- The test for a full channel. -/
def Inner.full (i : Inner T) : Bool := i.capacity.any fun c => c ≤ i.queue.length + i.reserved

/-- The test for the end of the stream, on an empty queue. -/
def Inner.finished (i : Inner T) : Bool :=
  decide (i.senderCount = 0) || (!i.receiverAlive && decide (i.reserved = 0))

/-- The slots that are neither taken nor reserved. -/
def Inner.free (i : Inner T) : ℕ := i.capacity.getD 0 - (i.queue.length + i.reserved)

/-- Wakes the receiver. -/
def wakeRecv (i : Inner T) : List (Ev T) := i.recvWaker.toList.map .woke

/-- Wakes the senders. -/
def wakeSend (i : Inner T) : List (Ev T) := i.sendWakers.map fun w => .woke w.waker

/-! ## Sending -/

/-- `push_back`, then the receiver is woken and the condition variable is signalled. -/
def push (i : Inner T) (v : T) : Inner T × List (Ev T) :=
  ({ i with queue := i.queue ++ [v], recvWaker := none }, wakeRecv i ++ [.broadcast])

/-- One attempt to send: the fate of the value, the state and the events.  `full` is a fate for
`try_send` only. -/
def offer (i : Inner T) (v : T) : Fate × Inner T × List (Ev T) :=
  if !i.receiverAlive then (.closed, i, [])
  else if i.full then (.full, i, [])
  else (.accepted, push i v)

/-- `Sender::try_send`. -/
def trySend (i : Inner T) (v : T) : Fate × Inner T × List (Ev T) := offer i v

/-- One round of the loop of `Sender::blocking_send`; `full` goes on to `cond_wait`. -/
def blockingSend (i : Inner T) (v : T) : Fate × Inner T × List (Ev T) := offer i v

/-- `UnboundedSender::send`. -/
def unboundedSend (i : Inner T) (v : T) : Fate × Inner T × List (Ev T) :=
  if !i.receiverAlive then (.closed, i, []) else (.accepted, push i v)

/-- A sender waits for slots. -/
def waitSend (i : Inner T) (cx : Waker) (slots : ℕ) : Inner T :=
  { i with sendWakers := i.sendWakers ++ [⟨cx, slots⟩] }

/-- `SendFuture::poll`; `full` is `Pending`. -/
def pollSend (i : Inner T) (v : T) (cx : Waker) : Fate × Inner T × List (Ev T) :=
  match offer i v with
  | (.full, i, es) => (.full, waitSend i cx 1, es)
  | r => r

/-! ## Reserving -/

/-- The answer to a reservation. -/
inductive Reserved
  | ok
  | full
  | closed
  deriving DecidableEq, Repr

/-- `Sender::reserve_now`. -/
def reserveNow (i : Inner T) (permits : ℕ) : Reserved × Inner T :=
  if !i.receiverAlive then (.closed, i)
  else if permits > i.free then (.full, i)
  else (.ok, { i with reserved := i.reserved + permits })

/-- `Sender::poll_reserve`; `full` is `Pending`. -/
def pollReserve (i : Inner T) (permits : ℕ) (cx : Waker) : Reserved × Inner T :=
  if !i.receiverAlive then (.closed, i)
  else if permits ≤ i.free then (.ok, { i with reserved := i.reserved + permits })
  else (.full, waitSend i cx permits)

def sendReserved (i : Inner T) (v : T) : Option (Inner T × List (Ev T)) :=
  (checkedSub i.reserved 1).map fun reserved => push { i with reserved := reserved } v

def releaseReserved (i : Inner T) (permits : ℕ) : Option (Inner T × List (Ev T)) :=
  if permits = 0 then some (i, [])
  else (checkedSub i.reserved permits).map fun reserved =>
    if !i.receiverAlive && decide (reserved = 0) then
      ({ i with reserved := reserved, recvWaker := none, sendWakers := [] },
        wakeRecv i ++ wakeSend i ++ [.broadcast])
    else
      ({ i with reserved := reserved, sendWakers := [] }, wakeSend i ++ [.broadcast])

/-! ## Sender handles -/

/-- `Clone for Sender`, and `WeakSender::upgrade` once the count is not zero. -/
def addSender (i : Inner T) : Inner T := { i with senderCount := i.senderCount + 1 }

/-- `WeakSender::upgrade`.  Where the channel itself is gone, no sender is left either. -/
def upgrade (i : Inner T) : Option (Inner T) :=
  if i.senderCount = 0 then none else some (addSender i)

/-- A sender is dropped. -/
def dropSender (i : Inner T) : Option (Inner T × List (Ev T)) :=
  (checkedSub i.senderCount 1).map fun senderCount =>
    let i' := { i with senderCount := senderCount }
    if i'.finished then ({ i' with recvWaker := none }, wakeRecv i ++ [.broadcast]) else (i', [])

/-- `SenderClosedFuture::poll`; `none` is `Ready`. -/
def pollClosed (i : Inner T) (cx : Waker) : Option (Inner T) :=
  if !i.receiverAlive then none else some { i with closeWaiters := i.closeWaiters ++ [cx] }

/-! ## Receiving -/

/-- The answer to a receive. -/
inductive Taken (T : Type*)
  | value (v : T) (i : Inner T) (es : List (Ev T))
  | ended
  | empty

/-- One look at the queue.  `drain` tells whether a value that is taken wakes the senders. -/
def take (i : Inner T) (drain : Bool) : Taken T :=
  match i.queue with
  | v :: q =>
    let i' := { i with queue := q }
    if drain then .value v { i' with sendWakers := [] } (wakeSend i ++ [.broadcast])
    else .value v i' [.broadcast]
  | [] => if i.finished then .ended else .empty

/-- `try_recv`; that of an unbounded receiver wakes no senders. -/
def tryRecv (i : Inner T) : Taken T := take i i.capacity.isSome

/-- One round of the loop of `blocking_recv`; `empty` goes on to `cond_wait`. -/
def blockingRecv (i : Inner T) : Taken T := take i i.capacity.isSome

/-- `RecvTimeoutFuture::poll` and `UnboundedRecvTimeoutFuture::poll` up to the sleep; `empty` goes
on to it. -/
def pollRecvTimeout (i : Inner T) : Taken T := take i i.capacity.isSome

/-- `poll_recv_shared`; `empty` is `Pending`. -/
def pollRecvShared (i : Inner T) : Taken T := take i true

/-- The receiver waits. -/
def waitRecv (i : Inner T) (cx : Waker) : Inner T := { i with recvWaker := some cx }

/-- The loop of `poll_recv_many_shared`: up to `limit` values are taken from the queue. -/
def popUpTo : ℕ → List T → List T × List T
  | 0, q => ([], q)
  | _ + 1, [] => ([], [])
  | limit + 1, v :: q => (v :: (popUpTo limit q).1, (popUpTo limit q).2)

/-- `Receiver::close` and `Drop for Receiver`.  In an unbounded channel `send_wakers` is not
touched. -/
def shut (i : Inner T) : Inner T × List (Ev T) :=
  if i.capacity.isSome then
    ({ i with receiverAlive := false, closeWaiters := [], sendWakers := [] },
      i.closeWaiters.map .woke ++ wakeSend i ++ [.broadcast])
  else
    ({ i with receiverAlive := false, closeWaiters := [] },
      i.closeWaiters.map .woke ++ [.broadcast])

end OhosFfrt.Mpsc.Shared
