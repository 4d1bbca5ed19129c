import OhosFfrt.Basic

/-!
# `sync::broadcast`: the state and the sections under its mutex

`BroadcastState` is what the channel's mutex protects; each function is one section under it and
returns its events.  The receive logic exists twice, in `try_recv_locked` and in `RecvFuture::poll`;
so it does here.
-/

namespace OhosFfrt.Broadcast.State

open Basic

/-- The events.  Receivers are numbered in the order of their creation. -/
inductive Ev (T : Type*)
  /-- A value is accepted, and `send` returns the number of receivers. -/
  | accepted (v : T) (receivers : ℕ)
  | rejected (v : T)
  | subscribed (r : ℕ)
  | received (r : ℕ) (v : T)
  | lagged (r n : ℕ)
  | empty (r : ℕ)
  /-- `Pending` of a `recv` future polled with the waker `w`. -/
  | pending (r : ℕ) (w : Waker)
  | closed (r : ℕ)
  | recvDropped (r : ℕ)
  | sendersGone
  | upgraded
  | notUpgraded
  | woke (w : Waker)
  deriving DecidableEq, Repr

structure BroadcastState (T : Type*) where
  queue : List (ℕ × T)
  capacity : ℕ
  nextSeq : ℕ
  senders : ℕ
  receivers : ℕ
  waiters : List Waker
  closeWaiters : List Waker
  deriving DecidableEq, Repr

variable {T : Type*}

/-- The state that `channel` and `Sender::new` create; `none` is a failed assertion. -/
def BroadcastState.new (capacity receivers : ℕ) : Option (BroadcastState T) :=
  if capacity > 0 then
    some
      { queue := []
        capacity := capacity
        nextSeq := 0
        senders := 1
        receivers := receivers
        waiters := []
        closeWaiters := [] }
  else none

/-- The loop of `push_locked` that drops the oldest values. -/
def evict (capacity : ℕ) : List (ℕ × T) → List (ℕ × T)
  | [] => []
  | e :: q => if (e :: q).length > capacity then evict capacity q else e :: q

/-- `Sender::push_locked`. -/
def pushLocked (st : BroadcastState T) (v : T) : BroadcastState T × List (Ev T) :=
  ({ st with
     queue := evict st.capacity (st.queue ++ [(st.nextSeq, v)])
     nextSeq := (st.nextSeq + 1) % 2 ^ 64
     waiters := [] }, st.waiters.map .woke)

/-- `Sender::send`. -/
def send (st : BroadcastState T) (v : T) : BroadcastState T × List (Ev T) :=
  if st.receivers = 0 then (st, [.rejected v])
  else
    let r := pushLocked st v
    (r.1, .accepted v r.1.receivers :: r.2)

/-- One poll of `Sender::closed`; `none` is `Ready`. -/
def pollClosed (st : BroadcastState T) (cx : Waker) : Option (BroadcastState T) :=
  if st.receivers = 0 then none
  else if cx ∈ st.closeWaiters then some st
  else some { st with closeWaiters := st.closeWaiters ++ [cx] }

/-- `Drop for Sender`; `none` is an underflow. -/
def dropSender (st : BroadcastState T) : Option (BroadcastState T × List (Ev T)) :=
  (checkedSub st.senders 1).map fun senders =>
    if senders = 0 then
      ({ st with senders := senders, waiters := [] }, .sendersGone :: st.waiters.map .woke)
    else ({ st with senders := senders }, [])

/-- `Drop for Receiver`; `none` is an underflow. -/
def dropReceiver (st : BroadcastState T) : Option (BroadcastState T × List (Ev T)) :=
  (checkedSub st.receivers 1).map fun receivers =>
    if receivers = 0 then
      ({ st with receivers := receivers, closeWaiters := [] }, st.closeWaiters.map .woke)
    else ({ st with receivers := receivers }, [])

/-! ## Receiving -/

inductive TryRecvError
  | empty
  | closed
  | lagged (n : ℕ)
  deriving DecidableEq, Repr

inductive RecvError
  | closed
  | lagged (n : ℕ)
  deriving DecidableEq, Repr

/-- `Receiver::try_recv_locked`: the result, and the receiver's `next_seq` afterwards. -/
def tryRecvLocked (st : BroadcastState T) (nextSeq : ℕ) : Except TryRecvError T × ℕ :=
  match st.queue.find? fun e => nextSeq ≤ e.1 with
  | some (seq, v) =>
    if seq > nextSeq then (.error (.lagged (seq - nextSeq)), seq)
    else (.ok v, (nextSeq + 1) % 2 ^ 64)
  | none => if st.senders = 0 then (.error .closed, nextSeq) else (.error .empty, nextSeq)

/-- `RecvFuture::poll`: the result (`none` is `Pending`), the receiver's `next_seq` and the state
afterwards. -/
def pollRecv (st : BroadcastState T) (nextSeq : ℕ) (cx : Waker) :
    Option (Except RecvError T) × ℕ × BroadcastState T :=
  match st.queue.find? fun e => nextSeq ≤ e.1 with
  | some (seq, v) =>
    if seq > nextSeq then (some (.error (.lagged (seq - nextSeq))), seq, st)
    else (some (.ok v), (nextSeq + 1) % 2 ^ 64, st)
  | none =>
    if st.senders = 0 then (some (.error .closed), nextSeq, st)
    else (none, nextSeq, { st with waiters := st.waiters ++ [cx] })

end OhosFfrt.Broadcast.State
