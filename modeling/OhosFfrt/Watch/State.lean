import OhosFfrt.Basic

/-!
# `sync::watch`: the state and the sections under its mutex

`WatchState` is what the channel's mutex protects; each function is one section under it.  A
receiver has the version it has seen.  The five ways to publish (`send`, `send_replace`,
`send_modify`, `send_if_modified` and `broadcast`) end in the same lines (`publish`).
-/

namespace OhosFfrt.Watch.State

open Basic

/-- The events.  Receivers are numbered in the order of their creation. -/
inductive Ev (T : Type*)
  | published
  /-- `SendError` of `send`. -/
  | rejected (v : T)
  /-- What `send_replace` returns. -/
  | replaced (old : T)
  /-- `send_if_modified` returned `false`: the value before and after the closure. -/
  | notModified (before after : T)
  | subscribed (r : ℕ)
  /-- The receiver `r'` is a clone of `r`. -/
  | cloned (r r' : ℕ)
  /-- `borrow`, with `has_changed` of the `Ref`. -/
  | borrowed (r : ℕ) (v : T) (hasChanged : Bool)
  /-- `borrow_and_update`. -/
  | updated (r : ℕ) (v : T) (hasChanged : Bool)
  /-- `mark_seen`, `mark_unchanged` and `borrow_and_update_version`. -/
  | markedSeen (r : ℕ)
  | markedChanged (r : ℕ)
  /-- What `has_changed` returns; `none` is `RecvError`. -/
  | hasChanged (r : ℕ) (x : Option Bool)
  /-- `Ready` of a `changed` future. -/
  | changed (r : ℕ)
  | changedClosed (r : ℕ)
  | changedPending (r : ℕ) (w : Waker)
  /-- `Ready` of a `wait_for` future. -/
  | waited (r : ℕ) (v : T) (hasChanged : Bool)
  | waitClosed (r : ℕ)
  | waitPending (r : ℕ) (w : Waker)
  | futureDropped (r : ℕ)
  | woke (w : Waker)
  deriving DecidableEq, Repr

structure WatchState (T : Type*) where
  value : T
  version : ℕ
  senders : ℕ
  receivers : ℕ
  waiters : List Waker
  closedWaiters : List Waker
  deriving DecidableEq, Repr

variable {T : Type*}

/-- The state that `channel` (with one receiver) and `Sender::new` (with none) create. -/
def WatchState.new (init : T) (receivers : ℕ) : WatchState T where
  value := init
  version := 0
  senders := 1
  receivers := receivers
  waiters := []
  closedWaiters := []

/-! ## Publishing -/

/-- The last lines of every way to publish. -/
def publish (st : WatchState T) (v : T) : WatchState T × List (Ev T) :=
  ({ st with value := v, version := (st.version + 1) % 2 ^ 64, waiters := [] },
    .published :: st.waiters.map .woke)

/-- `Sender::send`. -/
def send (st : WatchState T) (v : T) : WatchState T × List (Ev T) :=
  if st.receivers = 0 then (st, [.rejected v]) else publish st v

/-- `Sender::send_replace`. -/
def sendReplace (st : WatchState T) (v : T) : WatchState T × List (Ev T) :=
  let r := publish st v
  (r.1, r.2 ++ [.replaced st.value])

/-- `Sender::send_modify`. -/
def sendModify (st : WatchState T) (f : T → T) : WatchState T × List (Ev T) :=
  publish st (f st.value)

/-- `Sender::send_if_modified`. -/
def sendIfModified (st : WatchState T) (f : T → T × Bool) : WatchState T × List (Ev T) :=
  let r := f st.value
  if r.2 then publish st r.1
  else ({ st with value := r.1 }, [.notModified st.value r.1])

/-- `Sender::broadcast`. -/
def broadcast (st : WatchState T) (v : T) : WatchState T × List (Ev T) := publish st v

/-! ## Handles -/

/-- One poll of `Sender::closed`; `none` is `Ready`. -/
def pollClosed (st : WatchState T) (cx : Waker) : Option (WatchState T) :=
  if st.receivers = 0 then none else some { st with closedWaiters := st.closedWaiters ++ [cx] }

/-- `Drop for Sender`; `none` is an underflow. -/
def dropSender (st : WatchState T) : Option (WatchState T × List (Ev T)) :=
  (checkedSub st.senders 1).map fun senders =>
    if senders = 0 then ({ st with senders := senders, waiters := [] }, st.waiters.map .woke)
    else ({ st with senders := senders }, [])

/-- `Drop for Receiver`; `none` is an underflow. -/
def dropReceiver (st : WatchState T) : Option (WatchState T × List (Ev T)) :=
  (checkedSub st.receivers 1).map fun receivers =>
    if receivers = 0 then
      ({ st with receivers := receivers, closedWaiters := [] }, st.closedWaiters.map .woke)
    else ({ st with receivers := receivers }, [])

/-! ## Receiving -/

/-- `has_changed` of a `Ref`. -/
def differs (st : WatchState T) (seen : ℕ) : Bool := st.version ≠ seen

/-- `Receiver::has_changed`; `none` is `RecvError`. -/
def hasChanged (st : WatchState T) (seen : ℕ) : Option Bool :=
  if st.version ≠ seen then some true
  else if st.senders = 0 then none
  else some false

/-- What `Receiver::mark_changed` makes `seen`: `version.wrapping_sub(1)`. -/
def unseenVersion (st : WatchState T) : ℕ := (st.version + (2 ^ 64 - 1)) % 2 ^ 64

/-- `Changed::poll` of the receiver `r`: `seen` and the state afterwards, and the result. -/
def pollChanged (st : WatchState T) (r seen : ℕ) (cx : Waker) : ℕ × WatchState T × Ev T :=
  if st.version ≠ seen then (st.version, st, .changed r)
  else if st.senders = 0 then (seen, st, .changedClosed r)
  else (seen, { st with waiters := st.waiters ++ [cx] }, .changedPending r cx)

/-- `WaitFor::poll` of the receiver `r`: `seen` and the state afterwards, and the result. -/
def pollWaitFor (st : WatchState T) (r seen : ℕ) (predicate : T → Bool) (cx : Waker) :
    ℕ × WatchState T × Ev T :=
  if predicate st.value then (st.version, st, .waited r st.value (differs st seen))
  else if st.senders = 0 then (seen, st, .waitClosed r)
  else (seen, { st with waiters := st.waiters ++ [cx] }, .waitPending r cx)

end OhosFfrt.Watch.State
