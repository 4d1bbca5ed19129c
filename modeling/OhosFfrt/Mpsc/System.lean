import OhosFfrt.Lib.Arena
import OhosFfrt.Lib.Runs
import OhosFfrt.Mpsc.Shared

/-!
# `signal::mpsc`: handles, futures, permits and the steps of a run

A run of a channel is any interleaving of the sections under its mutex.  What the senders hold
(handles, futures, permits, calls of `blocking_send` that wait) lives in an arena; there is one
receiver, and `Rx` is what it is in the middle of.

* What borrows a sender keeps it from being dropped or moved (`Obj.borrows`); a `send_timeout`
  future borrows nothing and may outlive every sender.
* A thread in `cond_wait` may go on at any time, also when nobody signalled.
* Where the source runs two sections one after the other, other steps may come between them: the
  drop of an owned permit (`Obj.dropping`); a poll of a `send_timeout` or `recv_timeout` future,
  which looks at the channel and then at its timer (`sleeping`), whose answer is an input;
  `recv_many`, which looks again for each further value (`Rx.draining`).
* A future that has completed is gone, but a `send_timeout` future may be polled again.
-/

namespace OhosFfrt.Mpsc.System

open Basic Lib.Arena Mpsc.Shared

variable {T : Type*}

/-- What the senders hold.  `tx` is the borrowed sender, `op` the number of the send. -/
inductive Obj (T : Type*)
  | gone
  | sender
  | weak
  | permit (tx : ℕ)
  | permitIterator (tx remaining : ℕ)
  | ownedPermit
  | send (tx op : ℕ) (v : T)
  | sendTimeout (op : ℕ) (value : Option T) (sleeping : Bool)
  | blockingSend (tx op : ℕ) (v : T)
  | reserve (tx : ℕ)
  | reserveMany (tx permits : ℕ)
  | reserveOwned
  | closedFuture
  /-- A sender whose drop is still to run. -/
  | dropping
  deriving DecidableEq, Repr

/-- The slots it has reserved. -/
def Obj.slots : Obj T → ℕ
  | .permit _ | .ownedPermit => 1
  | .permitIterator _ remaining => remaining
  | _ => 0

/-- It counts as a sender. -/
def Obj.isSender : Obj T → Bool
  | .sender | .ownedPermit | .reserveOwned | .dropping => true
  | _ => false

/-- The sender it borrows. -/
def Obj.borrows : Obj T → Option ℕ
  | .permit tx | .permitIterator tx _ | .send tx _ _ | .blockingSend tx _ _ | .reserve tx
  | .reserveMany tx _ => some tx
  | _ => none

/-- The send that the object is in the middle of, with its value. -/
def Obj.pending : Obj T → Option (ℕ × T)
  | .send _ op v | .blockingSend _ op v | .sendTimeout op (some v) _ => some (op, v)
  | _ => none

/-- The receiver: `blocking` waits in `cond_wait`, for `blocking_recv` or, with a limit, for
`blocking_recv_many`. -/
inductive Rx
  | idle
  | recv
  | recvMany (limit : ℕ)
  | recvTimeout (sleeping : Bool)
  | blocking (limit : Option ℕ)
  | draining (limit got : ℕ)
  | dropped
  deriving DecidableEq, Repr

/-- A channel with everything that refers to it.  `sends` counts the sends that have begun. -/
structure Sys (T : Type*) where
  inner : Inner T
  objs : List (Obj T)
  rx : Rx
  sends : ℕ
  deriving DecidableEq, Repr

def Sys.new (capacity : Option ℕ) : Sys T where
  inner := Inner.new capacity
  objs := [.sender]
  rx := .idle
  sends := 0

/-- `channel`; `none` is the failed assertion. -/
def channel (capacity : ℕ) : Option (Sys T) :=
  if capacity > 0 then some (Sys.new (some capacity)) else none

def unboundedChannel : Sys T := Sys.new none

/-- The operations.  `tx` and `j` are places in the arena. -/
inductive Op (T : Type*)
  | trySend (tx : ℕ) (v : T)
  | blockingSend (tx : ℕ) (v : T)
  /-- A `blocking_send` leaves `cond_wait`. -/
  | resumeSend (j : ℕ)
  | send (tx : ℕ) (v : T)
  | sendTimeout (tx : ℕ) (v : T)
  | pollSend (j : ℕ) (cx : Waker)
  /-- The timer part of a poll of a `send_timeout` future. -/
  | pollSleep (j : ℕ) (elapsed : Bool)
  | unboundedSend (tx : ℕ) (v : T)
  | tryReserve (tx : ℕ)
  | tryReserveMany (tx permits : ℕ)
  | tryReserveOwned (tx : ℕ)
  | reserve (tx : ℕ)
  | reserveMany (tx permits : ℕ)
  | reserveOwned (tx : ℕ)
  | pollReserve (j : ℕ) (cx : Waker)
  /-- `Permit::send` and `OwnedPermit::send`. -/
  | permitSend (j : ℕ) (v : T)
  /-- `PermitIterator::next`. -/
  | permitNext (j : ℕ)
  /-- `OwnedPermit::release`. -/
  | permitRelease (j : ℕ)
  | clone (tx : ℕ)
  | downgrade (tx : ℕ)
  | cloneWeak (j : ℕ)
  | upgrade (j : ℕ)
  | closed (tx : ℕ)
  | pollClosed (j : ℕ) (cx : Waker)
  | drop (j : ℕ)
  | tryRecv
  | pollRecv (cx : Waker)
  | pollRecvMany (cx : Waker) (limit : ℕ)
  | recv
  | recvMany (limit : ℕ)
  | recvTimeout
  | pollRx (cx : Waker)
  /-- The timer part of a poll of a `recv_timeout` future. -/
  | sleepRx (elapsed : Bool)
  /-- One more round of the loop of `recv_many` or `blocking_recv_many`. -/
  | drain
  | dropRx
  | blockingRecv
  | blockingRecvMany (limit : ℕ)
  /-- A `blocking_recv` leaves `cond_wait`. -/
  | resumeRecv
  | close
  | dropReceiver
  deriving DecidableEq, Repr

/-! ## Senders -/

/-- `tx` is a sender. -/
def Sys.isSender (s : Sys T) (tx : ℕ) : Bool :=
  match s.objs[tx]? with
  | some .sender => true
  | _ => false

/-- `tx` is a `Sender`. -/
def Sys.isBounded (s : Sys T) (tx : ℕ) : Bool := s.inner.capacity.isSome && s.isSender tx

/-- Nobody borrows `tx`. -/
def Sys.unborrowed (s : Sys T) (tx : ℕ) : Bool := s.objs.all fun o => o.borrows ≠ some tx

/-- The object `j` changes. -/
def Sys.put (s : Sys T) (j : ℕ) (o : Obj T) : Sys T := { s with objs := s.objs.set j o }

def Sys.add (s : Sys T) (o : Obj T) : Sys T := { s with objs := s.objs ++ [o] }

/-- A send that settles at once. -/
def Sys.sent (s : Sys T) (v : T) (r : Fate × Inner T × List (Ev T)) : Sys T × List (Ev T) :=
  ({ s with inner := r.2.1, sends := s.sends + 1 },
    .started s.sends v :: .settled s.sends v r.1 :: r.2.2)

/-- A send that begins. -/
def Sys.begun (s : Sys T) (v : T) (o : Obj T) (es : List (Ev T)) : Sys T × List (Ev T) :=
  ({ s with objs := s.objs ++ [o], sends := s.sends + 1 }, .started s.sends v :: es)

/-- A pending send is settled and its object becomes `o`, or it goes on waiting with its object
`o'` and the events `es'`. -/
def Sys.settle (s : Sys T) (j op : ℕ) (v : T) (r : Fate × Inner T × List (Ev T)) (o o' : Obj T)
    (es' : List (Ev T)) : Sys T × List (Ev T) :=
  if r.1 = .full then ({ s with inner := r.2.1, objs := s.objs.set j o' }, es')
  else ({ s with inner := r.2.1, objs := s.objs.set j o }, .settled op v r.1 :: r.2.2)

/-- A poll of a send. -/
def Sys.pollSend (s : Sys T) (j : ℕ) (cx : Waker) : Option (Sys T × List (Ev T)) :=
  match s.objs[j]? with
  | some (.send tx op v) =>
    some (s.settle j op v (Shared.pollSend s.inner v cx) .gone (.send tx op v) [])
  | some (.sendTimeout op (some v) false) =>
    some (s.settle j op v (Shared.pollSend s.inner v cx) (.sendTimeout op none false)
      (.sendTimeout op (some v) true) [])
  -- without a value it can only wait; `unwrap` panics otherwise
  | some (.sendTimeout op none false) =>
    if s.inner.receiverAlive && s.inner.full then
      some ({ s with
        inner := waitSend s.inner cx 1
        objs := s.objs.set j (.sendTimeout op none true) }, [])
    else some (s, [])
  | _ => none

/-- A poll of the sleep of `send_timeout`. -/
def Sys.pollSleep (s : Sys T) (j : ℕ) (elapsed : Bool) : Option (Sys T × List (Ev T)) :=
  match s.objs[j]? with
  | some (.sendTimeout op (some v) true) =>
    if elapsed then some (s.put j (.sendTimeout op none false), [.settled op v .timeout])
    else some (s.put j (.sendTimeout op (some v) false), [])
  | some (.sendTimeout op none true) => some (s.put j (.sendTimeout op none false), [])
  | _ => none

/-- A future for `permits` slots is polled; it becomes `o` with the slots and `o'` on an error. -/
def Sys.reserving (s : Sys T) (j : ℕ) (permits : ℕ) (cx : Waker) (o o' : Obj T) :
    Sys T × List (Ev T) :=
  let r := Shared.pollReserve s.inner permits cx
  let s' := { s with inner := r.2 }
  match r.1 with
  | .ok => (s'.put j o, [])
  | .full => (s', [])
  | .closed => (s'.put j o', [])

/-- A poll of a reservation. -/
def Sys.pollReserve (s : Sys T) (j : ℕ) (cx : Waker) : Option (Sys T × List (Ev T)) :=
  match s.objs[j]? with
  | some (.reserve tx) => some (s.reserving j 1 cx (.permit tx) .gone)
  | some (.reserveMany tx permits) =>
    some (s.reserving j permits cx (.permitIterator tx permits) .gone)
  | some .reserveOwned => some (s.reserving j 1 cx .ownedPermit .dropping)
  | _ => none

/-- A permit is used. -/
def Sys.permitSend (s : Sys T) (j : ℕ) (v : T) : Option (Sys T × List (Ev T)) :=
  let sent := fun o : Obj T => (sendReserved s.inner v).map fun r =>
    (s.put j o).sent v (.accepted, r)
  match s.objs[j]? with
  | some (.permit _) => sent .gone
  | some .ownedPermit => sent .sender
  | _ => none

/-- The slots of `j` are released and it becomes `o`. -/
def Sys.release (s : Sys T) (j permits : ℕ) (o : Obj T) : Option (Sys T × List (Ev T)) :=
  (releaseReserved s.inner permits).map fun r =>
    ({ s with inner := r.1, objs := s.objs.set j o }, r.2)

/-- The drop of a strong sender, held by the object `j`. -/
def Sys.dropSender (s : Sys T) (j : ℕ) : Option (Sys T × List (Ev T)) :=
  (Shared.dropSender s.inner).map fun r =>
    ({ s with inner := r.1, objs := s.objs.set j .gone }, r.2)

/-- The object `j` is dropped.  A future is not dropped in the middle of a poll, nor a call of
`blocking_send`. -/
def Sys.drop (s : Sys T) (j : ℕ) : Option (Sys T × List (Ev T)) :=
  match s.objs[j]? with
  | some .sender => if s.unborrowed j then s.dropSender j else none
  | some .dropping => s.dropSender j
  | some .reserveOwned => s.dropSender j
  | some (.permit _) => s.release j 1 .gone
  | some (.permitIterator _ remaining) => s.release j remaining .gone
  | some .ownedPermit => s.release j 1 .dropping
  | some (.send _ op v) => some (s.put j .gone, [.settled op v .dropped])
  | some (.sendTimeout op (some v) false) => some (s.put j .gone, [.settled op v .dropped])
  | some (.sendTimeout _ none false) => some (s.put j .gone, [])
  | some .weak => some (s.put j .gone, [])
  | some (.reserve _) => some (s.put j .gone, [])
  | some (.reserveMany _ _) => some (s.put j .gone, [])
  | some .closedFuture => some (s.put j .gone, [])
  | _ => none

/-! ## The receiver -/

/-- The receiver gets on with the result of a look at the queue: with a value it becomes `got`, at
the end it is idle, and `wait` is what it does otherwise. -/
def Sys.taken (s : Sys T) (r : Taken T) (got : Rx) (wait : Sys T × List (Ev T)) :
    Sys T × List (Ev T) :=
  match r with
  | .value v i es => ({ s with inner := i, rx := got }, .received v :: es)
  | .ended => ({ s with rx := .idle }, [.ended])
  | .empty => wait

/-- The receiver leaves its waker and becomes `rx`. -/
def Sys.waitRecv (s : Sys T) (cx : Waker) (rx : Rx) : Sys T × List (Ev T) :=
  ({ s with inner := Shared.waitRecv s.inner cx, rx := rx }, [.recvRegistered])

/-- The receiver waits on the condition variable. -/
def Sys.parkRecv (s : Sys T) (limit : Option ℕ) : Sys T × List (Ev T) :=
  ({ s with rx := .blocking limit }, [.parked .receiver])

/-- What a first value leads to: further rounds, if there is a limit. -/
def afterFirst : Option ℕ → Rx
  | none => .idle
  | some limit => .draining limit 1

/-- One round of `blocking_recv` or `blocking_recv_many`. -/
def Sys.blockingRound (s : Sys T) (limit : Option ℕ) : Sys T × List (Ev T) :=
  s.taken (blockingRecv s.inner) (afterFirst limit) (s.parkRecv limit)

/-- `poll_recv_many_shared` with a positive limit. -/
def Sys.pollRecvMany (s : Sys T) (cx : Waker) (limit : ℕ) : Sys T × List (Ev T) :=
  let (vs, q) := popUpTo limit s.inner.queue
  if vs ≠ [] then
    ({ s with inner := { s.inner with queue := q, sendWakers := [] } },
      vs.map .received ++ wakeSend s.inner ++ [.broadcast])
  else if s.inner.finished then (s, [.ended])
  else s.waitRecv cx .idle

/-- A poll of a receive. -/
def Sys.pollRx (s : Sys T) (cx : Waker) : Option (Sys T × List (Ev T)) :=
  match s.rx with
  | .recv => some (s.taken (pollRecvShared s.inner) .idle (s.waitRecv cx .recv))
  | .recvMany 0 => some ({ s with rx := .idle }, [])
  | .recvMany (limit + 1) =>
    some (s.taken (pollRecvShared s.inner) (.draining (limit + 1) 1)
      (s.waitRecv cx (.recvMany (limit + 1))))
  | .recvTimeout false =>
    some (s.taken (pollRecvTimeout s.inner) .idle (s.waitRecv cx (.recvTimeout true)))
  | _ => none

/-- One more round of `recv_many` or `blocking_recv_many`; an error ends the loop. -/
def Sys.drain (s : Sys T) : Option (Sys T × List (Ev T)) :=
  match s.rx with
  | .draining limit got =>
    if got < limit then
      match tryRecv s.inner with
      | .value v i es =>
        some ({ s with inner := i, rx := .draining limit (got + 1) }, .received v :: es)
      | _ => some ({ s with rx := .idle }, [])
    else some ({ s with rx := .idle }, [])
  | _ => none

/-! ## The steps -/

/-- `r`, if it may happen. -/
def guarded {α : Type*} (b : Bool) (r : α) : Option α := if b then some r else none

def step (s : Sys T) : Op T → Option (Sys T × List (Ev T))
  | .trySend tx v => guarded (s.isBounded tx) (s.sent v (trySend s.inner v))
  | .blockingSend tx v =>
    guarded (s.isBounded tx)
      (if (blockingSend s.inner v).1 = .full then
        s.begun v (.blockingSend tx s.sends v) [.parked (.sender s.objs.length)]
      else s.sent v (blockingSend s.inner v))
  | .resumeSend j =>
    match s.objs[j]? with
    | some (.blockingSend tx op v) =>
      some (s.settle j op v (blockingSend s.inner v) .gone (.blockingSend tx op v)
        [.parked (.sender j)])
    | _ => none
  | .send tx v => guarded (s.isBounded tx) (s.begun v (.send tx s.sends v) [])
  | .sendTimeout tx v =>
    guarded (s.isBounded tx) (s.begun v (.sendTimeout s.sends (some v) false) [])
  | .pollSend j cx => s.pollSend j cx
  | .pollSleep j elapsed => s.pollSleep j elapsed
  | .unboundedSend tx v =>
    guarded (!s.inner.capacity.isSome && s.isSender tx) (s.sent v (unboundedSend s.inner v))
  | .tryReserve tx =>
    guarded (s.isBounded tx)
      (let r := reserveNow s.inner 1
       if r.1 = .ok then ({ s with inner := r.2 }.add (.permit tx), []) else (s, []))
  | .tryReserveMany tx permits =>
    guarded (s.isBounded tx)
      (let r := reserveNow s.inner permits
       if r.1 = .ok then ({ s with inner := r.2 }.add (.permitIterator tx permits), [])
       else (s, []))
  | .tryReserveOwned tx =>
    guarded (s.isBounded tx && s.unborrowed tx)
      (let r := reserveNow s.inner 1
       if r.1 = .ok then ({ s with inner := r.2 }.put tx .ownedPermit, []) else (s, []))
  | .reserve tx => guarded (s.isBounded tx) (s.add (.reserve tx), [])
  | .reserveMany tx permits => guarded (s.isBounded tx) (s.add (.reserveMany tx permits), [])
  | .reserveOwned tx =>
    guarded (s.isBounded tx && s.unborrowed tx) (s.put tx .reserveOwned, [])
  | .pollReserve j cx => s.pollReserve j cx
  | .permitSend j v => s.permitSend j v
  | .permitNext j =>
    match s.objs[j]? with
    | some (.permitIterator tx (remaining + 1)) =>
      some ((s.put j (.permitIterator tx remaining)).add (.permit tx), [])
    | some (.permitIterator _ 0) => some (s, [])
    | _ => none
  | .permitRelease j =>
    match s.objs[j]? with
    | some .ownedPermit => s.release j 1 .sender
    | _ => none
  | .clone tx => guarded (s.isSender tx) ({ s with inner := addSender s.inner }.add .sender, [])
  | .downgrade tx => guarded (s.isSender tx) (s.add .weak, [])
  | .cloneWeak j =>
    match s.objs[j]? with
    | some .weak => some (s.add .weak, [])
    | _ => none
  | .upgrade j =>
    match s.objs[j]? with
    | some .weak =>
      match Shared.upgrade s.inner with
      | some i => some ({ s with inner := i }.add .sender, [])
      | none => some (s, [])
    | _ => none
  | .closed tx => guarded (s.isSender tx) (s.add .closedFuture, [])
  | .pollClosed j cx =>
    match s.objs[j]? with
    | some .closedFuture =>
      match Shared.pollClosed s.inner cx with
      | some i => some ({ s with inner := i }, [])
      | none => some (s, [])
    | _ => none
  | .drop j => s.drop j
  | .tryRecv => guarded (s.rx = .idle) (s.taken (tryRecv s.inner) .idle (s, []))
  | .pollRecv cx =>
    guarded (s.rx = .idle) (s.taken (pollRecvShared s.inner) .idle (s.waitRecv cx .idle))
  | .pollRecvMany cx limit =>
    guarded (s.rx = .idle) (if limit = 0 then (s, []) else s.pollRecvMany cx limit)
  | .recv => guarded (s.rx = .idle) ({ s with rx := .recv }, [])
  | .recvMany limit => guarded (s.rx = .idle) ({ s with rx := .recvMany limit }, [])
  | .recvTimeout => guarded (s.rx = .idle) ({ s with rx := .recvTimeout false }, [])
  | .pollRx cx => s.pollRx cx
  | .sleepRx elapsed =>
    guarded (s.rx = .recvTimeout true)
      ({ s with rx := if elapsed then .idle else .recvTimeout false }, [])
  | .drain => s.drain
  | .dropRx =>
    match s.rx with
    | .recv | .recvMany _ | .recvTimeout false => some ({ s with rx := .idle }, [])
    | _ => none
  | .blockingRecv => guarded (s.rx = .idle) (s.blockingRound none)
  | .blockingRecvMany limit =>
    guarded (s.rx = .idle) (if limit = 0 then (s, []) else s.blockingRound (some limit))
  | .resumeRecv =>
    match s.rx with
    | .blocking limit => some (s.blockingRound limit)
    | _ => none
  | .close =>
    guarded (s.rx = .idle)
      (let r := shut s.inner
       ({ s with inner := r.1 }, .closeCalled :: r.2))
  | .dropReceiver =>
    guarded (s.rx = .idle)
      (let r := shut s.inner
       ({ s with inner := r.1, rx := .dropped }, .receiverDropped :: r.2))

/-- The number of live strong senders, those inside owned permits and futures included. -/
def Sys.senders (s : Sys T) : ℕ := s.objs.countP Obj.isSender

/-- The slots reserved. -/
def Sys.slots (s : Sys T) : ℕ := total Obj.slots s.objs

end OhosFfrt.Mpsc.System
