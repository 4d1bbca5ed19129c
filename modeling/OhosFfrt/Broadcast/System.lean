import OhosFfrt.Lib.Arena
import OhosFfrt.Lib.Runs
import OhosFfrt.Broadcast.State

/-!
# `sync::broadcast`: handles and the steps of a run

Senders and receivers live in arenas; weak senders are only counted.  A `recv` future borrows its
receiver: while it is there the receiver is used through it only.
-/

namespace OhosFfrt.Broadcast.System

open Basic Broadcast.State

/-- `Receiver`; `recv` tells whether a `recv` future borrows it, a dropped one is not `live`. -/
structure Receiver where
  nextSeq : ℕ
  recv : Bool
  live : Bool
  deriving DecidableEq, Repr

/-- The channel and its handles. -/
structure Sys (T : Type*) where
  state : BroadcastState T
  senders : List Bool
  weaks : ℕ
  receivers : List Receiver
  deriving DecidableEq, Repr

variable {T : Type*}

/-- `broadcast::channel`. -/
def channel (capacity : ℕ) : Option (Sys T) :=
  (BroadcastState.new capacity 1).map fun state =>
    { state := state, senders := [true], weaks := 0, receivers := [⟨0, false, true⟩] }

/-- `Sender::new`. -/
def senderNew (capacity : ℕ) : Option (Sys T) :=
  (BroadcastState.new capacity 0).map fun state =>
    { state := state, senders := [true], weaks := 0, receivers := [] }

inductive Op (T : Type*)
  | send (i : ℕ) (v : T)
  | subscribe (i : ℕ)
  | cloneSender (i : ℕ)
  | dropSender (i : ℕ)
  | downgrade (i : ℕ)
  | pollClosed (i : ℕ) (cx : Waker)
  | upgrade
  | cloneWeak
  | dropWeak
  | recv (r : ℕ)
  | pollRecv (r : ℕ) (cx : Waker)
  | dropRecv (r : ℕ)
  | tryRecv (r : ℕ)
  /-- One round of the loop of `blocking_recv`. -/
  | blockingRecv (r : ℕ)
  | resubscribe (r : ℕ)
  | cloneReceiver (r : ℕ)
  | dropReceiver (r : ℕ)
  deriving DecidableEq, Repr

def Sys.liveSenders (s : Sys T) : ℕ := s.senders.countP id

def Sys.liveReceivers (s : Sys T) : ℕ := s.receivers.countP Receiver.live

/-- Some handle is alive. -/
def Sys.alive (s : Sys T) : Bool := s.senders.any id || s.receivers.any Receiver.live

/-- The sender `i` is alive. -/
def Sys.hasSender (s : Sys T) (i : ℕ) : Bool := s.senders[i]? = some true

/-- The live receiver `r`, which is borrowed by a `recv` future if `recv`. -/
def Sys.receiver? (s : Sys T) (r : ℕ) (recv : Bool) : Option Receiver :=
  s.receivers[r]?.filter fun rx => rx.live && rx.recv = recv

def Sys.addSender (s : Sys T) : Sys T :=
  { s with
    state := { s.state with senders := s.state.senders + 1 }
    senders := s.senders ++ [true] }

/-- `subscribe`, `resubscribe` and `Clone for Receiver`: a receiver that starts at the end of the
sequence. -/
def Sys.addReceiver (s : Sys T) : Sys T × List (Ev T) :=
  ({ s with
     state := { s.state with receivers := s.state.receivers + 1 }
     receivers := s.receivers ++ [⟨s.state.nextSeq, false, true⟩] },
    [.subscribed s.receivers.length])

/-- What `try_recv` returns. -/
def reportTry (r : ℕ) : Except TryRecvError T → Ev T
  | .ok v => .received r v
  | .error .empty => .empty r
  | .error .closed => .closed r
  | .error (.lagged n) => .lagged r n

/-- What a poll of `recv` returns. -/
def reportPoll (r : ℕ) (cx : Waker) : Option (Except RecvError T) → Ev T
  | none => .pending r cx
  | some (.ok v) => .received r v
  | some (.error .closed) => .closed r
  | some (.error (.lagged n)) => .lagged r n

/-- `Receiver::try_recv`. -/
def Sys.tryRecv (s : Sys T) (r : ℕ) : Option (Sys T × List (Ev T)) :=
  (s.receiver? r false).map fun rx =>
    let res := tryRecvLocked s.state rx.nextSeq
    ({ s with receivers := s.receivers.set r { rx with nextSeq := res.2 } }, [reportTry r res.1])

def step (s : Sys T) : Op T → Option (Sys T × List (Ev T))
  | .send i v =>
    if s.hasSender i then
      let r := send s.state v
      some ({ s with state := r.1 }, r.2)
    else none
  | .subscribe i => if s.hasSender i then some s.addReceiver else none
  | .cloneSender i => if s.hasSender i then some (s.addSender, []) else none
  | .dropSender i =>
    if s.hasSender i then
      (dropSender s.state).map fun r =>
        ({ s with state := r.1, senders := s.senders.set i false }, r.2)
    else none
  | .downgrade i => if s.hasSender i then some ({ s with weaks := s.weaks + 1 }, []) else none
  | .pollClosed i cx =>
    if s.hasSender i then
      match pollClosed s.state cx with
      | none => some (s, [])
      | some state => some ({ s with state := state }, [])
    else none
  | .upgrade =>
    if s.weaks = 0 then none
    else if s.alive then some (s.addSender, [.upgraded])
    else some (s, [.notUpgraded])
  | .cloneWeak => if s.weaks = 0 then none else some ({ s with weaks := s.weaks + 1 }, [])
  | .dropWeak => if s.weaks = 0 then none else some ({ s with weaks := s.weaks - 1 }, [])
  | .recv r =>
    (s.receiver? r false).map fun rx =>
      ({ s with receivers := s.receivers.set r { rx with recv := true } }, [])
  | .pollRecv r cx =>
    (s.receiver? r true).map fun rx =>
      let res := pollRecv s.state rx.nextSeq cx
      ({ s with
         state := res.2.2
         receivers := s.receivers.set r { rx with nextSeq := res.2.1 } }, [reportPoll r cx res.1])
  | .dropRecv r =>
    (s.receiver? r true).map fun rx =>
      ({ s with receivers := s.receivers.set r { rx with recv := false } }, [.recvDropped r])
  | .tryRecv r | .blockingRecv r => s.tryRecv r
  | .resubscribe r | .cloneReceiver r => (s.receiver? r false).map fun _ => s.addReceiver
  | .dropReceiver r =>
    (s.receiver? r false).bind fun rx =>
      (dropReceiver s.state).map fun res =>
        ({ s with
           state := res.1
           receivers := s.receivers.set r { rx with live := false } }, res.2)

/-- The values accepted. -/
def accepted (tr : List (Ev T)) : List T := tr.filterMap fun | .accepted v _ => some v | _ => none

end OhosFfrt.Broadcast.System
