import OhosFfrt.Lib.Arena
import OhosFfrt.Lib.Runs
import OhosFfrt.Watch.State

/-!
# `sync::watch`: handles and the steps of a run

A future of `changed` or `wait_for` borrows its receiver: while it is there the receiver is used
through it only.

`unseen tr r` reads off a trace whether the receiver `r` has an unseen change: an update was
published, or `mark_changed` called, after the last point at which it, or before the clone the
receiver it was cloned from, marked the value as seen.
-/

namespace OhosFfrt.Watch.System

open Basic Watch.State

/-- The future that borrows a receiver. -/
inductive Borrow (T : Type*)
  | free
  | changed
  | waitFor (predicate : T → Bool)

/-- `Receiver`; a dropped one is not `live`. -/
structure Receiver (T : Type*) where
  seen : ℕ
  borrow : Borrow T
  live : Bool

/-- The channel and its handles. -/
structure Sys (T : Type*) where
  state : WatchState T
  senders : List Bool
  receivers : List (Receiver T)

variable {T : Type*}

/-- `watch::channel`. -/
def channel (init : T) : Sys T where
  state := .new init 1
  senders := [true]
  receivers := [⟨0, .free, true⟩]

/-- `Sender::new`. -/
def senderNew (init : T) : Sys T where
  state := .new init 0
  senders := [true]
  receivers := []

inductive Op (T : Type*)
  | send (i : ℕ) (v : T)
  | sendReplace (i : ℕ) (v : T)
  | sendModify (i : ℕ) (f : T → T)
  | sendIfModified (i : ℕ) (f : T → T × Bool)
  | broadcast (i : ℕ) (v : T)
  | subscribe (i : ℕ)
  | cloneSender (i : ℕ)
  | dropSender (i : ℕ)
  | pollClosed (i : ℕ) (cx : Waker)
  | borrow (r : ℕ)
  | borrowAndUpdate (r : ℕ)
  | hasChanged (r : ℕ)
  /-- `mark_seen`, `mark_unchanged` or `borrow_and_update_version`. -/
  | markSeen (r : ℕ)
  | markChanged (r : ℕ)
  | changed (r : ℕ)
  | waitFor (r : ℕ) (predicate : T → Bool)
  | pollChanged (r : ℕ) (cx : Waker)
  | pollWaitFor (r : ℕ) (cx : Waker)
  | dropFuture (r : ℕ)
  | cloneReceiver (r : ℕ)
  | dropReceiver (r : ℕ)

def Sys.liveSenders (s : Sys T) : ℕ := s.senders.countP id

def Sys.liveReceivers (s : Sys T) : ℕ := s.receivers.countP Receiver.live

/-- The sender `i` uses the state. -/
def Sys.sending (s : Sys T) (i : ℕ) (f : WatchState T → WatchState T × List (Ev T)) :
    Option (Sys T × List (Ev T)) :=
  if s.senders[i]? = some true then some ({ s with state := (f s.state).1 }, (f s.state).2)
  else none

/-- The receiver `r`, if it is alive. -/
def Sys.receiver? (s : Sys T) (r : ℕ) : Option (Receiver T) := s.receivers[r]?.filter Receiver.live

/-- The live receiver `r`, which no future borrows. -/
def Sys.free? (s : Sys T) (r : ℕ) : Option (Receiver T) :=
  (s.receiver? r).bind fun rx => match rx.borrow with | .free => some rx | _ => none

/-- The receiver `r` changes. -/
def Sys.put (s : Sys T) (r : ℕ) (rx : Receiver T) : Sys T :=
  { s with receivers := s.receivers.set r rx }

/-- A new receiver that has seen the version `seen`. -/
def Sys.addReceiver (s : Sys T) (seen : ℕ) : Sys T :=
  { s with
    state := { s.state with receivers := s.state.receivers + 1 }
    receivers := s.receivers ++ [⟨seen, .free, true⟩] }

def step (s : Sys T) : Op T → Option (Sys T × List (Ev T))
  | .send i v => s.sending i fun st => send st v
  | .sendReplace i v => s.sending i fun st => sendReplace st v
  | .sendModify i f => s.sending i fun st => sendModify st f
  | .sendIfModified i f => s.sending i fun st => sendIfModified st f
  | .broadcast i v => s.sending i fun st => broadcast st v
  | .subscribe i =>
    if s.senders[i]? = some true then
      some (s.addReceiver s.state.version, [.subscribed s.receivers.length])
    else none
  | .cloneSender i =>
    if s.senders[i]? = some true then
      some ({ s with
        state := { s.state with senders := s.state.senders + 1 }
        senders := s.senders ++ [true] }, [])
    else none
  | .dropSender i =>
    if s.senders[i]? = some true then
      (dropSender s.state).map fun x =>
        ({ s with state := x.1, senders := s.senders.set i false }, x.2)
    else none
  | .pollClosed i cx => s.sending i fun st => ((pollClosed st cx).getD st, [])
  | .borrow r =>
    (s.free? r).map fun rx => (s, [.borrowed r s.state.value (differs s.state rx.seen)])
  | .borrowAndUpdate r =>
    (s.free? r).map fun rx =>
      (s.put r { rx with seen := s.state.version },
        [.updated r s.state.value (differs s.state rx.seen)])
  | .hasChanged r => (s.free? r).map fun rx => (s, [.hasChanged r (hasChanged s.state rx.seen)])
  | .markSeen r =>
    (s.free? r).map fun rx => (s.put r { rx with seen := s.state.version }, [.markedSeen r])
  | .markChanged r =>
    (s.free? r).map fun rx =>
      (s.put r { rx with seen := unseenVersion s.state }, [.markedChanged r])
  | .changed r => (s.free? r).map fun rx => (s.put r { rx with borrow := .changed }, [])
  | .waitFor r p => (s.free? r).map fun rx => (s.put r { rx with borrow := .waitFor p }, [])
  | .pollChanged r cx =>
    (s.receiver? r).bind fun rx =>
      match rx.borrow with
      | .changed =>
        let x := pollChanged s.state r rx.seen cx
        some ({ s with state := x.2.1 }.put r { rx with seen := x.1 }, [x.2.2])
      | _ => none
  | .pollWaitFor r cx =>
    (s.receiver? r).bind fun rx =>
      match rx.borrow with
      | .waitFor p =>
        let x := pollWaitFor s.state r rx.seen p cx
        some ({ s with state := x.2.1 }.put r { rx with seen := x.1 }, [x.2.2])
      | _ => none
  | .dropFuture r =>
    (s.receiver? r).bind fun rx =>
      match rx.borrow with
      | .free => none
      | _ => some (s.put r { rx with borrow := .free }, [.futureDropped r])
  | .cloneReceiver r =>
    (s.free? r).map fun rx => (s.addReceiver rx.seen, [.cloned r s.receivers.length])
  | .dropReceiver r =>
    (s.free? r).bind fun rx =>
      (dropReceiver s.state).map fun x =>
        ({ s with state := x.1 }.put r { rx with live := false }, x.2)

/-! ## Unseen changes -/

/-- What an event does to the receivers with an unseen change. -/
def mark (unseen : ℕ → Bool) : Ev T → ℕ → Bool
  | .published => fun _ => true
  | .subscribed r | .updated r _ _ | .markedSeen r | .changed r | .waited r _ _ =>
    Function.update unseen r false
  | .markedChanged r => Function.update unseen r true
  | .cloned r r' => Function.update unseen r' (unseen r)
  | _ => unseen

/-- **The receivers with an unseen change** after the events of a trace. -/
def unseen (tr : List (Ev T)) : ℕ → Bool := tr.foldl mark fun _ => false

def updates (tr : List (Ev T)) : ℕ := tr.countP fun | .published => true | _ => false

end OhosFfrt.Watch.System
