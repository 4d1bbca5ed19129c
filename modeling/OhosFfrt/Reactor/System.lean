import OhosFfrt.Lib.Runs
import OhosFfrt.Reactor.State

/-!
# `reactor`: the steps of a run

A run interleaves the sections of `poll_ready`, `readiness_callback`, `clear_ready`, `deregister`
and of the calls of `wake_ready` in any order.  A call of `wake_ready` loads the readiness, then
takes lists of wakers under their lock, and then wakes them one by one.

A callback may bring any events at any time, as one does that was fetched before the descriptor was
disarmed, and `clear_ready` may be called with any readiness and generation.
-/

namespace OhosFfrt.Reactor.System

open Basic Reactor.State

/-- Where a `wake_ready` is. -/
inductive Wake
  | start
  /-- It has loaded the readiness. -/
  | loaded (ready : Mask)
  /-- It has taken wakers, and these are still to be woken. -/
  | waking (ws : List Waker)
  deriving DecidableEq, Repr

/-- A registered descriptor and the calls of `wake_ready` for it. -/
structure Sys where
  io : ScheduledIo
  wakes : List Wake
  deriving DecidableEq, Repr

inductive Ev
  | pending (w : Waker) (i : Interest)
  | ready (w : Waker) (i : Interest) (ready : Mask) (generation : BitVec 32)
  | woke (w : Waker)
  deriving DecidableEq, Repr

inductive Op
  | pollReady (w : Waker) (i : Interest)
  | callback (events : Mask) (ctl : Ctl)
  | clearReady (ready : Mask) (generation : BitVec 32) (ctl : Ctl)
  | deregister (del : Bool)
  /-- The call `k` of `wake_ready` loads the readiness. -/
  | load (k : ℕ)
  | take (k : ℕ)
  | wake (k : ℕ)
  deriving DecidableEq, Repr

def new (fd : Int) (interest : Interest) (ctl : Ctl) : Option Sys :=
  (register fd interest ctl).map fun io => ⟨io, []⟩

/-- The calls of `wake_ready` after a section, which goes on to one if `more`. -/
def Sys.andWake (s : Sys) (io : ScheduledIo) (more : Bool) : Sys :=
  ⟨io, if more then s.wakes ++ [.start] else s.wakes⟩

def step (s : Sys) : Op → Option (Sys × List Ev)
  | .pollReady w i =>
    match s.io.pollReady w i with
    | (some (ready, generation), io) => some (⟨io, s.wakes⟩, [.ready w i ready generation])
    | (none, io) => some (⟨io, s.wakes⟩, [.pending w i])
  | .callback events ctl =>
    match s.io.callback events ctl with
    | some io => some (s.andWake io true, [])
    | none => some (s, [])
  | .clearReady ready generation ctl =>
    let r := s.io.clearReady ready generation ctl
    some (s.andWake r.1 (!r.2), [])
  | .deregister del => some (⟨s.io.deregister del, s.wakes⟩, [])
  | .load k =>
    match s.wakes[k]? with
    | some .start => some (⟨s.io, s.wakes.set k (.loaded s.io.ready)⟩, [])
    | _ => none
  | .take k =>
    match s.wakes[k]? with
    | some (.loaded ready) =>
      let r := s.io.takeReady ready
      some (⟨r.2, s.wakes.set k (.waking r.1)⟩, [])
    | _ => none
  | .wake k =>
    match s.wakes[k]? with
    | some (.waking (w :: ws)) => some (⟨s.io, s.wakes.set k (.waking ws)⟩, [.woke w])
    | _ => none

/-- The wakers that a call of `wake_ready` takes, if it goes on now. -/
def Wake.taking (io : ScheduledIo) : Wake → List Waker
  | .start => (io.takeReady io.ready).1
  | .loaded ready => (io.takeReady ready).1
  | .waking ws => ws

end OhosFfrt.Reactor.System
