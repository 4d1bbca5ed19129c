import OhosFfrt.Basic
import OhosFfrt.Lib.Runs

/-!
# `sync::Notify`: the state, its sections and the steps of a run

`NotifyState` is what the FFRT mutex protects.  A future shares a flag with the queue: the queue
holds a weak reference to it, and the flags are only read and written in sections under the mutex,
so a section is a function on the state together with the futures.  `upgrade` of a weak reference
succeeds as long as its future is `live`.  `Notified` and `OwnedNotified` have the same code.
-/

namespace OhosFfrt.Notify.System

open Basic

/-- How a future was notified. -/
inductive Flag
  | waiting
  | one
  | all
  | consumed
  deriving DecidableEq, Repr

/-- `Waiter`: the future it belongs to, and its waker; `none` is `Waker::noop`. -/
structure Waiter where
  notified : ℕ
  waker : Option Waker
  deriving DecidableEq, Repr

structure NotifyState where
  permit : Bool
  generation : ℕ
  waiters : List Waiter
  deriving DecidableEq, Repr

/-- `FutureState`; a dropped future is not `live`. -/
structure FutureState where
  notified : Flag
  generation : ℕ
  live : Bool
  deriving DecidableEq, Repr

/-- The state and the futures. -/
structure Sys where
  state : NotifyState
  futures : List FutureState
  deriving DecidableEq, Repr

inductive Ev
  | created (f : ℕ)
  | registered (f : ℕ)
  /-- `notify_one`, or `notify_last` if `last`. -/
  | called (last : Bool)
  /-- `notify_waiters`. -/
  | broadcast
  | selected (f : ℕ)
  | stored
  /-- A notification finds no waiter and the permit already stored. -/
  | absorbed
  /-- A poll consumes the notification its future was selected for. -/
  | tookOne (f : ℕ)
  | tookPermit (f : ℕ)
  /-- A selected future is dropped and hands its notification on. -/
  | forwarded (f : ℕ)
  | woke (w : Waker)
  deriving DecidableEq, Repr

/-- `Notify::const_new`, which `new` calls. -/
def new : Sys := { state := { permit := false, generation := 0, waiters := [] }, futures := [] }

/-! ## The sections -/

/-- The event of a wake-up, if any. -/
def wake (w : Option Waker) : List Ev := w.toList.map .woke

/-- The future `i` is notified. -/
def setFlag (fs : List FutureState) (i : ℕ) (flag : Flag) : List FutureState :=
  match fs[i]? with
  | some fut => fs.set i { fut with notified := flag }
  | none => fs

/-- The weak reference to the flag of the future `i` can be upgraded. -/
def alive (fs : List FutureState) (i : ℕ) : Bool := fs[i]?.any FutureState.live

/-- The waiter of `f` is removed. -/
def removeWaiter (st : NotifyState) (f : ℕ) : NotifyState :=
  { st with waiters := st.waiters.filter fun w => w.notified ≠ f }

/-- The loop of `notify_locked`: the first waiter whose future is still there, and the waiters after
it. -/
def pop (fs : List FutureState) : List Waiter → Option Waiter × List Waiter
  | [] => (none, [])
  | w :: ws => if alive fs w.notified then (some w, ws) else pop fs ws

/-- `notify_locked`.  Popping at the back is popping at the front of the reversed queue. -/
def notifyLocked (s : Sys) (last : Bool) : Sys × List Ev :=
  let r :=
    if last then
      let r := pop s.futures s.state.waiters.reverse
      (r.1, r.2.reverse)
    else pop s.futures s.state.waiters
  match r.1 with
  | some w =>
    ({ state := { s.state with waiters := r.2 }
       futures := setFlag s.futures w.notified .one }, .selected w.notified :: wake w.waker)
  | none =>
    ({ s with state := { s.state with permit := true, waiters := r.2 } },
      [if s.state.permit then .absorbed else .stored])

/-- The loop of `notify_waiters` over the drained waiters. -/
def notifyAll : List FutureState → List Waiter → List FutureState × List Ev
  | fs, [] => (fs, [])
  | fs, w :: ws =>
    if alive fs w.notified then
      let r := notifyAll (setFlag fs w.notified .all) ws
      (r.1, wake w.waker ++ r.2)
    else notifyAll fs ws

/-- `Notify::notify_waiters`. -/
def notifyWaiters (s : Sys) : Sys × List Ev :=
  let r := notifyAll s.futures s.state.waiters
  ({ state := { s.state with generation := (s.state.generation + 1) % 2 ^ 64, waiters := [] }
     futures := r.1 }, .broadcast :: r.2)

/-- The outcome of a poll, the `Notify` with its futures, and the events. -/
structure Polled where
  ready : Bool
  sys : Sys
  events : List Ev

/-- The poll is over: the future leaves the queue and its flag is `CONSUMED`. -/
def complete (s : Sys) (f : ℕ) : Sys where
  state := removeWaiter s.state f
  futures := setFlag s.futures f .consumed

/-- A poll that stays pending: the waiter's waker is replaced, or a waiter joins the queue. -/
def enqueue (st : NotifyState) (f : ℕ) (waker : Option Waker) : NotifyState × List Ev :=
  match st.waiters.findIdx? fun w => w.notified = f with
  | some p =>
    match waker with
    | some cx =>
      ({ st with waiters := st.waiters.modify p fun w => { w with waker := some cx } }, [])
    | none => (st, [])
  | none => ({ st with waiters := st.waiters ++ [⟨f, waker⟩] }, [.registered f])

/-- `Notify::poll_notified` of the future `f`. -/
def pollNotified (s : Sys) (f : ℕ) (fut : FutureState) (waker : Option Waker) : Polled :=
  if fut.notified ≠ .waiting ∨ fut.generation ≠ s.state.generation then
    { ready := true
      sys := complete s f
      events := if fut.notified = .one then [.tookOne f] else [] }
  else if s.state.permit then
    { ready := true
      sys := complete { s with state := { s.state with permit := false } } f
      events := [.tookPermit f] }
  else
    let r := enqueue s.state f waker
    { ready := false, sys := { s with state := r.1 }, events := r.2 }

/-- `Drop` for `Notified`. -/
def cancel (s : Sys) (f : ℕ) (fut : FutureState) : Sys × List Ev :=
  let s' := { s with state := removeWaiter s.state f }
  if fut.notified = .one then
    let r := notifyLocked s' false
    (r.1, .forwarded f :: r.2)
  else (s', [])

/-! ## Steps -/

inductive Op
  | notified
  | poll (f : ℕ) (cx : Waker)
  | enable (f : ℕ)
  | dropFuture (f : ℕ)
  | notifyOne
  | notifyLast
  | notifyWaiters
  deriving DecidableEq, Repr

/-- The future `f`, if it is alive. -/
def Sys.future? (s : Sys) (f : ℕ) : Option FutureState := s.futures[f]?.filter FutureState.live

/-- The future `f` is gone. -/
def release (fs : List FutureState) (f : ℕ) : List FutureState :=
  match fs[f]? with
  | some fut => fs.set f { fut with live := false }
  | none => fs

/-- `notify_one` or `notify_last`. -/
def notify (s : Sys) (last : Bool) : Sys × List Ev :=
  let r := notifyLocked s last
  (r.1, .called last :: r.2)

def step (s : Sys) : Op → Option (Sys × List Ev)
  | .notified =>
    some ({ s with futures := s.futures ++ [⟨.waiting, s.state.generation, true⟩] },
      [.created s.futures.length])
  | .poll f cx =>
    (s.future? f).map fun fut =>
      let r := pollNotified s f fut (some cx)
      (r.sys, r.events)
  | .enable f =>
    (s.future? f).map fun fut =>
      let r := pollNotified s f fut none
      (r.sys, r.events)
  | .dropFuture f =>
    (s.future? f).map fun fut =>
      let r := cancel s f fut
      ({ r.1 with futures := release r.1.futures f }, r.2)
  | .notifyOne => some (notify s false)
  | .notifyLast => some (notify s true)
  | .notifyWaiters => some (notifyWaiters s)

end OhosFfrt.Notify.System
