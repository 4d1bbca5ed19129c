import OhosFfrt.Basic
import OhosFfrt.Lib.FifoLock

/-!
# `sync::Mutex`: the state and the sections under its FFRT mutex

`MutexState` is what the FFRT mutex protects; each function is one section under it with the wake-up
that follows.  Besides the events of the queue the trace has the acts of the lockers at the lock
(`Lib.FifoLock.Act`).
-/

namespace OhosFfrt.Mutex.State

open Basic Lib.WaitQueue Lib.FifoLock

abbrev MutexWaiter := Waiter Unit Waker

abbrev Ev := Event Waker (Act ℕ)

structure MutexState where
  locked : Bool
  nextWaiter : ℕ
  waiters : List MutexWaiter
  deriving DecidableEq, Repr

/-- `Mutex::const_new`, which `new` calls. -/
def constNew : MutexState := { locked := false, nextWaiter := 1, waiters := [] }

/-- `Mutex::try_lock` and `try_lock_owned`; `none` is `TryLockError`. -/
def tryLock (s : MutexState) : Option MutexState :=
  if s.locked || !s.waiters.isEmpty then none else some { s with locked := true }

/-- The outcome of a poll, what the future's `waiter` becomes, the state and the events. -/
structure Polled where
  ready : Bool
  waiter : Option ℕ
  state : MutexState
  events : List Ev

/-- `Mutex::poll_lock` from the point where the future has no waiter in the queue. -/
def pollFresh (s : MutexState) (cx : Waker) : Polled :=
  if !s.locked && s.waiters.isEmpty then
    { ready := true, waiter := none, state := { s with locked := true }, events := [.barged] }
  else
    { ready := false
      waiter := some s.nextWaiter
      state := { s with
        nextWaiter := nextId s.nextWaiter
        waiters := s.waiters ++ [⟨s.nextWaiter, (), cx⟩] }
      events := [.registered s.nextWaiter] }

def pollLock (s : MutexState) (waiterId : Option ℕ) (cx : Waker) : Polled :=
  match waiterId with
  | none => pollFresh s cx
  | some id =>
    match position s.waiters id with
    | none => pollFresh s cx
    | some p =>
      if p = 0 ∧ s.locked = false then
        { ready := true
          waiter := none
          state := { s with locked := true, waiters := s.waiters.tail }
          events := [.granted id] }
      else
        { ready := false
          waiter := some id
          state := { s with waiters := setWaker s.waiters p cx }
          events := [.polled id] }

def cancelWaiter (s : MutexState) (waiterId : Option ℕ) : MutexState × List Ev :=
  match waiterId with
  | none => (s, [])
  | some id =>
    let wasFront := s.waiters.head?.any fun w => w.id = id
    let r : MutexState × List Ev :=
      match position s.waiters id with
      | some p => ({ s with waiters := s.waiters.eraseIdx p }, [.cancelled id])
      | none => (s, [])
    let waker := if wasFront && !r.1.locked then r.1.waiters.head?.map Waiter.waker else none
    (r.1, r.2 ++ wake waker)

def unlock (s : MutexState) : MutexState × List Ev :=
  ({ s with locked := false }, wake (s.waiters.head?.map Waiter.waker))

end OhosFfrt.Mutex.State
