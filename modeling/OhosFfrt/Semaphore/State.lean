import OhosFfrt.Basic
import OhosFfrt.Lib.WaitQueue

/-!
# `sync::Semaphore`: the state and the sections under its mutex

`SemaphoreState` is what the semaphore's FFRT mutex protects; each function is one section under the
mutex with the wake-ups that follow it.  The request of a waiter is its number of permits.

The mutex is not poisoned by a panic: `add_permits` panics before it has changed anything.
-/

namespace OhosFfrt.Semaphore.State

open Basic Lib.WaitQueue

/-- What happens at a semaphore besides its wait queue. -/
inductive SemEvent
  | added (n : ℕ)
  | addPanicked
  | reduced (n : ℕ)
  | forgot (n : ℕ)
  | lost (n : ℕ)
  | failedClosed
  | failedNoPermits
  deriving DecidableEq, Repr

/-- `SemaphoreWaiter`: its field `permits` is the request. -/
abbrev SemaphoreWaiter := Waiter ℕ Waker

abbrev Ev := Event Waker SemEvent

structure SemaphoreState where
  permits : ℕ
  closed : Bool
  nextWaiter : ℕ
  waiters : List SemaphoreWaiter
  deriving DecidableEq, Repr

/-- `Semaphore::MAX_PERMITS`. -/
def maxPermits : ℕ := usizeMax >>> 3

/-- `Semaphore::const_new`, which `new` calls; `none` is a failed assertion. -/
def constNew (permits : ℕ) : Option SemaphoreState :=
  if permits ≤ maxPermits then
    some { permits := permits, closed := false, nextWaiter := 1, waiters := [] }
  else none

/-- There are enough permits. -/
def enough (s : SemaphoreState) (permits : ℕ) : Bool := decide (permits ≤ s.permits)

def nextWaker (s : SemaphoreState) : Option Waker := Lib.WaitQueue.nextWaker (enough s) s.waiters

/-- `Semaphore::add_permits`; `none` is the panic of its `expect`. -/
def addPermits (s : SemaphoreState) (n : ℕ) : Option (SemaphoreState × List Ev) :=
  ((checkedAdd s.permits n).filter fun permits => permits ≤ maxPermits).map fun permits =>
    let s' := { s with permits := permits }
    (s', wake (nextWaker s'))

def forgetPermits (s : SemaphoreState) (n : ℕ) : SemaphoreState × ℕ :=
  let reduced := min s.permits n
  ({ s with permits := s.permits - reduced }, reduced)

def close (s : SemaphoreState) : SemaphoreState × List Ev :=
  ({ s with closed := true, waiters := [] },
    s.waiters.map (fun w => .cancelled w.id) ++ s.waiters.map fun w => .woke w.waker)

inductive TryAcquireError
  | closed
  | noPermits
  deriving DecidableEq, Repr

def tryTake (s : SemaphoreState) (permits : ℕ) : Except TryAcquireError SemaphoreState :=
  if s.closed then .error .closed
  else if !s.waiters.isEmpty || decide (s.permits < permits) then .error .noPermits
  else .ok { s with permits := s.permits - permits }

/-- The result of a poll: `Pending`, `Ready(Ok)` or `Ready(Err)`. -/
inductive Outcome
  | pending
  | acquired
  | closed
  deriving DecidableEq, Repr

/-- The outcome of a poll, what the future's `waiter` becomes, the state and the events. -/
structure Polled where
  outcome : Outcome
  waiter : Option ℕ
  state : SemaphoreState
  events : List Ev

/-- `Semaphore::poll_acquire` from the point where the future has no waiter in the queue. -/
def pollFresh (s : SemaphoreState) (permits : ℕ) (cx : Waker) : Polled :=
  if s.waiters.isEmpty && enough s permits then
    { outcome := .acquired
      waiter := none
      state := { s with permits := s.permits - permits }
      events := [.barged] }
  else
    { outcome := .pending
      waiter := some s.nextWaiter
      state := { s with
        nextWaiter := nextId s.nextWaiter
        waiters := s.waiters ++ [⟨s.nextWaiter, permits, cx⟩] }
      events := [.registered s.nextWaiter] }

/-- The front waiter takes its permits. -/
def popTake (s : SemaphoreState) (permits : ℕ) : SemaphoreState :=
  { s with waiters := s.waiters.tail, permits := s.permits - permits }

def pollAcquire (s : SemaphoreState) (waiterId : Option ℕ) (permits : ℕ) (cx : Waker) : Polled :=
  if s.closed then
    { outcome := .closed, waiter := none, state := s, events := [.other .failedClosed] }
  else
    match waiterId with
    | none => pollFresh s permits cx
    | some id =>
      match position s.waiters id with
      | none => pollFresh s permits cx
      | some p =>
        if p = 0 ∧ enough s permits then
          { outcome := .acquired
            waiter := none
            state := popTake s permits
            events := .granted id :: wake (nextWaker (popTake s permits)) }
        else
          { outcome := .pending
            waiter := some id
            state := { s with waiters := setWaker s.waiters p cx }
            events := [.polled id] }

def cancelWaiter (s : SemaphoreState) (waiterId : Option ℕ) : SemaphoreState × List Ev :=
  match waiterId with
  | none => (s, [])
  | some id =>
    match position s.waiters id with
    | some p =>
      let s' := { s with waiters := s.waiters.eraseIdx p }
      (s', .cancelled id :: wake (nextWaker s'))
    | none => (s, wake (nextWaker s))

end OhosFfrt.Semaphore.State
