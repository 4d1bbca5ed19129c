import OhosFfrt.Basic
import OhosFfrt.Lib.WaitQueue

/-!
# `sync::RwLock`: the state and the sections under its mutex

`RwLockState` is what the lock's FFRT mutex protects, and each function here is one section under
that mutex, with the wake-up that follows it.  A poll that returns `Ready` creates its guard in the
same step.  The request of a waiter is its kind.
-/

namespace OhosFfrt.RwLock.State

open Basic Lib.WaitQueue

inductive RwLockWaiterKind
  | read
  | write
  deriving DecidableEq, Repr

/-- `RwLockWaiter`: its field `kind` is the request. -/
abbrev RwLockWaiter := Waiter RwLockWaiterKind Waker

abbrev Ev := Event Waker Empty

structure RwLockState where
  readers : ℕ
  maxReaders : ℕ
  writer : Bool
  nextWaiter : ℕ
  waiters : List RwLockWaiter
  deriving DecidableEq, Repr

/-- `RwLock::MAX_READERS`, that is `u32::MAX >> 3`. -/
def maxReadersLimit : ℕ := (2 ^ 32 - 1) >>> 3

/-- `RwLock::const_with_max_readers`, which `with_max_readers` calls; `none` is a failed
assertion. -/
def constWithMaxReaders (maxReads : ℕ) : Option RwLockState :=
  if 0 < maxReads ∧ maxReads ≤ maxReadersLimit then
    some { readers := 0, maxReaders := maxReads, writer := false, nextWaiter := 1, waiters := [] }
  else none

def canAcquire (s : RwLockState) : RwLockWaiterKind → Bool
  | .read => !s.writer && decide (s.readers < s.maxReaders)
  | .write => !s.writer && decide (s.readers = 0)

def nextWaker (s : RwLockState) : Option Waker :=
  Lib.WaitQueue.nextWaker (canAcquire s) s.waiters

def acquire (s : RwLockState) : RwLockWaiterKind → RwLockState
  | .read => { s with readers := s.readers + 1 }
  | .write => { s with writer := true }

/-- The outcome of a poll: whether it is `Ready`, what the future's `waiter` becomes, the state and
the events. -/
structure Polled where
  ready : Bool
  waiter : Option ℕ
  state : RwLockState
  events : List Ev

/-- `RwLock::poll_lock` from the point where the future has no waiter in the queue. -/
def pollFresh (s : RwLockState) (kind : RwLockWaiterKind) (cx : Waker) : Polled :=
  if s.waiters.isEmpty && canAcquire s kind then
    { ready := true, waiter := none, state := acquire s kind, events := [.barged] }
  else
    { ready := false
      waiter := some s.nextWaiter
      state := { s with
        nextWaiter := nextId s.nextWaiter
        waiters := s.waiters ++ [⟨s.nextWaiter, kind, cx⟩] }
      events := [.registered s.nextWaiter] }

/-- The front waiter acquires. -/
def popAcquire (s : RwLockState) (kind : RwLockWaiterKind) : RwLockState :=
  acquire { s with waiters := s.waiters.tail } kind

def pollLock (s : RwLockState) (waiterId : Option ℕ) (kind : RwLockWaiterKind) (cx : Waker) :
    Polled :=
  match waiterId with
  | none => pollFresh s kind cx
  | some id =>
    match position s.waiters id with
    | none => pollFresh s kind cx
    | some p =>
      if p = 0 ∧ canAcquire s kind then
        { ready := true
          waiter := none
          state := popAcquire s kind
          -- only a reader passes the baton on: after a writer nobody can acquire
          events := .granted id ::
            wake (if kind = .read then nextWaker (popAcquire s kind) else none) }
      else
        { ready := false
          waiter := some id
          state := { s with waiters := setWaker s.waiters p cx }
          events := [.polled id] }

def cancelWaiter (s : RwLockState) (waiterId : Option ℕ) : RwLockState × List Ev :=
  match waiterId with
  | none => (s, [])
  | some id =>
    match position s.waiters id with
    | some p =>
      let s' := { s with waiters := s.waiters.eraseIdx p }
      (s', .cancelled id :: wake (nextWaker s'))
    | none => (s, wake (nextWaker s))

/-- `RwLock::release_read`; `none` is an underflow of `readers`. -/
def releaseRead (s : RwLockState) : Option (RwLockState × List Ev) :=
  (checkedSub s.readers 1).map fun readers =>
    let s' := { s with readers := readers }
    (s', wake (if readers = 0 then nextWaker s' else none))

def releaseWrite (s : RwLockState) : RwLockState × List Ev :=
  let s' := { s with writer := false }
  (s', wake (nextWaker s'))

def downgradeWrite (s : RwLockState) : RwLockState × List Ev :=
  let s' := { s with writer := false, readers := s.readers + 1 }
  (s', wake (nextWaker s'))

/-- `RwLock::try_read` and `RwLock::try_read_owned`; `none` is `TryLockError`. -/
def tryRead (s : RwLockState) : Option RwLockState :=
  if s.writer || !s.waiters.isEmpty then none else some { s with readers := s.readers + 1 }

/-- `RwLock::try_write` and `RwLock::try_write_owned`; `none` is `TryLockError`. -/
def tryWrite (s : RwLockState) : Option RwLockState :=
  if s.writer || decide (s.readers ≠ 0) || !s.waiters.isEmpty then none
  else some { s with writer := true }

end OhosFfrt.RwLock.State
