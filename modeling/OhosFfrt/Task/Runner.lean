import OhosFfrt.Basic
import OhosFfrt.Lib.Runs

/-!
# `runtime` and `task`: runners, their wakers and their aborts

A future is run by `poll_blocking` (`block_on`), by the closure that `spawn_task` submits, which
calls `poll_once`, or by `LocalJoin::poll`, and the closure of a blocking task by the one that
`spawn_blocking_named` submits.  The last three have a `CancellationState`, and end by publishing an
outcome.

Every load and store of an atomic is a step of its own, and so is every section under the mutex of
the slot or of the `WakerState`.  An `abort` keeps the slot locked while it wakes what it has taken
out.  `cond_wait` gives up the mutex and goes to sleep in one step; a signal, or nothing at all,
makes the runner ready to take the mutex again.

What the user's code does is an input: a poll is ready, pending or panics, and dropping a future may
panic.  A panic while another one unwinds ends the process, and so does one that leaves a submitted
closure: there is no step for it.
-/

namespace OhosFfrt.Task.Runner

open Basic

/-- `JoinErrorKind`; a panic without its payload. -/
inductive JoinErrorKind
  | cancelled
  | panic
  | other (message : String)
  deriving DecidableEq, Repr

structure JoinError where
  id : ℕ
  kind : JoinErrorKind
  deriving DecidableEq, Repr

/-- `runtime::Result`. -/
abbrev Result (T : Type*) := Except JoinError T

/-- What runs the task. -/
inductive Kind
  /-- `poll_blocking`. -/
  | blockOn
  /-- The closure of `spawn_task`. -/
  | async
  /-- The closure of `spawn_blocking_named`. -/
  | blocking
  | localJoin
  deriving DecidableEq, Repr

/-- `CancellationState`, with the call of `abort` that has its slot locked. -/
structure CancellationState where
  cancelled : Bool
  finished : Bool
  waker : Option Waker
  lock : Option ℕ
  id : ℕ
  deriving DecidableEq, Repr

/-- `CancellationState::new`. -/
def CancellationState.new (id : ℕ) : CancellationState where
  cancelled := false
  finished := false
  waker := none
  lock := none
  id := id

def CancellationState.register (state : CancellationState) (waker : Waker) : CancellationState :=
  if state.waker.all fun registered => registered ≠ waker then { state with waker := some waker }
  else state

/-- Where a call of `abort` is: `cancelled` is stored, the waker is taken out of the slot, which
stays locked, or it has returned. -/
inductive Abort
  | stored
  | took (waker : Option Waker)
  | returned
  deriving DecidableEq, Repr

/-- Where a runner is: the step it takes next, or what it waits for. -/
inductive Pc (T : Type*)
  | queued
  /-- A `LocalJoin` that is not being polled. -/
  | idle
  | register
  /-- `is_cancelled` before the poll. -/
  | check
  | poll
  /-- In the poll of the future, or in the closure of a blocking task. -/
  | polling
  /-- `is_cancelled` after the poll. -/
  | recheck
  /-- `WakerState::wait`. -/
  | wait
  /-- In `cond_wait`. -/
  | blocked
  /-- `cond_wait` is about to return. -/
  | resuming
  /-- The future is dropped, with the result that is to be published; `unwinding` if it panicked. -/
  | dropping (r : Result T) (unwinding : Bool)
  /-- `Drop for LocalJoin`, with its future; `unwinding` if a panic drops it. -/
  | tearing (unwinding : Bool)
  /-- `finish`: the swap of `finished`, with the result that is to be published; `last` unless the
  `LocalJoin` is still to be dropped. -/
  | finish (r : Result T) (last : Bool)
  /-- `finish`: the slot. -/
  | clear (r : Result T) (last : Bool)
  | send (r : Result T) (last : Bool)
  /-- `Drop for LocalJoin` after its last poll: `finish` once more. -/
  | refinish
  | reclear
  | done
  /-- Dropped without an outcome. -/
  | gone
  /-- `poll_blocking` has returned, or a panic has left it. -/
  | returned
  deriving DecidableEq, Repr

inductive Ev (T : Type*)
  /-- The closure of a blocking task is called. -/
  | started
  /-- A loop, or `LocalJoin::poll`, begins, with a new waker. -/
  | began (w : Waker)
  | registered (w : Waker)
  /-- What `is_cancelled` said. -/
  | checked (b : Bool)
  /-- A poll of the future, or the call of a blocking task's own closure, begins. -/
  | polled
  | ready (v : T)
  | pended
  | panicked
  /-- `wait` finds `woken`, clears it and returns. -/
  | skipped
  | blocked
  /-- `cond_wait` returns with no signal. -/
  | spurious
  /-- `wait` clears `woken` after `cond_wait`. -/
  | resumed
  | torn (unwinding : Bool)
  | dropped
  | dropPanicked
  /-- `finish` has swapped `finished`, and counts the task off if it was the `first`. -/
  | finished (first : Bool)
  | cleared
  | sends (r : Result T)
  /-- The sender is dropped without an outcome. -/
  | senderDropped
  | woke (w : Waker)
  | aborted
  | took (w : Option Waker)
  | abortReturned
  deriving DecidableEq, Repr

/-- A runner, the states it shares, and the calls of `abort`. -/
structure Sys (T : Type*) where
  kind : Kind
  state : CancellationState
  /-- `WakerState::woken`. -/
  woken : Bool
  /-- How many wakers were made; the last one has this number. -/
  wakers : ℕ
  pc : Pc T
  aborts : List Abort
  deriving DecidableEq, Repr

inductive Op (T : Type*)
  /-- The runner is called: `poll_blocking`, the submitted closure or `LocalJoin::poll`. -/
  | start
  /-- The submitted closure is destroyed without being called. -/
  | discard
  | advance
  | ready (v : T)
  | pending
  | panics
  | spurious
  | drops
  | dropPanics
  /-- `Drop for LocalJoin`; `unwinding` if a panic drops it. -/
  | teardown (unwinding : Bool)
  /-- A wake of a waker of the runner, from anywhere. -/
  | wake (w : Waker)
  | abort
  | abortAdvance (c : ℕ)
  deriving DecidableEq, Repr

variable {T : Type*}

def new (kind : Kind) (id : ℕ) : Sys T where
  kind := kind
  state := .new id
  woken := false
  wakers := 0
  pc := if kind = .localJoin then .idle else .queued
  aborts := []

/-- `JoinError::cancelled`. -/
def Sys.cancelled (s : Sys T) : Result T := .error ⟨s.state.id, .cancelled⟩

/-- `JoinError::panic`. -/
def Sys.panicError (s : Sys T) : Result T := .error ⟨s.state.id, .panic⟩

/-- A loop begins. -/
def Sys.begin (s : Sys T) (pc : Pc T) : Sys T × List (Ev T) :=
  ({ s with wakers := s.wakers + 1, pc := pc }, [.began (s.wakers + 1)])

/-- The runner is called. -/
def Sys.start (s : Sys T) : Option (Sys T × List (Ev T)) :=
  match s.kind, s.pc with
  | .blockOn, .queued => some (s.begin .poll)
  | .async, .queued => some (s.begin .register)
  | .blocking, .queued => some ({ s with pc := .check }, [.started])
  | .localJoin, .idle => some (s.begin .register)
  | _, _ => none

/-- `is_cancelled`, and where the runner goes then. -/
def Sys.isCancelled (s : Sys T) (next : Pc T) : Sys T × List (Ev T) :=
  if s.state.cancelled then ({ s with pc := .dropping s.cancelled false }, [.checked true])
  else ({ s with pc := next }, [.checked false])

/-- Where a loop goes on after `wait`: only `poll_once` has to check. -/
def Kind.again : Kind → Pc T
  | .blockOn => .poll
  | _ => .check

/-- The task is finished. -/
def Sys.finish (s : Sys T) (next : Pc T) : Sys T × List (Ev T) :=
  ({ s with state := { s.state with finished := true }, pc := next },
    [.finished (!s.state.finished)])

/-- The waker is cleared. -/
def Sys.clear (s : Sys T) (next : Pc T) : Sys T × List (Ev T) :=
  ({ s with state := { s.state with waker := none }, pc := next }, [.cleared])

/-- **The next step of the runner's own code.** -/
def Sys.advance (s : Sys T) : Option (Sys T × List (Ev T)) :=
  match s.pc with
  | .register =>
    if s.state.lock = none then
      some ({ s with state := s.state.register s.wakers, pc := .check }, [.registered s.wakers])
    else none
  | .check => some (s.isCancelled .poll)
  | .poll => some ({ s with pc := .polling }, [.polled])
  | .recheck => some (s.isCancelled .wait)
  | .wait =>
    if s.woken then some ({ s with woken := false, pc := s.kind.again }, [.skipped])
    else some ({ s with pc := .blocked }, [.blocked])
  | .resuming => some ({ s with woken := false, pc := s.kind.again }, [.resumed])
  | .finish r last => some (s.finish (.clear r last))
  | .clear r last => if s.state.lock = none then some (s.clear (.send r last)) else none
  | .send r last => some ({ s with pc := if last then .done else .refinish }, [.sends r])
  | .refinish => some (s.finish .reclear)
  | .reclear => if s.state.lock = none then some (s.clear .done) else none
  | _ => none

/-- Where a runner goes from its poll with a result: `poll_blocking` returns it, and the closure of
a blocking task is used up by its call. -/
def Kind.leave (r : Result T) (unwinding : Bool) : Kind → Pc T
  | .blockOn => .returned
  | .blocking => .finish r true
  | _ => .dropping r unwinding

/-- Where a runner goes when its poll is pending. -/
def Kind.pended : Kind → Option (Pc T)
  | .blockOn => some .wait
  | .async => some .recheck
  | .blocking => none
  | .localJoin => some .idle

/-- The poll returns `Ready`. -/
def Sys.ready (s : Sys T) (v : T) : Option (Sys T × List (Ev T)) :=
  match s.pc with
  | .polling => some ({ s with pc := s.kind.leave (.ok v) false }, [.ready v])
  | _ => none

/-- The poll returns `Pending`. -/
def Sys.pending (s : Sys T) : Option (Sys T × List (Ev T)) :=
  match s.pc with
  | .polling => s.kind.pended.map fun pc => ({ s with pc := pc }, [.pended])
  | _ => none

/-- The poll, or the closure, panics.  `spawn_task` catches the panic after `poll_once` has dropped
the future, `LocalJoin::poll` and a blocking task right at the call. -/
def Sys.panics (s : Sys T) : Option (Sys T × List (Ev T)) :=
  match s.pc with
  | .polling =>
    some ({ s with pc := s.kind.leave s.panicError (s.kind = .async) }, [.panicked])
  | _ => none

/-- The future is dropped. -/
def Sys.drops (s : Sys T) : Option (Sys T × List (Ev T)) :=
  match s.pc with
  | .dropping r _ => some ({ s with pc := .finish r (s.kind ≠ .localJoin) }, [.dropped])
  | .tearing _ => some ({ s with pc := .finish s.cancelled true }, [.dropped])
  | _ => none

/-- Dropping the future panics.  `spawn_task` catches the panic; it leaves `LocalJoin::poll`, whose
`LocalJoin` is then dropped, without its future; and it leaves `Drop for LocalJoin` before anything
is published. -/
def Sys.dropPanics (s : Sys T) : Option (Sys T × List (Ev T)) :=
  match s.kind, s.pc with
  | .async, .dropping _ false => some ({ s with pc := .finish s.panicError true }, [.dropPanicked])
  | .localJoin, .dropping _ _ => some ({ s with pc := .finish s.cancelled true }, [.dropPanicked])
  | .localJoin, .tearing false => some ({ s with pc := .gone }, [.dropPanicked, .senderDropped])
  | _, _ => none

/-- A waker of the runner is woken: `WakerState::wake`, with its signal.  The wakers of a
`LocalJoin` are those of its set. -/
def Sys.wake (s : Sys T) (w : Waker) : Sys T × List (Ev T) :=
  match s.kind with
  | .blockOn | .async =>
    ({ s with woken := true, pc := if s.pc matches .blocked then .resuming else s.pc }, [.woke w])
  | _ => (s, [.woke w])

/-- The `abort` `c` goes on. -/
def Sys.abortAdvance (s : Sys T) (c : ℕ) : Option (Sys T × List (Ev T)) :=
  s.aborts[c]?.bind fun
    | .stored =>
      if s.state.lock = none then
        some ({ s with
          state := { s.state with waker := none, lock := some c }
          aborts := s.aborts.set c (.took s.state.waker) }, [.took s.state.waker])
      else none
    | .took w =>
      let r := w.elim (s, []) s.wake
      some ({ r.1 with
        state := { r.1.state with lock := none }
        aborts := r.1.aborts.set c .returned }, r.2 ++ [.abortReturned])
    | .returned => none

def step (s : Sys T) : Op T → Option (Sys T × List (Ev T))
  | .start => s.start
  | .discard =>
    match s.pc with
    | .queued =>
      if s.kind = .blockOn then none
      else some ({ s with pc := .gone }, [.dropped, .senderDropped])
    | _ => none
  | .advance => s.advance
  | .ready v => s.ready v
  | .pending => s.pending
  | .panics => s.panics
  | .spurious =>
    match s.pc with
    | .blocked => some ({ s with pc := .resuming }, [.spurious])
    | _ => none
  | .drops => s.drops
  | .dropPanics => s.dropPanics
  | .teardown unwinding =>
    match s.pc with
    | .idle => some ({ s with pc := .tearing unwinding }, [.torn unwinding])
    | _ => none
  | .wake w => if 0 < w ∧ w ≤ s.wakers then some (s.wake w) else none
  | .abort =>
    if s.kind = .blockOn then none
    else
      some ({ s with
        state := { s.state with cancelled := true }
        aborts := s.aborts ++ [.stored] }, [.aborted])
  | .abortAdvance c => s.abortAdvance c

end OhosFfrt.Task.Runner
