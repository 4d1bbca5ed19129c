import OhosFfrt.Basic
import OhosFfrt.Lib.Calls
import OhosFfrt.Lib.Runs

/-!
# `sync::OnceCell`: the cell and the steps of its calls

`initialized` is an atomic and the value is behind it, outside of the lock of the state, so every
load and store of `initialized`, the writes and the reads of the value, taking the lock, and the
section under it from the last load on, are steps of their own.

A future of `get_or_init` or `get_or_try_init` is polled with a waker, runs until it returns or is
suspended, and may be dropped wherever it is suspended: before its first poll, while it waits for
another initialiser, and while its own initialiser is pending.  What a poll of the initialiser
does is an input: it is pending, completes, fails or panics.
-/

namespace OhosFfrt.OnceCell.System

open Basic Lib.Calls

/-- The calls. -/
inductive Req (T : Type*)
  | getOrInit
  | getOrTryInit
  | set (v : T)
  | get
  deriving DecidableEq, Repr

/-- What they return. -/
inductive Res (T E : Type*)
  /-- The value of `get_or_init`, or `Ok` of `get_or_try_init`. -/
  | value (v : T)
  /-- `Err` of `get_or_try_init`. -/
  | failed (e : E)
  | panicked
  | dropped
  | stored
  | alreadyInitialized (v : T)
  | initializing (v : T)
  | got (o : Option T)
  deriving DecidableEq, Repr

/-- What the initialiser does. -/
inductive Outcome (T E : Type*)
  | pending
  | completes (v : T)
  | fails (e : E)
  | panics
  deriving DecidableEq, Repr

/-- `OnceCell`, with the call that has the lock of the state. -/
structure Cell (T : Type*) where
  initialized : Bool
  value : Option T
  initializing : Bool
  waiters : List Waker
  lock : Option ℕ
  deriving DecidableEq, Repr

/-- Where a call is: the step it takes next. -/
inductive Pc (T E : Type*)
  | fresh
  /-- The first `get`. -/
  | load (w : Waker)
  | read (w : Waker)
  /-- A poll of `acquire_initializer`. -/
  | acquireLoad (w : Waker)
  | acquireLock (w : Waker)
  | acquireReload (w : Waker)
  | acquireTest (w : Waker)
  /-- Suspended in `acquire_initializer`. -/
  | waiting
  /-- The second `get`; `acquired` says whether the call has set the flag, which the code does not
  remember. -/
  | reload (acquired : Bool)
  | reread (acquired : Bool)
  /-- The guard is there and the initialiser runs, or is suspended. -/
  | running
  | suspended
  /-- `InitializerGuard::complete`. -/
  | write (v : T)
  | store
  | completeLock
  | completeClear
  | completeLoad
  | completeRead
  /-- The guard is dropped while it is active. -/
  | dropLock (x : Res T E)
  | dropClear (x : Res T E)
  | setLock (v : T)
  | setLoad (v : T)
  | setTest (v : T)
  | setWrite (v : T)
  | setStore
  | setWake
  | getLoad
  | getRead
  | returned (x : Res T E)
  deriving DecidableEq, Repr

structure Call (T E : Type*) where
  request : Req T
  pc : Pc T E
  deriving DecidableEq, Repr

inductive Ev (T E : Type*)
  | call (c : ℕ) (r : Req T)
  /-- A poll returns `Pending` because another initialiser is active. -/
  | pending (c : ℕ) (w : Waker)
  | ret (c : ℕ) (x : Res T E)
  | wrote (c : ℕ) (v : T)
  | woke (w : Waker)
  deriving DecidableEq, Repr

variable {T E : Type*}

/-- `OnceCell::new_with`. -/
def Cell.newWith (value : Option T) : Cell T where
  initialized := value.isSome
  value := value
  initializing := false
  waiters := []
  lock := none

/-- Where a call begins. -/
def Req.entry : Req T → Pc T E
  | .getOrInit | .getOrTryInit => .fresh
  | .set v => .setLock v
  | .get => .getLoad

def returns (cell : Cell T) (c : ℕ) (x : Res T E) : Cell T × Pc T E × List (Ev T E) :=
  (cell, .returned x, [.ret c x])

/-- Wakes all of them. -/
def wakeAll (ws : List Waker) : List (Ev T E) := ws.map .woke

/-- Takes the lock, if it is free. -/
def locks (cell : Cell T) (c : ℕ) (pc : Pc T E) : Option (Cell T × Pc T E × List (Ev T E)) :=
  if cell.lock = none then some ({ cell with lock := some c }, pc, []) else none

/-- **The next step of the call `c`**, if it can be taken. -/
def advance (cell : Cell T) (c : ℕ) : Pc T E → Option (Cell T × Pc T E × List (Ev T E))
  | .load w => some (cell, if cell.initialized then .read w else .acquireLoad w, [])
  | .read w =>
    match cell.value with
    | some v => some (returns cell c (.value v))
    | none => some (cell, .acquireLoad w, [])
  | .acquireLoad w => some (cell, if cell.initialized then .reload false else .acquireLock w, [])
  | .acquireLock w => locks cell c (.acquireReload w)
  | .acquireReload w =>
    if cell.initialized then some ({ cell with lock := none }, .reload false, [])
    else some (cell, .acquireTest w, [])
  | .acquireTest w =>
    if cell.initializing then
      let waiters := if w ∈ cell.waiters then cell.waiters else cell.waiters ++ [w]
      some ({ cell with waiters := waiters, lock := none }, .waiting, [.pending c w])
    else some ({ cell with initializing := true, lock := none }, .reload true, [])
  | .reload acquired => some (cell, if cell.initialized then .reread acquired else .running, [])
  | .reread _ =>
    match cell.value with
    | some v => some (returns cell c (.value v))
    | none => some (cell, .running, [])
  | .write v => some ({ cell with value := some v }, .store, [.wrote c v])
  | .store => some ({ cell with initialized := true }, .completeLock, [])
  | .completeLock => locks cell c .completeClear
  | .completeClear =>
    some ({ cell with initializing := false, waiters := [] }, .completeLoad, wakeAll cell.waiters)
  | .completeLoad =>
    if cell.initialized then some (cell, .completeRead, [])
    else some (returns { cell with lock := none } c .panicked)
  | .completeRead =>
    match cell.value with
    | some v => some (returns { cell with lock := none } c (.value v))
    | none => some (returns { cell with lock := none } c .panicked)
  | .dropLock x => locks cell c (.dropClear x)
  | .dropClear x =>
    some ({ cell with initializing := false, waiters := [], lock := none }, .returned x,
      wakeAll cell.waiters ++ [.ret c x])
  | .setLock v => locks cell c (.setLoad v)
  | .setLoad v =>
    if cell.initialized then some (returns { cell with lock := none } c (.alreadyInitialized v))
    else some (cell, .setTest v, [])
  | .setTest v =>
    if cell.initializing then some (returns { cell with lock := none } c (.initializing v))
    else some (cell, .setWrite v, [])
  | .setWrite v => some ({ cell with value := some v }, .setStore, [.wrote c v])
  | .setStore => some ({ cell with initialized := true }, .setWake, [])
  | .setWake =>
    some ({ cell with waiters := [], lock := none }, .returned .stored,
      wakeAll cell.waiters ++ [.ret c .stored])
  | .getLoad =>
    if cell.initialized then some (cell, .getRead, []) else some (returns cell c (.got none))
  | .getRead => some (returns cell c (.got cell.value))
  | .fresh | .waiting | .running | .suspended | .returned _ => none

/-- A poll of a future that is suspended. -/
def resume (w : Waker) : Pc T E → Option (Pc T E)
  | .fresh => some (.load w)
  | .waiting => some (.acquireLoad w)
  | .suspended => some .running
  | _ => none

/-- The poll of the initialiser of a call that runs it. -/
def initialise (r : Req T) (o : Outcome T E) : Pc T E → Option (Pc T E)
  | .running =>
    match o with
    | .pending => some .suspended
    | .completes v => some (.write v)
    | .fails e =>
      match r with
      | .getOrTryInit => some (.dropLock (.failed e))
      | _ => none
    | .panics => some (.dropLock .panicked)
  | _ => none

/-- The future is dropped. -/
def cancel (c : ℕ) : Pc T E → Option (Pc T E × List (Ev T E))
  | .fresh | .waiting => some (.returned .dropped, [.ret c .dropped])
  | .suspended => some (.dropLock .dropped, [])
  | _ => none

/-- A cell and the calls on it. -/
abbrev Sys (T E : Type*) := Pool (Cell T) (Call T E)

/-- `OnceCell::new_with`. -/
def newWith (value : Option T) : Sys T E := ⟨.newWith value, []⟩

inductive Op (T E : Type*)
  | start (r : Req T)
  | poll (c : ℕ) (w : Waker)
  | advance (c : ℕ)
  | initialise (c : ℕ) (o : Outcome T E)
  | drop (c : ℕ)
  deriving DecidableEq, Repr

/-- The call `c` goes on. -/
def goOn (s : Sys T E) (c : ℕ) (f : Call T E → Option (Cell T × Pc T E × List (Ev T E))) :
    Option (Sys T E × List (Ev T E)) :=
  s.calls[c]?.bind fun call => (f call).map fun r =>
    (s.put c r.1 { call with pc := r.2.1 }, r.2.2)

/-- **One step**: a call begins, or one of them goes on. -/
def step (s : Sys T E) : Op T E → Option (Sys T E × List (Ev T E))
  | .start r => some (s.start ⟨r, r.entry⟩, [.call s.calls.length r])
  | .poll c w => goOn s c fun call => (resume w call.pc).map fun pc => (s.shared, pc, [])
  | .advance c => goOn s c fun call => advance s.shared c call.pc
  | .initialise c o =>
    goOn s c fun call => (initialise call.request o call.pc).map fun pc => (s.shared, pc, [])
  | .drop c => goOn s c fun call => (cancel c call.pc).map fun r => (s.shared, r.1, r.2)

end OhosFfrt.OnceCell.System
