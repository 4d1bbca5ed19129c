import OhosFfrt.Basic
import OhosFfrt.Lib.Calls
import OhosFfrt.Lib.Linear
import OhosFfrt.Lib.Runs

/-!
# `sync::SetOnce`: the cell and the steps of its calls

The value is published by an atomic, outside of the lock of the waiters, so every load,
compare-exchange and store of `state`, the write and the reads of the value, taking the lock, and
the section under it once the value was looked for again, are steps of their own.  A future of
`wait` has no state of its own, so every poll of one is a call, with the waker it is polled with.
-/

namespace OhosFfrt.SetOnce.System

open Basic Lib.Calls Lib.Linear

/-- The values of `state`. -/
inductive Stage
  | empty
  | writing
  | ready
  deriving DecidableEq, Repr

/-- What is called: `set`, `get`, `initialized`, or a poll of a future of `wait`. -/
inductive Req (T : Type*)
  | set (v : T)
  | get
  | initialized
  | wait (w : Waker)
  deriving DecidableEq, Repr

/-- What the calls return. -/
inductive Res (T : Type*)
  | stored
  /-- `SetOnceError`, with the value. -/
  | rejected (v : T)
  | got (o : Option T)
  | isInitialized (b : Bool)
  | pending
  | ready (v : T)
  deriving DecidableEq, Repr

/-- `SetOnce`, with the call that has the lock of the waiters. -/
structure Cell (T : Type*) where
  value : Option T
  state : Stage
  waiters : List Waker
  lock : Option ℕ
  deriving DecidableEq, Repr

/-- Where a call is: the step it takes next. -/
inductive Pc (T : Type*)
  | compareExchange (v : T)
  | write (v : T)
  | store
  | lock
  | take
  | wakeAll (waiters : List Waker)
  /-- The compare-exchange has failed. -/
  | lost (v : T)
  /-- `get`; `deref` has what the load said. -/
  | load
  | deref (ready : Bool)
  | loadInitialized
  | answer (b : Bool)
  /-- A poll of `wait`. -/
  | waitLoad (w : Waker)
  | waitLock (w : Waker)
  | waitReload (w : Waker)
  | waitPush (w : Waker)
  | waitDeref
  | waitPending
  | returned (x : Res T)
  deriving DecidableEq, Repr

structure Call (T : Type*) where
  request : Req T
  pc : Pc T
  deriving DecidableEq, Repr

inductive Ev (T : Type*)
  | call (c : ℕ) (r : Req T)
  | ret (c : ℕ) (x : Res T)
  | published
  | woke (w : Waker)
  /-- The value is read where there is none. -/
  | undefined
  deriving DecidableEq, Repr

variable {T : Type*}

/-- `SetOnce::new`. -/
def Cell.new : Cell T where
  value := none
  state := .empty
  waiters := []
  lock := none

/-- Where a call begins. -/
def Req.entry : Req T → Pc T
  | .set v => .compareExchange v
  | .get => .load
  | .initialized => .loadInitialized
  | .wait w => .waitLoad w

def returns (cell : Cell T) (c : ℕ) (x : Res T) : Cell T × Pc T × List (Ev T) :=
  (cell, .returned x, [.ret c x])

/-- `assume_init_ref`, and the return with the value. -/
def derefs (cell : Cell T) (c : ℕ) (f : T → Res T) : Option (Cell T × Pc T × List (Ev T)) :=
  match cell.value with
  | some v => some (returns cell c (f v))
  | none => some (cell, .returned .pending, [.undefined])

/-- **The next step of the call `c`**, if it can be taken. -/
def advance (cell : Cell T) (c : ℕ) : Pc T → Option (Cell T × Pc T × List (Ev T))
  | .compareExchange v =>
    if cell.state = .empty then some ({ cell with state := .writing }, .write v, [])
    else some (cell, .lost v, [])
  | .write v => some ({ cell with value := some v }, .store, [])
  | .store => some ({ cell with state := .ready }, .lock, [.published])
  | .lock => if cell.lock = none then some ({ cell with lock := some c }, .take, []) else none
  | .take => some ({ cell with waiters := [], lock := none }, .wakeAll cell.waiters, [])
  | .wakeAll (w :: waiters) => some (cell, .wakeAll waiters, [.woke w])
  | .wakeAll [] => some (returns cell c .stored)
  | .lost v => some (returns cell c (.rejected v))
  | .load => some (cell, .deref (cell.state = .ready), [])
  | .deref true => derefs cell c fun v => .got (some v)
  | .deref false => some (returns cell c (.got none))
  | .loadInitialized => some (cell, .answer (cell.state = .ready), [])
  | .answer b => some (returns cell c (.isInitialized b))
  | .waitLoad w =>
    if cell.state = .ready then some (cell, .waitDeref, []) else some (cell, .waitLock w, [])
  | .waitLock w =>
    if cell.lock = none then some ({ cell with lock := some c }, .waitReload w, []) else none
  | .waitReload w =>
    if cell.state = .ready then some ({ cell with lock := none }, .waitDeref, [])
    else some (cell, .waitPush w, [])
  | .waitPush w =>
    let waiters := if w ∈ cell.waiters then cell.waiters else cell.waiters ++ [w]
    some ({ cell with waiters := waiters, lock := none }, .waitPending, [])
  | .waitDeref => derefs cell c .ready
  | .waitPending => some (returns cell c .pending)
  | .returned _ => none

/-- A cell and the calls on it. -/
abbrev Sys (T : Type*) := Pool (Cell T) (Call T)

def new : Sys T := ⟨.new, []⟩

inductive Op (T : Type*)
  | start (r : Req T)
  | advance (c : ℕ)
  deriving DecidableEq, Repr

/-- **One step**: a call begins, or takes its next step. -/
def step (s : Sys T) : Op T → Option (Sys T × List (Ev T))
  | .start r => some (s.start ⟨r, r.entry⟩, [.call s.calls.length r])
  | .advance c =>
    s.calls[c]?.bind fun call => (advance s.shared c call.pc).map fun r =>
      (s.put c r.1 { call with pc := r.2.1 }, r.2.2)

/-- The calls and the answers of a trace. -/
def history (tr : List (Ev T)) : List (Act (Req T) (Res T)) :=
  tr.filterMap fun
    | .call c r => some (.call c r)
    | .ret c x => some (.ret c x)
    | _ => none

/-- **A cell that is written at most once**: what it is for. -/
def apply (o : Option T) : Req T → Option T × Res T
  | .set v =>
    match o with
    | none => (some v, .stored)
    | some x => (some x, .rejected v)
  | .get => (o, .got o)
  | .initialized => (o, .isInitialized o.isSome)
  | .wait _ =>
    match o with
    | none => (none, .pending)
    | some x => (some x, .ready x)

end OhosFfrt.SetOnce.System
