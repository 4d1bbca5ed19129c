import OhosFfrt.Lib.Arena
import OhosFfrt.Mpsc.Shared
import OhosFfrt.Task.Pool

/-!
# `task::JoinSet`: the set, its trackers and its channel

A `JoinSet` keeps an unbounded channel, the number of tasks that it has not joined and an
`AbortHandle` for each of them.  For every task that is inserted a tracker is spawned, which awaits
the `JoinHandle` of the task, which it has to itself, and sends the outcome, with the task's id, to
the channel.  The tracker of a task of a `LocalSet` is itself a task of this set, and is dropped
with it.

The tasks are those of `Task.Pool`, which has others as well, and a task's place there is its id.
Whatever happens in the runtime is a step of the pool.  Every section under a mutex is a step of its
own: a tracker polls the handle, drops it, sends the outcome and drops its sender.  There is no
`poll_tasks`: a `LocalSet` can be dropped between any two steps of its tasks here, and only between
two passes in the code.
-/

namespace OhosFfrt.JoinSet.System

open Basic
open Lib.Arena (swapRemove)
open Mpsc.Shared (Inner Taken Fate unboundedSend dropSender addSender waitRecv
  pollRecvShared tryRecv)
open OhosFfrt.Task
open Task.Runner (Result)

/-- Where a tracker is. -/
inductive Phase (V : Type*)
  /-- In `handle.await`. -/
  | waiting
  /-- `handle.await` is over, the handle is to be dropped. -/
  | yielded (r : Result V)
  /-- Before `sender.send`. -/
  | holding (r : Result V)
  /-- Its sender is to be dropped. -/
  | sent
  | done
  /-- Dropped with its `LocalSet`: the handle is dropped, the sender is not. -/
  | torn
  /-- Dropped before it has sent anything. -/
  | gone
  deriving DecidableEq, Repr

/-- The tracker still has its sender. -/
def Phase.hasSender {V : Type*} : Phase V → Bool
  | .done | .gone => false
  | _ => true

/-- The tracker has sent the result. -/
def Phase.hasSent {V : Type*} : Phase V → Bool
  | .sent | .done => true
  | _ => false

/-- `track_task`, and the `tracker` of `insert_local`, with the task that it tracks. -/
structure Tracker (V : Type*) where
  task : ℕ
  phase : Phase V
  deriving DecidableEq, Repr

/-- `JoinSet`, with the runtime and the trackers. -/
structure Sys (V : Type*) where
  pool : Pool.Sys V
  inner : Inner (ℕ × Result V)
  pending : ℕ
  /-- The tasks of the `abort_handles`. -/
  abortHandles : List ℕ
  trackers : List (Tracker V)
  deriving DecidableEq, Repr

/-- The calls that join. -/
inductive Call
  | pollJoinNext
  | pollJoinNextWithId
  | tryJoinNext
  | tryJoinNextWithId
  deriving DecidableEq, Repr

/-- What they return. -/
inductive Output (V : Type*)
  | plain (r : Result V)
  | withId (r : Result (ℕ × V))
  deriving DecidableEq, Repr

inductive Op (V : Type*)
  | pool (op : Pool.Op V)
  /-- `spawn` and `spawn_on`, or `spawn_blocking` and `spawn_blocking_on`. -/
  | spawn (blocking : Bool)
  | spawnLocal (set : ℕ)
  | tracker (i : ℕ) (cx : Waker)
  | tear (i : ℕ)
  /-- `poll_join_next`, as `join_next` polls it, or `poll_join_next_with_id`. -/
  | poll (withId : Bool) (cx : Waker)
  /-- `try_join_next` or `try_join_next_with_id`. -/
  | tryJoin (withId : Bool)
  | detachAll
  deriving DecidableEq, Repr

inductive Ev (V : Type*)
  | pool (e : Pool.Ev V)
  | inserted (j : ℕ)
  | sent (j : ℕ) (r : Result V) (f : Fate)
  /-- The outcome `r` of the task `j` is taken from the channel, and a call returns `out`. -/
  | joined (call : Call) (j : ℕ) (r : Result V) (out : Output V)
  | nothing (call : Call)
  | pending (cx : Waker)
  | detached
  /-- What happens at the channel. -/
  | chan (e : Mpsc.Shared.Ev (ℕ × Result V))
  deriving DecidableEq, Repr

variable {V : Type*}

/-- `JoinSet::new`. -/
def new : Sys V where
  pool := Pool.new
  inner := .new none
  pending := 0
  abortHandles := []
  trackers := []

/-- `JoinSet::len`. -/
def Sys.len (s : Sys V) : ℕ := s.pending

/-- The set tracks the task `j`. -/
def Sys.tracks (s : Sys V) (j : ℕ) : Bool := s.trackers.any fun t => t.task = j

/-! ## Inserting -/

/-- `insert` and `insert_local`, after the task is spawned by `op`. -/
def Sys.insert (s : Sys V) (op : Pool.Op V) : Option (Sys V × List (Ev V)) :=
  (Pool.step s.pool op).map fun r =>
    let id := s.pool.tasks.length
    ({ pool := r.1
       inner := addSender s.inner
       pending := s.pending + 1
       abortHandles := s.abortHandles ++ [id]
       trackers := s.trackers ++ [⟨id, .waiting⟩] }, r.2.map .pool ++ [.inserted id])

/-! ## Trackers -/

/-- The result the handle yields. -/
def outcomeOf (es : List (Pool.Ev V)) : Option (Result V) :=
  es.findSome? fun
    | .task _ (.yielded r) => some r
    | _ => none

/-- The tracker `i` moves on. -/
def Sys.setPhase (s : Sys V) (i : ℕ) (t : Tracker V) (phase : Phase V) : Sys V :=
  { s with trackers := s.trackers.set i { t with phase := phase } }

/-- The tracker drops its sender. -/
def Sys.dropClone (s : Sys V) (i : ℕ) (t : Tracker V) (phase : Phase V) :
    Option (Sys V × List (Ev V)) :=
  (dropSender s.inner).map fun r =>
    ({ s.setPhase i t phase with inner := r.1 }, r.2.map .chan)

/-- The tracker drops its handle. -/
def Sys.dropHandle (s : Sys V) (i : ℕ) (t : Tracker V) (phase : Phase V) :
    Option (Sys V × List (Ev V)) :=
  (Pool.step s.pool (.task t.task .dropHandle)).map fun r =>
    ({ s.setPhase i t phase with pool := r.1 }, r.2.map .pool)

/-- The `LocalSet` of the task, if it has one, satisfies `p`. -/
def Sys.inSet (s : Sys V) (j : ℕ) (p : ℕ → Bool) : Bool :=
  (s.pool.tasks[j]?).any fun e => e.set.any p

/-- **The next step of a tracker.**  That of a local task is only polled with its set. -/
def Sys.advance (s : Sys V) (i : ℕ) (t : Tracker V) (cx : Waker) :
    Option (Sys V × List (Ev V)) :=
  match t.phase with
  | .waiting =>
    if s.inSet t.task (· ∈ s.pool.dropped) then none
    else (Pool.step s.pool (.task t.task (.poll cx))).map fun r =>
      let phase := match outcomeOf r.2 with
        | some output => .yielded output
        | none => .waiting
      ({ s.setPhase i t phase with pool := r.1 }, r.2.map .pool)
  | .yielded r => s.dropHandle i t (.holding r)
  | .holding r =>
    -- `let _ = sender.send((id, output))`
    let c := unboundedSend s.inner (t.task, r)
    some ({ s.setPhase i t .sent with inner := c.2.1 }, .sent t.task r c.1 :: c.2.2.map .chan)
  | .sent => s.dropClone i t .done
  | .torn => s.dropClone i t .gone
  | .done | .gone => none

/-- A tracker that is not being polled is dropped with its set, or with the queue of an unwinding
`poll_tasks`. -/
def Sys.tear (s : Sys V) (i : ℕ) (t : Tracker V) : Option (Sys V × List (Ev V)) :=
  match t.phase with
  | .waiting =>
    if s.inSet t.task fun k => k ∈ s.pool.dropped || k ∈ s.pool.unwinding then
      s.dropHandle i t .torn
    else none
  | _ => none

/-! ## Joining -/

def removeAbortHandle (handles : List ℕ) (id : ℕ) : List ℕ :=
  match handles.findIdx? fun handle => handle = id with
  | some position => swapRemove handles position
  | none => handles

/-- What `poll_join_next_with_id` and `try_join_next_with_id` make of an outcome. -/
def withId (id : ℕ) : Result V → Result (ℕ × V)
  | .ok value => .ok (id, value)
  | .error error => .error error

/-- What a call returns; those without id forget it. -/
def Call.output (id : ℕ) (r : Result V) : Call → Output V
  | .pollJoinNextWithId | .tryJoinNextWithId => .withId (withId id r)
  | .pollJoinNext | .tryJoinNext => .plain ((withId id r).map Prod.snd)

/-- What a call does with a look at the channel; `wait` where there is nothing. -/
def Sys.receive (s : Sys V) (call : Call) (r : Taken (ℕ × Result V))
    (wait : Sys V × List (Ev V)) : Option (Sys V × List (Ev V)) :=
  match r with
  | .value (id, output) i es =>
    (checkedSub s.pending 1).map fun pending =>
      ({ s with
          inner := i
          pending := pending
          abortHandles := removeAbortHandle s.abortHandles id },
        .joined call id output (call.output id output) :: es.map .chan)
  | .ended => some (s, [.nothing call])
  | .empty => some wait

/-- `poll_join_next` and `poll_join_next_with_id`. -/
def Sys.pollJoinNext (s : Sys V) (call : Call) (cx : Waker) : Option (Sys V × List (Ev V)) :=
  if s.pending = 0 then some (s, [.nothing call])
  else s.receive call (pollRecvShared s.inner)
    ({ s with inner := waitRecv s.inner cx }, [.pending cx])

/-- `try_join_next` and `try_join_next_with_id`. -/
def Sys.tryJoinNext (s : Sys V) (call : Call) : Option (Sys V × List (Ev V)) :=
  if s.pending = 0 then some (s, [.nothing call])
  else s.receive call (tryRecv s.inner) (s, [.nothing call])

/-- `JoinSet::detach_all`. -/
def Sys.detachAll (s : Sys V) : Sys V × List (Ev V) := ({ s with abortHandles := [] }, [.detached])

/-! ## The steps -/

/-- The runtime leaves the `JoinHandle` of a tracked task to its tracker. -/
def Sys.leaves (s : Sys V) : Pool.Op V → Bool
  | .task j (.poll _) | .task j .dropHandle => !s.tracks j
  | _ => true

def step (s : Sys V) : Op V → Option (Sys V × List (Ev V))
  | .pool op =>
    if s.leaves op then
      (Pool.step s.pool op).map fun r => ({ s with pool := r.1 }, r.2.map .pool)
    else none
  | .spawn blocking => s.insert (.spawn blocking)
  | .spawnLocal set => s.insert (.spawnLocal set)
  | .tracker i cx => s.trackers[i]?.bind fun t => s.advance i t cx
  | .tear i => s.trackers[i]?.bind fun t => s.tear i t
  | .poll withId cx => s.pollJoinNext (if withId then .pollJoinNextWithId else .pollJoinNext) cx
  | .tryJoin withId => s.tryJoinNext (if withId then .tryJoinNextWithId else .tryJoinNext)
  | .detachAll => some s.detachAll

end OhosFfrt.JoinSet.System
