import OhosFfrt.Oneshot.Shared
import OhosFfrt.Task.Runner

/-!
# `runtime`: a task and its handles

A spawned task is a runner, the oneshot channel its outcome goes through, and what refers to its
`CancellationState`: the runner itself, the `JoinHandle` and the `AbortHandle`s.  When nothing does
any more, the state is destroyed.
-/

namespace OhosFfrt.Task.Handle

open Basic
open Oneshot.Shared (Inner Receiver send dropSender dropReceiver)
open Task.Runner (Result Kind)

/-- A task with its handles. -/
structure Sys (T : Type*) where
  runner : Runner.Sys T
  inner : Inner (Result T)
  /-- `JoinHandle::rx`, until the `JoinHandle` is dropped. -/
  handle : Option Receiver
  abortHandles : ℕ
  /-- Its `CancellationState` is not destroyed. -/
  live : Bool
  deriving DecidableEq, Repr

inductive Op (T : Type*)
  /-- A step of the runner, of one of its wakers or of an `abort`. -/
  | run (op : Runner.Op T)
  | poll (cx : Waker)
  | isFinished
  | dropHandle
  /-- `JoinHandle::abort_handle`, or a clone of an `AbortHandle`. -/
  | abortHandle
  | dropAbortHandle
  /-- `Drop for CancellationState`. -/
  | destroy
  deriving DecidableEq, Repr

inductive Ev (T : Type*)
  | ran (e : Runner.Ev T)
  /-- What happens at the channel. -/
  | chan (e : Oneshot.Shared.Ev (Result T))
  | pending (w : Waker)
  | yielded (r : Result T)
  | isFinished (b : Bool)
  | handleDropped
  /-- The state is destroyed, and counted off if it is `unfinished`. -/
  | destroyed (unfinished : Bool)
  deriving DecidableEq, Repr

variable {T : Type*}

/-- `spawn_task`, `spawn_blocking_named` and `local_join_channel`. -/
def new (kind : Kind) (id : ℕ) : Sys T where
  runner := Runner.new kind id
  inner := .new
  handle := some ⟨true⟩
  abortHandles := 0
  live := true

/-- What an event of the runner does to the channel. -/
def publish (i : Inner (Result T)) :
    Runner.Ev T → Inner (Result T) × List (Oneshot.Shared.Ev (Result T))
  | .sends r => send ⟨true⟩ i r
  | .senderDropped => dropSender ⟨true⟩ i
  | _ => (i, [])

/-- The channel after some events of the runner, and all that happened. -/
def publishAll (i : Inner (Result T)) : List (Runner.Ev T) → Inner (Result T) × List (Ev T)
  | [] => (i, [])
  | e :: es =>
    let r := publishAll (publish i e).1 es
    (r.1, .ran e :: (publish i e).2.map .chan ++ r.2)

/-- `Future for JoinHandle`. -/
def Sys.poll (t : Sys T) (rx : Receiver) (cx : Waker) : Sys T × List (Ev T) :=
  let r := Oneshot.Shared.poll rx t.inner cx
  ({ t with handle := some r.2.1, inner := r.2.2 },
    match r.1 with
    | some (.ok output) => [.yielded output]
    | some (.error _) =>
      [.yielded (.error ⟨t.runner.state.id, .other "task result channel closed"⟩)]
    | none => [.pending cx])

/-- A handle is alive. -/
def Sys.held (t : Sys T) : Bool := t.handle.isSome || 0 < t.abortHandles

/-- Nobody holds the state. -/
def Sys.free (t : Sys T) : Bool :=
  !t.held && (t.runner.pc matches .done | .gone) &&
    t.runner.aborts.all fun a => a matches .returned

def step (t : Sys T) (op : Op T) : Option (Sys T × List (Ev T)) :=
  if t.live then
    match op with
    | .run op =>
      if (op matches .abort) && !t.held then none
      else (Runner.step t.runner op).map fun r =>
        ({ t with runner := r.1, inner := (publishAll t.inner r.2).1 }, (publishAll t.inner r.2).2)
    | .poll cx => t.handle.map fun rx => t.poll rx cx
    | .isFinished => t.handle.map fun _ => (t, [.isFinished t.runner.state.finished])
    | .dropHandle =>
      t.handle.map fun rx =>
        ({ t with handle := none, inner := (dropReceiver rx t.inner).1 },
          .handleDropped :: (dropReceiver rx t.inner).2.map .chan)
    | .abortHandle =>
      if t.held then some ({ t with abortHandles := t.abortHandles + 1 }, []) else none
    | .dropAbortHandle =>
      if 0 < t.abortHandles then some ({ t with abortHandles := t.abortHandles - 1 }, []) else none
    | .destroy =>
      if t.free then some ({ t with live := false }, [.destroyed (!t.runner.state.finished)])
      else none
  else none

end OhosFfrt.Task.Handle
