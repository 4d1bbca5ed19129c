import OhosFfrt.Task.Handle
import Mathlib.Algebra.Ring.Int.Defs

/-!
# `runtime` and `task`: all tasks of the process

A state is counted in `ACTIVE_TASKS` when it is created, and counted off by the `finish` that sets
`finished`, or when it is destroyed without that.

A panic that leaves a `LocalJoin::poll` unwinds through `poll_tasks`, and drops the queue that it
has taken out of the set.
-/

namespace OhosFfrt.Task.Pool

open Task.Runner (Kind)

/-- A task, and the `LocalSet` of a local one. -/
structure Entry (T : Type*) where
  task : Handle.Sys T
  set : Option ℕ
  deriving DecidableEq, Repr

/-- All tasks; a task's place in the list is its id. -/
structure Sys (T : Type*) where
  /-- `ACTIVE_TASKS`; the counter itself would wrap around below zero. -/
  active : ℤ
  tasks : List (Entry T)
  /-- The `LocalSet`s that are dropped. -/
  dropped : List ℕ
  /-- The `LocalSet`s whose `poll_tasks` a panic has left. -/
  unwinding : List ℕ
  deriving DecidableEq, Repr

inductive Op (T : Type*)
  /-- `spawn_task` or `spawn_blocking_named`. -/
  | spawn (blocking : Bool)
  /-- `LocalSet::spawn_named`. -/
  | spawnLocal (set : ℕ)
  | task (k : ℕ) (op : Handle.Op T)
  | dropSet (set : ℕ)
  deriving DecidableEq, Repr

inductive Ev (T : Type*)
  | created (k : ℕ) (set : Option ℕ)
  | task (k : ℕ) (e : Handle.Ev T)
  | setDropped (set : ℕ)
  deriving DecidableEq, Repr

variable {T : Type*}

def new : Sys T := ⟨0, [], [], []⟩

def Sys.spawn (p : Sys T) (kind : Kind) (set : Option ℕ) : Sys T × List (Ev T) :=
  ({ p with
      active := p.active + 1
      tasks := p.tasks ++ [⟨Handle.new kind p.tasks.length, set⟩] },
    [.created p.tasks.length set])

/-- What an event adds to `ACTIVE_TASKS`. -/
def count : Handle.Ev T → ℤ
  | .ran (.finished true) => -1
  | .destroyed true => -1
  | _ => 0

/-- Whether a task of a `LocalSet` can do this: it is polled with its set, and dropped with it or
with the queue of an unwinding `poll_tasks`. -/
def Sys.allows (p : Sys T) (set : ℕ) : Handle.Op T → Bool
  | .run .start => set ∉ p.dropped
  | .run (.teardown unwinding) => set ∈ p.dropped || unwinding && set ∈ p.unwinding
  | _ => true

/-- A panic in the drop of a future leaves `poll_tasks`. -/
def Sys.unwinds (p : Sys T) (set : Option ℕ) (es : List (Handle.Ev T)) : List ℕ :=
  if es.any fun e => e matches .ran .dropPanicked then p.unwinding ++ set.toList
  else p.unwinding

def step (p : Sys T) : Op T → Option (Sys T × List (Ev T))
  | .spawn blocking => some (p.spawn (if blocking then .blocking else .async) none)
  | .spawnLocal set => if set ∈ p.dropped then none else some (p.spawn .localJoin (some set))
  | .task k op =>
    p.tasks[k]?.bind fun e =>
      if e.set.all fun set => p.allows set op then
        (Handle.step e.task op).map fun r =>
          ({ p with
              active := p.active + (r.2.map count).sum
              tasks := p.tasks.set k { e with task := r.1 }
              unwinding := p.unwinds e.set r.2 },
            r.2.map (.task k))
      else none
  | .dropSet set =>
    if set ∈ p.dropped then none
    else some ({ p with dropped := p.dropped ++ [set] }, [.setDropped set])

end OhosFfrt.Task.Pool
