import OhosFfrt.Lib.Arena
import OhosFfrt.Lib.Runs
import OhosFfrt.Mutex.State

/-!
# `sync::Mutex`: futures, guards and the steps of a run

A run is any sequence of operations on the mutex, its futures and its guards, which live in arenas.

Every guard ends in `unlock`: a mapped guard calls the function `unlock_mutex` it was given when it
was made and hands it on when it is mapped again.  A mapping closure returns a reference, refuses
(`try_map` only, which gives the guard back) or panics, which drops the guard.

The blocking acquisitions are loops around `try_lock` and `try_lock_owned` that yield after a
failure; a step is one round of such a loop.
-/

namespace OhosFfrt.Mutex.System

open Basic Lib.FifoLock Mutex.State

/-- The guards; `gone` is a guard that was dropped. -/
inductive Guard
  | mutexGuard
  | ownedMutexGuard
  | mappedMutexGuard
  | ownedMappedMutexGuard
  | gone
  deriving DecidableEq, Repr

def Guard.live : Guard → Bool
  | .gone => false
  | _ => true

/-- The result of `map` and `try_map`. -/
def Guard.mapped : Guard → Option Guard
  | .mutexGuard | .mappedMutexGuard => some .mappedMutexGuard
  | .ownedMutexGuard | .ownedMappedMutexGuard => some .ownedMappedMutexGuard
  | .gone => none

def newGuard (owned : Bool) : Guard := if owned then .ownedMutexGuard else .mutexGuard

structure LockFuture where
  owned : Bool
  waiter : Option ℕ
  live : Bool
  deriving DecidableEq, Repr

/-- The mutex, its futures and guards. -/
structure Sys where
  state : MutexState
  futures : List LockFuture
  guards : List Guard
  deriving DecidableEq, Repr

/-- `Mutex::new`. -/
def new : Sys := { state := constNew, futures := [], guards := [] }

/-- What the closure does. -/
inductive Closure
  | returns
  | refuses
  | panics
  deriving DecidableEq, Repr

inductive Op
  /-- `lock` and `lock_owned`: a new future. -/
  | lock (owned : Bool)
  | poll (f : ℕ) (cx : Waker)
  | dropFuture (f : ℕ)
  | tryLock (owned : Bool)
  /-- One round of `blocking_lock` and `blocking_lock_owned`. -/
  | blockingLock (owned : Bool)
  | dropGuard (g : ℕ)
  | map (g : ℕ) (c : Closure)
  | tryMap (g : ℕ) (c : Closure)
  deriving DecidableEq, Repr

/-- The act of the future `f` behind an event of the queue. -/
def actOf (f : ℕ) : Ev → Option (Act ℕ)
  | .registered _ => some (.join f)
  | .granted _ => some (.serve f)
  | .cancelled _ => some (.leave f)
  | .barged => some .barge
  | _ => none

/-- The events of a section the future `f` entered, followed by its act. -/
def signed (f : ℕ) (es : List Ev) : List Ev := es ++ (es.filterMap (actOf f)).map .other

/-- The future `f`, if it is alive. -/
def Sys.future? (s : Sys) (f : ℕ) : Option LockFuture := s.futures[f]?.filter LockFuture.live

/-- The guard `g`, if it is alive. -/
def Sys.guard? (s : Sys) (g : ℕ) : Option Guard := s.guards[g]?.filter Guard.live

/-- The end of a `try_lock`. -/
def Sys.tried (s : Sys) (owned : Bool) : Sys × List Ev :=
  match tryLock s.state with
  | none => (s, [])
  | some state =>
    ({ s with state := state, guards := s.guards ++ [newGuard owned] }, [.barged, .other .barge])

/-- `Drop` for a guard. -/
def Sys.drop (s : Sys) (g : ℕ) : Sys × List Ev :=
  let r := unlock s.state
  ({ s with state := r.1, guards := s.guards.set g .gone }, r.2 ++ [.other .unlock])

def step (s : Sys) : Op → Option (Sys × List Ev)
  | .lock owned => some ({ s with futures := s.futures ++ [⟨owned, none, true⟩] }, [])
  | .poll f cx =>
    (s.future? f).map fun fut =>
      let r := pollLock s.state fut.waiter cx
      ({ state := r.state
         futures := s.futures.set f { fut with waiter := r.waiter }
         guards := if r.ready then s.guards ++ [newGuard fut.owned] else s.guards },
        signed f r.events)
  | .dropFuture f =>
    (s.future? f).map fun fut =>
      let r := cancelWaiter s.state fut.waiter
      ({ s with
         state := r.1
         futures := s.futures.set f { fut with waiter := none, live := false } }, signed f r.2)
  | .tryLock owned | .blockingLock owned => some (s.tried owned)
  | .dropGuard g => (s.guard? g).map fun _ => s.drop g
  | .map g .returns | .tryMap g .returns =>
    ((s.guard? g).bind Guard.mapped).map fun gd => ({ s with guards := s.guards.set g gd }, [])
  | .map _ .refuses => none
  | .tryMap g .refuses => (s.guard? g).map fun _ => (s, [])
  | .map g .panics | .tryMap g .panics => (s.guard? g).map fun _ => s.drop g

/-- The guards alive. -/
def Sys.liveGuards (s : Sys) : ℕ := s.guards.countP Guard.live

/-- The actions of the lock. -/
def actsOf (tr : List Ev) : List (Act ℕ) := tr.filterMap fun | .other a => some a | _ => none

end OhosFfrt.Mutex.System
