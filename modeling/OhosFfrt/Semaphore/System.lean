import OhosFfrt.Lib.Arena
import OhosFfrt.Lib.Runs
import OhosFfrt.Semaphore.State

/-!
# `sync::Semaphore`: futures, permits and the steps of a run

A run is any sequence of operations on the semaphore, its futures and its permits.  Borrowed and
owned futures and permits have the same code; `owned` only keeps them apart, since a permit is
merged with one of its own type.

Dropping a permit calls `add_permits`, which may panic; the permit is gone all the same.  A drop
that panics while another panic unwinds aborts the process: the step has no successor.
-/

namespace OhosFfrt.Semaphore.System

open Basic Lib.Arena Semaphore.State

/-- `SemaphorePermit` and `OwnedSemaphorePermit`; a dropped one is not `live`. -/
structure SemaphorePermit where
  permits : ℕ
  forgotten : Bool
  owned : Bool
  live : Bool
  deriving DecidableEq, Repr

/-- `num_permits` of a permit that is still there. -/
def SemaphorePermit.numPermits (pm : SemaphorePermit) : ℕ := if pm.live then pm.permits else 0

def newPermit (permits : ℕ) (owned : Bool) : SemaphorePermit := ⟨permits, false, owned, true⟩

/-- It is dropped. -/
def SemaphorePermit.gone (pm : SemaphorePermit) : SemaphorePermit := { pm with live := false }

structure AcquireFuture where
  permits : ℕ
  owned : Bool
  waiter : Option ℕ
  live : Bool
  deriving DecidableEq, Repr

/-- The semaphore, its futures and permits. -/
structure Sys where
  state : SemaphoreState
  futures : List AcquireFuture
  permits : List SemaphorePermit
  deriving DecidableEq, Repr

/-- `Semaphore::new`. -/
def new (permits : ℕ) : Option Sys :=
  (constNew permits).map fun state => { state := state, futures := [], permits := [] }

/-- The operations.  The number of permits of an acquisition is a `u32`. -/
inductive Op
  /-- `acquire_many`, `acquire_many_owned`; `acquire` and `acquire_owned` are those with one
  permit. -/
  | acquireMany (permits : UInt32) (owned : Bool)
  | poll (f : ℕ) (cx : Waker)
  | dropFuture (f : ℕ)
  /-- `try_acquire_many`, `try_acquire_many_owned`, and those with one permit. -/
  | tryAcquireMany (permits : UInt32) (owned : Bool)
  | dropPermit (g : ℕ)
  | forget (g : ℕ)
  /-- `merge` of the permit `other` into the permit `g`. -/
  | merge (g other : ℕ)
  /-- `merge` of the permit `other` into a permit of another semaphore. -/
  | mergeForeign (other : ℕ)
  | split (g n : ℕ)
  | addPermits (n : ℕ)
  | forgetPermits (n : ℕ)
  | close
  deriving DecidableEq, Repr

/-- The future `f`, if it is alive. -/
def Sys.future? (s : Sys) (f : ℕ) : Option AcquireFuture := s.futures[f]?.filter AcquireFuture.live

/-- The permit `g`, if it is alive. -/
def Sys.permit? (s : Sys) (g : ℕ) : Option SemaphorePermit :=
  s.permits[g]?.filter SemaphorePermit.live

/-- The permit `g` is taken out and dropped: the end of `drop` and `forget`. -/
def Sys.drop (s : Sys) (g : ℕ) (pm : SemaphorePermit) : Sys × List Ev :=
  let permits := s.permits.set g pm.gone
  if pm.forgotten then ({ s with permits := permits }, [.other (.forgot pm.permits)])
  else
    match addPermits s.state pm.permits with
    | some r => ({ s with state := r.1, permits := permits }, r.2)
    | none => ({ s with permits := permits }, [.other (.lost pm.permits)])

/-- A panic drops the permit. -/
def Sys.unwind (s : Sys) (g : ℕ) (pm : SemaphorePermit) : Option (Sys × List Ev) :=
  (addPermits s.state pm.permits).map fun r =>
    ({ s with state := r.1, permits := s.permits.set g pm.gone }, r.2)

/-- `merge` of two permits of this semaphore.  Once the numbers are added, `other` is dropped with
no permits. -/
def Sys.merge (s : Sys) (g other : ℕ) (pm pm' : SemaphorePermit) : Option (Sys × List Ev) :=
  match checkedAdd pm.permits pm'.permits with
  | some n =>
    some (Sys.drop { s with permits := s.permits.set g { pm with permits := n } } other
      { pm' with permits := 0 })
  | none => s.unwind other pm'

def step (s : Sys) : Op → Option (Sys × List Ev)
  | .acquireMany permits owned =>
    some ({ s with futures := s.futures ++ [⟨permits.toNat, owned, none, true⟩] }, [])
  | .poll f cx =>
    (s.future? f).map fun fut =>
      let r := pollAcquire s.state fut.waiter fut.permits cx
      ({ state := r.state
         futures := s.futures.set f { fut with waiter := r.waiter }
         permits := if r.outcome = .acquired then s.permits ++ [newPermit fut.permits fut.owned]
           else s.permits }, r.events)
  | .dropFuture f =>
    (s.future? f).map fun fut =>
      let r := cancelWaiter s.state fut.waiter
      ({ s with
         state := r.1
         futures := s.futures.set f { fut with waiter := none, live := false } }, r.2)
  | .tryAcquireMany permits owned =>
    match tryTake s.state permits.toNat with
    | .ok state =>
      some ({ s with state := state, permits := s.permits ++ [newPermit permits.toNat owned] },
        [.barged])
    | .error .closed => some (s, [.other .failedClosed])
    | .error .noPermits => some (s, [.other .failedNoPermits])
  | .dropPermit g => (s.permit? g).map fun pm => s.drop g pm
  | .forget g => (s.permit? g).map fun pm => s.drop g { pm with forgotten := true }
  | .merge g other =>
    (s.permit? g).bind fun pm => (s.permit? other).bind fun pm' =>
      if g ≠ other ∧ pm.owned = pm'.owned then s.merge g other pm pm' else none
  | .mergeForeign other => (s.permit? other).bind fun pm => s.unwind other pm
  | .split g n =>
    (s.permit? g).map fun pm =>
      if n > pm.permits then (s, [])
      else ({ s with
        permits := s.permits.set g { pm with permits := pm.permits - n } ++
          [newPermit n pm.owned] }, [])
  | .addPermits n =>
    match addPermits s.state n with
    | some r => some ({ s with state := r.1 }, .other (.added n) :: r.2)
    | none => some (s, [.other .addPanicked])
  | .forgetPermits n =>
    let r := forgetPermits s.state n
    some ({ s with state := r.1 }, [.other (.reduced r.2)])
  | .close =>
    let r := close s.state
    some ({ s with state := r.1 }, r.2)

/-- The permits handed out. -/
def Sys.held (s : Sys) : ℕ := total SemaphorePermit.numPermits s.permits

end OhosFfrt.Semaphore.System
