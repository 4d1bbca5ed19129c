import OhosFfrt.Lib.Arena
import OhosFfrt.Lib.Runs
import OhosFfrt.RwLock.State

/-!
# `sync::RwLock`: futures, guards and the steps of a run

A run of a lock is any sequence of operations on the lock, its futures and its guards.

The borrowed read guard and the mapped write guard carry the function that releases them
(`release_read_erased`, `release_write_erased`), which mapping copies; the others call theirs
directly (`Guard.release?`).  A mapping closure returns a reference, refuses (`try_*` only) or
panics: the guard is moved out only after the closure has returned, so a panic drops it.

The blocking acquisitions are loops around `try_read` and `try_write` that yield after a failure;
a step is one round of such a loop.
-/

namespace OhosFfrt.RwLock.System

open Basic RwLock.State

/-- What a drop releases. -/
inductive Release
  | read
  | write
  deriving DecidableEq, Repr

/-- The guards.  A read guard and its mapped forms have one type; `gone` is a guard that was
dropped. -/
inductive Guard
  | readGuard (release : Release)
  | writeGuard
  | ownedReadGuard
  | ownedWriteGuard
  | mappedWriteGuard (release : Release)
  | ownedMappedWriteGuard
  | gone
  deriving DecidableEq, Repr

/-- A read guard. -/
def Guard.isRead : Guard → Bool
  | .readGuard _ | .ownedReadGuard => true
  | _ => false

/-- A write guard. -/
def Guard.isWrite : Guard → Bool
  | .writeGuard | .ownedWriteGuard | .mappedWriteGuard _ | .ownedMappedWriteGuard => true
  | _ => false

/-- What the guard's `Drop` calls. -/
def Guard.release? : Guard → Option Release
  | .readGuard release | .mappedWriteGuard release => some release
  | .ownedReadGuard => some .read
  | .writeGuard | .ownedWriteGuard | .ownedMappedWriteGuard => some .write
  | .gone => none

/-- The result of `map` and `try_map` on a guard. -/
def Guard.mapped : Guard → Option Guard
  | .readGuard release => some (.readGuard release)
  | .writeGuard => some (.mappedWriteGuard .write)
  | .ownedReadGuard => some .ownedReadGuard
  | .ownedWriteGuard => some .ownedMappedWriteGuard
  | .mappedWriteGuard release => some (.mappedWriteGuard release)
  | .ownedMappedWriteGuard => some .ownedMappedWriteGuard
  | .gone => none

/-- The result of `downgrade`, `downgrade_map` and `try_downgrade_map`, which only the unmapped
write guards have. -/
def Guard.downgraded : Guard → Option Guard
  | .writeGuard => some (.readGuard .read)
  | .ownedWriteGuard => some .ownedReadGuard
  | _ => none

def newGuard : RwLockWaiterKind → (owned : Bool) → Guard
  | .read, false => .readGuard .read
  | .read, true => .ownedReadGuard
  | .write, false => .writeGuard
  | .write, true => .ownedWriteGuard

/-- `RwLockReadFuture`, `RwLockWriteFuture` and their owned forms. -/
structure LockFuture where
  kind : RwLockWaiterKind
  owned : Bool
  waiter : Option ℕ
  live : Bool
  deriving DecidableEq, Repr

/-- The lock, its futures and guards. -/
structure Sys where
  state : RwLockState
  futures : List LockFuture
  guards : List Guard
  deriving DecidableEq, Repr

/-- `RwLock::with_max_readers`. -/
def withMaxReaders (maxReads : ℕ) : Option Sys :=
  (constWithMaxReaders maxReads).map fun state => { state := state, futures := [], guards := [] }

/-- What the closure does. -/
inductive Closure
  | returns
  | refuses
  | panics
  deriving DecidableEq, Repr

inductive Op
  /-- `read`, `write`, `read_owned`, `write_owned`: a new future. -/
  | future (kind : RwLockWaiterKind) (owned : Bool)
  | poll (f : ℕ) (cx : Waker)
  | dropFuture (f : ℕ)
  | tryRead
  | tryReadOwned
  | tryWrite
  | tryWriteOwned
  | blockingRead
  | blockingWrite
  | dropGuard (g : ℕ)
  | map (g : ℕ) (c : Closure)
  | tryMap (g : ℕ) (c : Closure)
  | intoMapped (g : ℕ)
  | downgrade (g : ℕ)
  | downgradeMap (g : ℕ) (c : Closure)
  | tryDowngradeMap (g : ℕ) (c : Closure)
  deriving DecidableEq, Repr

/-- The end of a `try_*` acquisition. -/
def Sys.tried (s : Sys) (r : Option RwLockState) (gd : Guard) : Sys × List Ev :=
  match r with
  | none => (s, [])
  | some state => ({ s with state := state, guards := s.guards ++ [gd] }, [.barged])

/-- `Drop` for a guard. -/
def Sys.drop (s : Sys) (g : ℕ) : Option (Sys × List Ev) :=
  (s.guards[g]?.bind Guard.release?).bind fun
    | .read => (releaseRead s.state).map fun r =>
        ({ s with state := r.1, guards := s.guards.set g .gone }, r.2)
    | .write =>
        let r := releaseWrite s.state
        some ({ s with state := r.1, guards := s.guards.set g .gone }, r.2)

/-- Mapping the guard `g`: the lock's state is not touched. -/
def Sys.mapTo (s : Sys) (g : ℕ) : Option (Sys × List Ev) :=
  (s.guards[g]?.bind Guard.mapped).map fun gd => ({ s with guards := s.guards.set g gd }, [])

/-- `downgrade` of a guard. -/
def Sys.downgradeTo (s : Sys) (g : ℕ) : Option (Sys × List Ev) :=
  (s.guards[g]?.bind Guard.downgraded).map fun gd =>
    let r := downgradeWrite s.state
    ({ s with state := r.1, guards := s.guards.set g gd }, r.2)

/-- The future `f`, if it is alive. -/
def Sys.future? (s : Sys) (f : ℕ) : Option LockFuture := s.futures[f]?.filter LockFuture.live

def step (s : Sys) : Op → Option (Sys × List Ev)
  | .future kind owned =>
    some ({ s with futures := s.futures ++ [⟨kind, owned, none, true⟩] }, [])
  | .poll f cx =>
    (s.future? f).map fun fut =>
      let r := pollLock s.state fut.waiter fut.kind cx
      ({ state := r.state
         futures := s.futures.set f { fut with waiter := r.waiter }
         guards := if r.ready then s.guards ++ [newGuard fut.kind fut.owned] else s.guards },
        r.events)
  | .dropFuture f =>
    (s.future? f).map fun fut =>
      let r := cancelWaiter s.state fut.waiter
      ({ s with
         state := r.1
         futures := s.futures.set f { fut with waiter := none, live := false } }, r.2)
  | .tryRead | .blockingRead => some (s.tried (tryRead s.state) (.readGuard .read))
  | .tryReadOwned => some (s.tried (tryRead s.state) .ownedReadGuard)
  | .tryWrite | .blockingWrite => some (s.tried (tryWrite s.state) .writeGuard)
  | .tryWriteOwned => some (s.tried (tryWrite s.state) .ownedWriteGuard)
  | .dropGuard g => s.drop g
  | .map g .returns | .tryMap g .returns => s.mapTo g
  | .map _ .refuses => none
  | .tryMap g .refuses => (s.guards[g]?.bind Guard.mapped).map fun _ => (s, [])
  | .map g .panics | .tryMap g .panics => (s.guards[g]?.bind Guard.mapped).bind fun _ => s.drop g
  -- `into_mapped` is `map` with the identity, of the unmapped write guards only
  | .intoMapped g => (s.guards[g]?.bind Guard.downgraded).bind fun _ => s.mapTo g
  | .downgrade g | .downgradeMap g .returns | .tryDowngradeMap g .returns => s.downgradeTo g
  | .downgradeMap _ .refuses => none
  | .tryDowngradeMap g .refuses => (s.guards[g]?.bind Guard.downgraded).map fun _ => (s, [])
  | .downgradeMap g .panics | .tryDowngradeMap g .panics =>
    (s.guards[g]?.bind Guard.downgraded).bind fun _ => s.drop g

/-- The read guards alive. -/
def Sys.readGuards (s : Sys) : ℕ := s.guards.countP Guard.isRead

/-- The write guards alive. -/
def Sys.writeGuards (s : Sys) : ℕ := s.guards.countP Guard.isWrite

end OhosFfrt.RwLock.System
