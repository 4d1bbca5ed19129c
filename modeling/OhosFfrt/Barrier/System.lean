import OhosFfrt.Basic
import OhosFfrt.Lib.Runs

/-!
# `sync::Barrier`: the state, the section under its mutex and the steps of a run

A future counts itself at its first poll and keeps the generation it found; it is done when the
generation has moved on.  It may be polled again with any waker, also when it is done, and dropped
when it was counted.
-/

namespace OhosFfrt.Barrier.System

open Basic

/-- The events.  Futures are numbered in the order of their creation. -/
inductive Ev
  | arrived (f : ℕ)
  | pending (f : ℕ) (w : Waker)
  | ready (f : ℕ) (leader : Bool)
  | woke (w : Waker)
  deriving DecidableEq, Repr

structure BarrierState where
  generation : ℕ
  arrived : ℕ
  waiters : List Waker
  deriving DecidableEq, Repr

/-- `BarrierFuture`; a dropped one is not `live`. -/
structure BarrierFuture where
  generation : ℕ
  registered : Bool
  leader : Bool
  live : Bool
  deriving DecidableEq, Repr

/-- The barrier and its futures. -/
structure Sys where
  state : BarrierState
  threshold : ℕ
  futures : List BarrierFuture
  deriving DecidableEq, Repr

/-- `Barrier::new`. -/
def new (n : ℕ) : Sys where
  state := ⟨0, 0, []⟩
  threshold := if n = 0 then 1 else n
  futures := []

/-- `Barrier::wait`. -/
def wait : BarrierFuture where
  generation := 2 ^ 64 - 1
  registered := false
  leader := false
  live := true

/-- What a poll comes to: the result (`none` is `Pending`), the future and the state afterwards, and
the wakers that are woken. -/
structure Polled where
  result : Option Bool
  future : BarrierFuture
  state : BarrierState
  woken : List Waker

/-- `BarrierFuture::poll`. -/
def poll (threshold : ℕ) (st : BarrierState) (fut : BarrierFuture) (cx : Waker) : Polled :=
  if !fut.registered then
    let fut' := { fut with registered := true, generation := st.generation }
    if st.arrived + 1 = threshold then
      { result := some true
        future := { fut' with leader := true }
        state := ⟨(st.generation + 1) % 2 ^ 64, 0, []⟩
        woken := st.waiters }
    else
      { result := none
        future := fut'
        state := ⟨st.generation, st.arrived + 1, st.waiters ++ [cx]⟩
        woken := [] }
  else if st.generation ≠ fut.generation then ⟨some fut.leader, fut, st, []⟩
  else ⟨none, fut, { st with waiters := st.waiters ++ [cx] }, []⟩

inductive Op
  | wait
  | poll (f : ℕ) (cx : Waker)
  | dropFuture (f : ℕ)
  deriving DecidableEq, Repr

/-- The future `f`, if it is alive. -/
def Sys.future? (s : Sys) (f : ℕ) : Option BarrierFuture := s.futures[f]?.filter (·.live)

/-- What a poll returns. -/
def report (f : ℕ) (cx : Waker) : Option Bool → Ev
  | none => .pending f cx
  | some leader => .ready f leader

def step (s : Sys) : Op → Option (Sys × List Ev)
  | .wait => some ({ s with futures := s.futures ++ [wait] }, [])
  | .poll f cx =>
    (s.future? f).map fun fut =>
      let p := poll s.threshold s.state fut cx
      ({ s with state := p.state, futures := s.futures.set f p.future },
        (if fut.registered then [] else [.arrived f]) ++ p.woken.map .woke ++
          [report f cx p.result])
  | .dropFuture f =>
    (s.future? f).map fun fut =>
      ({ s with futures := s.futures.set f { fut with live := false } }, [])

/-- The futures that arrived. -/
def arrivals (tr : List Ev) : List ℕ := tr.filterMap fun | .arrived f => some f | _ => none

end OhosFfrt.Barrier.System
