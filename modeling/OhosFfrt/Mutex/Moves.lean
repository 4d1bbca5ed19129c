import OhosFfrt.Lib.Waiting
import OhosFfrt.Mutex.System

/-!
# `sync::Mutex`: what a step can do

Every step keeps the count of guards (`excl_step`).  The clients of the mutex's queue are its
futures, and as long as queue and futures agree every step is a turn at the lock (`step_turn`).
-/

namespace OhosFfrt.Mutex.Moves

open Basic Lib.WaitQueue Lib.Waiting List Option
open Lib.Arena (known known_of known_set known_snoc count_same count_gone)
open Mutex.State Mutex.System

/-! ## Polls -/

section poll
variable (s : MutexState) (w : Option ℕ) (cx : Waker)

theorem pollLock_cases :
    (Unqueued s.waiters w ∧ s.waiters = [] ∧ s.locked = false ∧
      pollLock s w cx = ⟨true, none, { s with locked := true }, [.barged]⟩) ∨
    (Unqueued s.waiters w ∧ (s.waiters = [] → s.locked = true) ∧
      pollLock s w cx = ⟨false, some s.nextWaiter,
        { s with
          nextWaiter := nextId s.nextWaiter
          waiters := s.waiters ++ [⟨s.nextWaiter, (), cx⟩] }, [.registered s.nextWaiter]⟩) ∨
    (∃ e q, w = some e.id ∧ s.waiters = e :: q ∧ s.locked = false ∧
      pollLock s w cx = ⟨true, none, { s with locked := true, waiters := s.waiters.tail },
        [.granted e.id]⟩) ∨
    (∃ id p, w = some id ∧ position s.waiters id = some p ∧ (p = 0 → s.locked = true) ∧
      pollLock s w cx = ⟨false, some id, { s with waiters := setWaker s.waiters p cx },
        [.polled id]⟩) := by
  have hfresh : Unqueued s.waiters w → pollLock s w cx = pollFresh s cx := by
    intro hu
    rcases w with _ | id
    · rfl
    · simp [pollLock, hu id rfl]
  rcases place s.waiters (!s.locked) w with ⟨hu, hq, hl⟩ | ⟨hu, hl⟩ | ⟨hq, hp, hl⟩ | ⟨hp, hl⟩ <;>
    simp only [Bool.not_eq_true', Bool.not_eq_false'] at hl
  · refine .inl ⟨hu, hq, hl, ?_⟩
    simp [hfresh hu, pollFresh, hq, hl]
  · refine .inr (.inl ⟨hu, hl, ?_⟩)
    rw [hfresh hu, pollFresh, if_neg]
    simpa using fun hn hq => Bool.eq_false_iff.mp hn (hl hq)
  · refine .inr (.inr (.inl ⟨_, _, rfl, hq, hl, ?_⟩))
    simp [pollLock, hp, hl]
  · refine .inr (.inr (.inr ⟨_, _, rfl, hp, hl, ?_⟩))
    simp only [pollLock, hp]
    rw [if_neg]
    simpa using hl

end poll

/-- The waker that `cancel_waiter` wakes when the waiter `id` at the place `p` is removed. -/
def nextInLine (locked : Bool) (q : List MutexWaiter) (id p : ℕ) : Option Waker :=
  if q.head?.any (fun w => w.id = id) && !locked then (q.eraseIdx p).head?.map Waiter.waker
  else none

theorem cancelWaiter_some {st : MutexState} {id p : ℕ} (hp : position st.waiters id = some p) :
    cancelWaiter st (some id) = ({ st with waiters := st.waiters.eraseIdx p },
      .cancelled id :: wake (nextInLine st.locked st.waiters id p)) := by
  simp only [cancelWaiter, hp]
  rfl

theorem cancelWaiter_locked (st : MutexState) (w : Option ℕ) :
    (cancelWaiter st w).1.locked = st.locked := by
  rcases w with _ | id
  · rfl
  · unfold cancelWaiter
    rcases hp : position st.waiters id with _ | p <;> simp [hp]

theorem tryLock_some {st st' : MutexState} (h : tryLock st = some st') :
    st.locked = false ∧ st.waiters = [] ∧ st' = { st with locked := true } := by
  unfold tryLock at h
  split_ifs at h with hc
  simp only [Bool.or_eq_true, Bool.not_eq_true', not_or, Bool.not_eq_true, Bool.not_eq_false,
    List.isEmpty_iff] at hc
  simp only [some.injEq] at h
  exact ⟨hc.1, hc.2, h.symm⟩

/-! ## Steps -/

/-- After a poll of `f`. -/
def polledSys (s : Sys) (f : ℕ) (fut : LockFuture) (r : Polled) : Sys where
  state := r.state
  futures := s.futures.set f { fut with waiter := r.waiter }
  guards := if r.ready then s.guards ++ [newGuard fut.owned] else s.guards

/-- After the drop of `f`. -/
def cancelledSys (s : Sys) (f : ℕ) (fut : LockFuture) (state : MutexState) : Sys where
  state := state
  futures := s.futures.set f { fut with waiter := none, live := false }
  guards := s.guards

/-- **What a step can do.** -/
inductive Moved (s : Sys) : Op → Sys → List Ev → Prop
  | create {owned : Bool} : Moved s (.lock owned)
      { s with futures := s.futures ++ [⟨owned, none, true⟩] } []
  | poll {f : ℕ} {cx : Waker} {fut : LockFuture} (hf : s.future? f = some fut) :
      Moved s (.poll f cx) (polledSys s f fut (pollLock s.state fut.waiter cx))
        (signed f (pollLock s.state fut.waiter cx).events)
  | cancel {f : ℕ} {fut : LockFuture} (hf : s.future? f = some fut) :
      Moved s (.dropFuture f) (cancelledSys s f fut (cancelWaiter s.state fut.waiter).1)
        (signed f (cancelWaiter s.state fut.waiter).2)
  /-- A `try_lock` that fails, a `try_map` that gives the guard back. -/
  | refuse {op : Op} : Moved s op s []
  | barge {op : Op} {owned : Bool} (hl : s.state.locked = false) (hq : s.state.waiters = []) :
      Moved s op { s with
        state := { s.state with locked := true }
        guards := s.guards ++ [newGuard owned] } [.barged, .other .barge]
  | drop {op : Op} {g : ℕ} {gd : Guard} (hg : s.guards[g]? = some gd) (hlive : gd.live = true) :
      Moved s op (s.drop g).1 (s.drop g).2
  | map {op : Op} {g : ℕ} {gd gd' : Guard} (hg : s.guards[g]? = some gd) (hlive : gd.live = true)
      (hlive' : gd'.live = true) : Moved s op { s with guards := s.guards.set g gd' } []

variable {s s' : Sys} {op : Op} {es : List Ev} {f g : ℕ} {fut : LockFuture} {gd : Guard}

theorem guard?_some (h : s.guard? g = some gd) :
    s.guards[g]? = some gd ∧ gd.live = true := filter_eq_some_iff.mp h

theorem live_mapped {gd' : Guard} (h : gd.mapped = some gd') : gd'.live = true := by
  cases gd <;> simp only [Guard.mapped, some.injEq, reduceCtorEq] at h <;> subst h <;> rfl

theorem live_newGuard (owned : Bool) : (newGuard owned).live = true := by cases owned <;> rfl

theorem moved_tried {owned : Bool} (h : s.tried owned = (s', es)) : Moved s op s' es := by
  unfold Sys.tried at h
  rcases ht : tryLock s.state with _ | st <;> rw [ht] at h <;> cases h
  · exact .refuse
  · obtain ⟨h1, h2, rfl⟩ := tryLock_some ht
    exact .barge h1 h2

theorem moved_drop (h : ((s.guard? g).map fun _ => s.drop g) = some (s', es)) :
    Moved s op s' es := by
  simp only [map_eq_some_iff] at h
  obtain ⟨gd, hg, h⟩ := h
  obtain ⟨h1, h2⟩ := guard?_some hg
  have hm : Moved s op (s.drop g).1 (s.drop g).2 := .drop h1 h2
  rw [h] at hm
  exact hm

theorem moved_map (h : (((s.guard? g).bind Guard.mapped).map fun gd =>
    (({ s with guards := s.guards.set g gd }, []) : Sys × List Ev)) = some (s', es)) :
    Moved s op s' es := by
  simp only [map_eq_some_iff, bind_eq_some_iff, Prod.mk.injEq] at h
  obtain ⟨gd', ⟨gd, hg, hm⟩, rfl, rfl⟩ := h
  obtain ⟨h1, h2⟩ := guard?_some hg
  exact .map h1 h2 (live_mapped hm)

theorem step_moved (h : step s op = some (s', es)) : Moved s op s' es := by
  rcases op with owned | ⟨f, cx⟩ | f | owned | owned | g | ⟨g, c⟩ | ⟨g, c⟩
  · cases h
    exact .create
  · obtain ⟨fut, hf, ⟨⟩⟩ := map_eq_some_iff.mp h
    exact .poll hf
  · obtain ⟨fut, hf, ⟨⟩⟩ := map_eq_some_iff.mp h
    exact .cancel hf
  · exact moved_tried (some.inj h)
  · exact moved_tried (some.inj h)
  · exact moved_drop h
  · rcases c with _ | _ | _
    · exact moved_map h
    · simp [step] at h
    · exact moved_drop h
  · rcases c with _ | _ | _
    · exact moved_map h
    · obtain ⟨gd, -, ⟨⟩⟩ := map_eq_some_iff.mp h
      exact .refuse
    · exact moved_drop h

/-! ## One guard -/

/-- **The lock is held iff exactly one guard is live.** -/
def Excl (s : Sys) : Prop := s.liveGuards = if s.state.locked then 1 else 0

theorem live_locked (h : Excl s) (hg : s.guards[g]? = some gd)
    (hlive : gd.live = true) : s.state.locked = true := by
  by_contra hl
  rw [Excl, if_neg hl, Sys.liveGuards, countP_eq_zero] at h
  exact h gd (mem_of_getElem? hg) hlive

theorem excl_acquire {s1 : Sys} {owned : Bool} (h : Excl s) (hl : s.state.locked = false)
    (hl' : s1.state.locked = true) (hg : s1.guards = s.guards ++ [newGuard owned]) : Excl s1 := by
  unfold Excl Sys.liveGuards at *
  rw [hl] at h
  rw [hl', hg, countP_append, h]
  simp [live_newGuard]

theorem excl_poll (h : Excl s) (cx : Waker) :
    Excl (polledSys s f fut (pollLock s.state fut.waiter cx)) := by
  rcases pollLock_cases s.state fut.waiter cx with
    ⟨-, -, hl, he⟩ | ⟨-, -, he⟩ | ⟨e, q, -, -, hl, he⟩ | ⟨id, p, -, -, -, he⟩ <;> rw [he]
  · exact excl_acquire h hl rfl rfl
  · exact h
  · exact excl_acquire h hl rfl rfl
  · exact h

theorem excl_step (h : Excl s) (hs : step s op = some (s', es)) : Excl s' := by
  cases step_moved hs with
  | create => exact h
  | poll => exact excl_poll h _
  | cancel =>
    unfold Excl at *
    rw [show (cancelledSys s _ _ _).state.locked = s.state.locked from cancelWaiter_locked _ _]
    exact h
  | refuse => exact h
  | barge hl => exact excl_acquire h hl rfl rfl
  | drop hg hlive =>
    rw [Excl, live_locked h hg hlive] at h
    exact (count_gone h.symm hg hlive rfl rfl).symm
  | map hg hlive hlive' => exact (count_same h.symm hg (hlive'.trans hlive.symm)).symm

/-! ## Steps as moves of the queue -/

/-- The waiter it remembers. -/
def LockFuture.held (fut : LockFuture) : Option (ℕ × Unit) := fut.waiter.map fun id => (id, ())

/-- **The mutex as a wait queue with clients.** -/
def clients (s : Sys) : Clients ℕ Unit Waker where
  next := s.state.nextWaiter
  queue := s.state.waiters
  held := known LockFuture.held s.futures

theorem clients_polled (hf : s.futures[f]? = some fut) (r : Polled) :
    clients (polledSys s f fut r) =
      { next := r.state.nextWaiter
        queue := r.state.waiters
        held := Function.update (clients s).held f (r.waiter.map fun id => (id, ())) } := by
  unfold clients polledSys
  rw [known_set hf]
  rfl

theorem clients_cancelled (hf : s.futures[f]? = some fut) (st : MutexState) :
    clients (cancelledSys s f fut st) =
      { next := st.nextWaiter
        queue := st.waiters
        held := Function.update (clients s).held f none } := by
  unfold clients cancelledSys
  rw [known_set hf]
  rfl

/-- **A turn at the lock**: what a step can be, for the flag `b` and the queue with its clients
`c`. -/
inductive Turn (b : Bool) (c : Clients ℕ Unit Waker) :
    List Ev → Bool → Clients ℕ Unit Waker → Prop
  | idle : Turn b c [] b c
  | barge (hb : b = false) (hq : c.queue = []) : Turn b c [.barged, .other .barge] true c
  | join {f : ℕ} {cx : Waker} (hb : c.queue = [] → b = true) (hf : c.held f = none) :
      Turn b c [.registered c.next, .other (.join f)] b
        { next := nextId c.next
          queue := c.queue ++ [⟨c.next, (), cx⟩]
          held := Function.update c.held f (some (c.next, ())) }
  | serve {f : ℕ} {e : MutexWaiter} {q : List MutexWaiter} (hb : b = false)
      (hq : c.queue = e :: q) (hf : c.held f = some (e.id, ())) :
      Turn b c [.granted e.id, .other (.serve f)] true
        { c with queue := q, held := Function.update c.held f none }
  | stay {id p : ℕ} (cx : Waker) (hp : position c.queue id = some p) (hb : p = 0 → b = true) :
      Turn b c [.polled id] b { c with queue := setWaker c.queue p cx }
  | leave {f id p : ℕ} (hf : c.held f = some (id, ())) (hp : position c.queue id = some p) :
      Turn b c (.cancelled id :: (wake (nextInLine b c.queue id p) ++ [.other (.leave f)])) b
        { c with queue := c.queue.eraseIdx p, held := Function.update c.held f none }
  | unlock (hb : b = true) :
      Turn b c (wake (c.queue.head?.map Waiter.waker) ++ [.other .unlock]) false c

theorem turn_poll (hl : Linked s.state.waiters (clients s).held) (hf : s.futures[f]? = some fut)
    (cx : Waker) :
    Turn s.state.locked (clients s) (signed f (pollLock s.state fut.waiter cx).events)
      (pollLock s.state fut.waiter cx).state.locked
      (clients (polledSys s f fut (pollLock s.state fut.waiter cx))) := by
  have hi : (clients s).held f = fut.waiter.map (·, ()) := known_of hf
  rw [clients_polled hf]
  rcases pollLock_cases s.state fut.waiter cx with
    ⟨hu, hq, hb, he⟩ | ⟨hu, hb, he⟩ | ⟨e, q, hw, hq, hb, he⟩ | ⟨id, p, hw, hp, hb, he⟩ <;> rw [he]
  · have ht : Turn s.state.locked (clients s) _ true (clients s) := .barge hb hq
    simp only [map_none]
    rw [← hl.unqueued hi hu, Function.update_eq_self]
    exact ht
  · exact .join hb (hl.unqueued hi hu)
  · rw [hw] at hi
    have ht : Turn s.state.locked (clients s) _ true _ :=
      .serve hb (show (clients s).queue = e :: q from hq) hi
    rw [hq]
    exact ht
  · have ht : Turn s.state.locked (clients s) _ _ _ :=
      .stay cx (show position (clients s).queue id = some p from hp) hb
    rw [← hw, ← hi, Function.update_eq_self]
    exact ht

theorem turn_cancel (hl : Linked s.state.waiters (clients s).held) (hf : s.futures[f]? = some fut) :
    Turn s.state.locked (clients s) (signed f (cancelWaiter s.state fut.waiter).2)
      (cancelWaiter s.state fut.waiter).1.locked
      (clients (cancelledSys s f fut (cancelWaiter s.state fut.waiter).1)) := by
  have hi : (clients s).held f = fut.waiter.map (·, ()) := known_of hf
  rw [clients_cancelled hf]
  rcases hw : fut.waiter with _ | id <;> rw [hw] at hi
  · have ht : Turn s.state.locked (clients s) [] _ (clients s) := .idle
    unfold cancelWaiter
    rw [← show (clients s).held f = none from hi, Function.update_eq_self]
    exact ht
  · obtain ⟨p, hp⟩ := hl.position hi
    have hs : signed f (.cancelled id :: wake (nextInLine s.state.locked s.state.waiters id p)) =
        .cancelled id :: (wake (nextInLine s.state.locked s.state.waiters id p) ++
          [.other (.leave f)]) := by
      unfold signed
      rcases nextInLine s.state.locked s.state.waiters id p with _ | w <;> rfl
    rw [cancelWaiter_some hp, hs]
    exact .leave hi hp

theorem step_turn (hx : Excl s) (hl : Linked s.state.waiters (clients s).held)
    (hs : step s op = some (s', es)) :
    Turn s.state.locked (clients s) es s'.state.locked (clients s') := by
  cases step_moved hs with
  | @create owned =>
    have hc : clients { s with futures := s.futures ++ [⟨owned, none, true⟩] } = clients s := by
      unfold clients
      rw [known_snoc rfl]
    rw [hc]
    exact .idle
  | poll hf => exact turn_poll hl (filter_eq_some_iff.mp hf).1 _
  | cancel hf => exact turn_cancel hl (filter_eq_some_iff.mp hf).1
  | refuse => exact .idle
  | barge hb hq =>
    exact Turn.barge (c := clients s) hb hq
  | drop hg hlive => exact Turn.unlock (c := clients s) (live_locked hx hg hlive)
  | map => exact Turn.idle (c := clients s)

end OhosFfrt.Mutex.Moves
