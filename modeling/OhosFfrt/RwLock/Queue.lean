import OhosFfrt.RwLock.Moves

/-!
# `sync::RwLock`: the wait queue

The clients of the lock's queue are its futures: a future remembers the id of its waiter and waits
for its kind.  Every step of the lock is a move of the wait queue (`step_moves`), as long as queue
and futures agree; below `2 ^ 64` registrations they do.
-/

namespace OhosFfrt.RwLock.Queue

open Basic Lib.Runs Lib.WaitQueue Lib.Waiting List Option
open RwLock.State RwLock.System RwLock.Moves
open Lib.Arena (known known_of known_set known_snoc)

/-- The waiter it remembers. -/
def LockFuture.held (fut : LockFuture) : Option (ℕ × RwLockWaiterKind) :=
  fut.waiter.map fun id => (id, fut.kind)

/-- **The lock as a wait queue with clients.** -/
def clients (s : Sys) : Clients ℕ RwLockWaiterKind Waker where
  next := s.state.nextWaiter
  queue := s.state.waiters
  held := known LockFuture.held s.futures

variable {s s' : Sys} {op : Op} {es tr : List Ev} {f : ℕ} {fut : LockFuture} {id : ℕ}

theorem poll_moves {cx : Waker} (hl : Linked s.state.waiters (clients s).held)
    (hf : s.futures[f]? = some fut) :
    Moves (clients s) (pollLock s.state fut.waiter fut.kind cx).events
      (clients (polledSys s f fut (pollLock s.state fut.waiter fut.kind cx))) := by
  unfold polledSys clients
  rw [known_set hf]
  exact (pollLock_polls ..).moves (c := clients s) hl (known_of hf)

theorem cancel_moves (hl : Linked s.state.waiters (clients s).held)
    (hf : s.futures[f]? = some fut) :
    Moves (clients s) (cancelWaiter s.state fut.waiter).2
      (clients (cancelledSys s f fut (cancelWaiter s.state fut.waiter).1)) := by
  rw [cancelWaiter_eq]
  unfold cancelledSys clients
  rw [known_set hf]
  exact Lib.Waiting.cancel_moves (c := clients s) hl (known_of hf)

theorem step_moves (hl : Linked s.state.waiters (clients s).held)
    (hs : step s op = some (s', es)) : Moves (clients s) es (clients s') := by
  cases step_moved hs with
  | @create kind owned =>
    have hh : clients { s with futures := s.futures ++ [⟨kind, owned, none, true⟩] } =
        clients s := by
      unfold clients
      rw [known_snoc rfl]
    rw [hh]
    exact .quiet (by simp)
  | poll hf => exact poll_moves hl (filter_eq_some_iff.mp hf).1
  | cancel hf => exact cancel_moves hl (filter_eq_some_iff.mp hf).1
  | refuse | map => exact .quiet (by simp)
  | @barge op kind =>
    cases kind <;> exact .quiet (by simp [Quiet])
  | dropRead | dropWrite | downgrade => exact .quiet (quiet_wake _)

theorem clients_init {m : ℕ} {s₀ : Sys} (h0 : withMaxReaders m = some s₀) :
    clients s₀ = ⟨1, [], fun _ => none⟩ := by
  unfold withMaxReaders constWithMaxReaders at h0
  split_ifs at h0 with hm
  · simp only [map_some, some.injEq] at h0
    subst h0
    rfl
  · simp at h0

theorem orderly_run {m : ℕ} {s₀ : Sys} {C : List Ev → Sys → Op → Prop}
    (h0 : withMaxReaders m = some s₀) (h : Run step C s₀ tr s)
    (hn : (registered tr).length < 2 ^ 64) : Orderly tr (clients s) := by
  refine h.inv (I := fun tr s => (registered tr).length < 2 ^ 64 → Orderly tr (clients s))
    ?_ ?_ hn
  · intro _
    rw [clients_init h0]
    exact Orderly.init
  · intro tr s op s' es hI _ hs hn'
    have ho := hI (by rw [registered_append, length_append] at hn'; omega)
    exact (step_moves ho.linked hs).orderly ho hn'

/-- **Who gets the lock while others wait**: only a future whose waiter is at the front. -/
theorem acquired_front (hs : step s op = some (s', es)) (hq : s.state.waiters ≠ [])
    (hg : s.guards.length < s'.guards.length) :
    ∃ f cx fut id, op = .poll f cx ∧ s.future? f = some fut ∧ fut.waiter = some id ∧
      (s.state.waiters.map Waiter.id).head? = some id ∧ .granted id ∈ es := by
  cases step_moved hs with
  | create | cancel | refuse => exact absurd hg (Nat.lt_irrefl _)
  | @poll f cx fut hf =>
    rcases pollLock_cases s.state fut.waiter fut.kind cx with
      ⟨-, h, -, -⟩ | ⟨-, -, he⟩ | ⟨e, q, hw, h, -, he⟩ | ⟨id, p, -, -, -, he⟩
    · exact absurd h hq
    · rw [he] at hg
      exact absurd hg (Nat.lt_irrefl _)
    · refine ⟨f, cx, fut, e.id, rfl, hf, hw, ?_, ?_⟩
      · rw [h, map_cons, head?_cons]
      · rw [he]
        exact mem_cons_self
    · rw [he] at hg
      exact absurd hg (Nat.lt_irrefl _)
  | barge h => exact absurd h hq
  | dropRead | dropWrite | map | downgrade => simp at hg

/-- **The lock is first in, first out.**  In a run with fewer than `2 ^ 64` registrations the ids
registered by a first poll, in order and without those whose future was dropped, are the granted
ones followed by the queued ones; while anyone waits a guard is only given to the future at the
front of the queue; and a future that remembers a waiter has exactly one in the queue, so a poll
finds it. -/
theorem rwlock_fifo {m : ℕ} {s₀ : Sys} (h0 : withMaxReaders m = some s₀)
    (h : Run step Any s₀ tr s) (hn : (registered tr).length < 2 ^ 64) :
    (registered tr).Nodup ∧
    (registered tr).filter (fun id => id ∉ cancelled tr) =
      granted tr ++ s.state.waiters.map Waiter.id ∧
    (∀ op s' es, step s op = some (s', es) → s.state.waiters ≠ [] →
      s.guards.length < s'.guards.length →
      ∃ f cx fut id, op = .poll f cx ∧ s.future? f = some fut ∧ fut.waiter = some id ∧
        (s.state.waiters.map Waiter.id).head? = some id ∧ .granted id ∈ es) ∧
    ∀ (f : ℕ) (fut : LockFuture) (id : ℕ), s.futures[f]? = some fut → fut.waiter = some id →
      (s.state.waiters.map Waiter.id).count id = 1 ∧ position s.state.waiters id ≠ none := by
  have ho := orderly_run h0 h hn
  refine ⟨ho.fifo.nodup, ho.fifo.order, fun op s' es => acquired_front, ?_⟩
  intro f fut id hf hw
  have hi : (clients s).held f = some (id, fut.kind) :=
    (known_of hf).trans (congrArg (Option.map (·, fut.kind)) hw)
  obtain ⟨p, hp⟩ := ho.linked.position hi
  refine ⟨ho.linked.count hi, ?_⟩
  rw [show position s.state.waiters id = some p from hp]
  simp

/-- A reader waits behind a writer, and a second writer behind the reader. -/
theorem rwlock_fifo_two : ∃ s₀ s tr, withMaxReaders 3 = some s₀ ∧
    exec step s₀ [.tryWrite, .future .read false, .poll 0 7, .future .write false, .poll 1 8,
      .dropGuard 0, .poll 0 7] = some (s, tr) ∧
    (registered tr).filter (fun id => id ∉ cancelled tr) =
      granted tr ++ s.state.waiters.map Waiter.id ∧ granted tr = [1] ∧ registered tr = [1, 2] := by
  refine ⟨_, _, _, rfl, rfl, ?_, rfl, rfl⟩
  exact (rwlock_fifo (m := 3) rfl (run_exec [.tryWrite, .future .read false, .poll 0 7,
    .future .write false, .poll 1 8, .dropGuard 0, .poll 0 7] rfl) (by decide)).2.1

end OhosFfrt.RwLock.Queue
