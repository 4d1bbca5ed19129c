import OhosFfrt.Semaphore.Moves

/-!
# `sync::Semaphore`: the wait queue

The clients of the semaphore's queue are its futures, each waiting for its number of permits.
`close` empties the queue for good; a future may then still remember an id that is no longer there.
While it is open the queue is orderly (`orderly_run`).
-/

namespace OhosFfrt.Semaphore.Queue

open Basic Lib.Runs Lib.WaitQueue Lib.Waiting List Option
open Semaphore.State Semaphore.System Semaphore.Moves
open Lib.Arena (known known_of known_set known_snoc)

/-- The waiter it remembers. -/
def AcquireFuture.held (fut : AcquireFuture) : Option (ℕ × ℕ) :=
  fut.waiter.map fun id => (id, fut.permits)

/-- **The semaphore as a wait queue with clients.** -/
def clients (s : Sys) : Clients ℕ ℕ Waker where
  next := s.state.nextWaiter
  queue := s.state.waiters
  held := known AcquireFuture.held s.futures

variable {s s' : Sys} {op : Op} {es tr : List Ev} {f : ℕ} {fut : AcquireFuture}

theorem clients_eq (hst : s'.state = { s.state with permits := s'.state.permits })
    (hfu : s'.futures = s.futures) : clients s' = clients s := by
  unfold clients
  rw [hst, hfu]

/-! ## Closing -/

/-- **A closed semaphore** has an empty queue. -/
def Drained (s : Sys) : Prop := s.state.closed = true → s.state.waiters = []

theorem closed_eq (h : step s op = some (s', es)) (hop : op ≠ .close) :
    s'.state.closed = s.state.closed := by
  cases step_moved h with
  | create => rfl
  | poll => exact (pollAcquire_counters ..).1
  | cancel =>
    rw [cancelWaiter_eq]
    rfl
  | lower hst | take _ _ hst | give _ hst => rw [hst]
  | close => exact absurd rfl hop

theorem close_step (h : step s .close = some (s', es)) :
    s' = { s with state := (close s.state).1 } ∧ es = (close s.state).2 := by
  simp only [step, some.injEq, Prod.mk.injEq] at h
  exact ⟨h.1.symm, h.2.symm⟩

theorem closed_step (h : step s op = some (s', es)) (hc : s.state.closed = true) :
    s'.state.closed = true := by
  by_cases hop : op = .close
  · subst hop
    obtain ⟨rfl, -⟩ := close_step h
    rfl
  · rw [closed_eq h hop]; exact hc

theorem drained_step (hd : Drained s) (h : step s op = some (s', es)) : Drained s' := by
  by_cases hop : op = .close
  · subst hop
    obtain ⟨rfl, -⟩ := close_step h
    exact fun _ => rfl
  · intro hc
    rw [closed_eq h hop] at hc
    have hq := hd hc
    cases step_moved h with
    | create => exact hq
    | poll =>
      -- a poll of a closed semaphore fails
      rw [pollAcquire_closed _ _ _ hc]
      exact hq
    | @cancel f fut =>
      rw [cancelWaiter_eq, hq]
      rcases fut.waiter with _ | id <;> rfl
    | lower hst | take _ _ hst | give _ hst => rw [hst]; exact hq
    | close => rfl

/-! ## Steps as moves of the queue -/

theorem poll_moves {cx : Waker} (hc : s.state.closed = false)
    (hl : Linked s.state.waiters (clients s).held) (hf : s.futures[f]? = some fut) :
    Moves (clients s) (pollAcquire s.state fut.waiter fut.permits cx).events
      (clients (polledSys s f fut (pollAcquire s.state fut.waiter fut.permits cx))) := by
  unfold polledSys clients
  rw [known_set hf]
  exact (pollAcquire_polls _ _ _ hc).moves (c := clients s) hl (known_of hf)

theorem cancel_moves (hl : Linked s.state.waiters (clients s).held)
    (hf : s.futures[f]? = some fut) :
    Moves (clients s) (cancelWaiter s.state fut.waiter).2
      (clients (cancelledSys s f fut (cancelWaiter s.state fut.waiter).1)) := by
  rw [cancelWaiter_eq]
  unfold cancelledSys clients
  rw [known_set hf]
  exact Lib.Waiting.cancel_moves (c := clients s) hl (known_of hf)

theorem quiet_of_silent (h : Silent es) : ∀ x ∈ es, Quiet x := by
  intro x hx
  obtain ⟨e, rfl⟩ := h x hx
  trivial

theorem step_moves (hc : s.state.closed = false) (hop : op ≠ .close)
    (hl : Linked s.state.waiters (clients s).held) (hs : step s op = some (s', es)) :
    Moves (clients s) es (clients s') := by
  cases step_moved hs with
  | @create n owned =>
    have hh : clients { s with futures := s.futures ++ [⟨n.toNat, owned, none, true⟩] } =
        clients s := by
      unfold clients
      rw [known_snoc rfl]
    rw [hh]
    exact .quiet (by simp)
  | poll hf => exact poll_moves hc hl (filter_eq_some_iff.mp hf).1
  | cancel hf => exact cancel_moves hl (filter_eq_some_iff.mp hf).1
  | lower hst _ hfu hes =>
    rw [clients_eq hst hfu]
    exact .quiet (quiet_of_silent hes)
  | take _ _ hst _ hfu =>
    rw [clients_eq hst hfu]
    exact .quiet (by simp [Quiet])
  | give es hst _ hfu hes =>
    rw [clients_eq hst hfu]
    refine .quiet fun x hx => ?_
    rcases mem_append.mp hx with hx | hx
    · exact quiet_of_silent hes x hx
    · exact quiet_wake _ x hx
  | close => exact absurd rfl hop

theorem new_some {p : ℕ} {s₀ : Sys} (h0 : new p = some s₀) :
    s₀ = ⟨⟨p, false, 1, []⟩, [], []⟩ := by
  unfold new constNew at h0
  split_ifs at h0 with hp
  · simp only [map_some, some.injEq] at h0
    exact h0.symm
  · simp at h0

theorem orderly_run {p : ℕ} {s₀ : Sys} {C : List Ev → Sys → Op → Prop} (h0 : new p = some s₀)
    (h : Run step C s₀ tr s) (hc : s.state.closed = false)
    (hn : (registered tr).length < 2 ^ 64) : Orderly tr (clients s) := by
  refine h.inv (I := fun tr s => s.state.closed = false → (registered tr).length < 2 ^ 64 →
    Orderly tr (clients s)) ?_ ?_ hc hn
  · intro _ _
    rw [new_some h0]
    exact Orderly.init
  · intro tr s op s' es hI _ hs hc' hn'
    have hop : op ≠ .close := by
      rintro rfl
      obtain ⟨rfl, -⟩ := close_step hs
      cases hc'
    rw [closed_eq hs hop] at hc'
    have ho := hI hc' (by rw [registered_append, length_append] at hn'; omega)
    exact (step_moves hc' hop ho.linked hs).orderly ho hn'

end OhosFfrt.Semaphore.Queue
