import OhosFfrt.Semaphore.Queue

/-!
# `sync::Semaphore`: fairness

While the semaphore is open its queue is first in, first out.  `close` takes every waiter out of the
queue, and afterwards nobody joins or is granted (`closed_quiet`).
-/

namespace OhosFfrt.Semaphore.Fairness

open Basic Lib.Runs Lib.WaitQueue Lib.Waiting List
open Semaphore.State Semaphore.System Semaphore.Moves
open Semaphore.Queue
open Lib.Arena (known_of)

variable {s s' : Sys} {op : Op} {es tr : List Ev}

/-! ## Order -/

/-- **A closed semaphore is done with its queue**: nobody joins, leaves or is granted. -/
theorem closed_quiet (hc : s.state.closed = true) (hq : s.state.waiters = [])
    (hs : step s op = some (s', es)) : ∀ x ∈ es, Quiet x := by
  cases step_moved hs with
  | create => simp
  | poll =>
    rw [pollAcquire_closed _ _ _ hc]
    exact quiet_of_silent (silent_other _)
  | @cancel f fut =>
    -- a future may still remember an id that `close` took out of the queue
    rcases fut.waiter with _ | id
    · simp [cancelWaiter]
    · have hp : position s.state.waiters id = none := by simp [hq, position]
      simp only [cancelWaiter, hp]
      exact quiet_wake _
  | lower _ _ _ hes => exact quiet_of_silent hes
  | take hc' => rw [hc] at hc'; simp at hc'
  | give es' _ _ _ hes =>
    intro x hx
    rcases mem_append.mp hx with hx | hx
    · exact quiet_of_silent hes x hx
    · exact quiet_wake _ x hx
  | close => simp [close, hq]

/-- Queue and trace agree: in order while the semaphore is open, all waiters gone once it is
closed. -/
structure Fair (tr : List Ev) (s : Sys) : Prop where
  isOpen : s.state.closed = false → Orderly tr (clients s)
  drained : Drained s
  fifo : Fifo tr s.state.waiters

theorem fair_step (h : Fair tr s) (hs : step s op = some (s', es))
    (hn : (registered (tr ++ es)).length < 2 ^ 64) : Fair (tr ++ es) s' := by
  have hd := drained_step h.drained hs
  by_cases hc : s.state.closed = true
  · have hq := h.drained hc
    have hc' := closed_step hs hc
    refine ⟨fun ho => ?_, hd, ?_⟩
    · rw [hc'] at ho; simp at ho
    · obtain ⟨h1, h2, h3⟩ := quiet_traces (closed_quiet hc hq hs)
      exact h.fifo.quiet (by rw [hd hc', hq]) h1 h2 h3
  · rw [Bool.not_eq_true] at hc
    by_cases hop : op = .close
    · subst hop
      obtain ⟨rfl, rfl⟩ := close_step hs
      refine ⟨fun ho => ?_, hd, h.fifo.drain⟩
      simp [close] at ho
    · have ho := (step_moves hc hop (h.isOpen hc).linked hs).orderly (h.isOpen hc) hn
      exact ⟨fun _ => ho, hd, ho.fifo⟩

theorem fair_run {p : ℕ} {s₀ : Sys} {C : List Ev → Sys → Op → Prop} (h0 : new p = some s₀)
    (h : Run step C s₀ tr s) (hn : (registered tr).length < 2 ^ 64) : Fair tr s := by
  refine h.inv (I := fun tr s => (registered tr).length < 2 ^ 64 → Fair tr s) ?_ ?_ hn
  · intro _
    rw [new_some h0]
    exact ⟨fun _ => Orderly.init, fun _ => rfl, Fifo.nil⟩
  · intro tr s op s' es hI _ hs hn'
    have hn : (registered tr).length < 2 ^ 64 := by
      rw [registered_append, length_append] at hn'
      omega
    exact fair_step (hI hn) hs hn'

/-! ## No barging -/

theorem tryTake_waiting (hc : s.state.closed = false) (hq : s.state.waiters ≠ []) (n : ℕ) :
    tryTake s.state n = .error .noPermits := by
  unfold tryTake
  rw [hc]
  simp [hq]

theorem acquired_front {w : Option ℕ} {n : ℕ} {cx : Waker} (hq : s.state.waiters ≠ [])
    (ha : (pollAcquire s.state w n cx).outcome = .acquired) :
    ∃ id, w = some id ∧ (s.state.waiters.map Waiter.id).head? = some id ∧
      .granted id ∈ (pollAcquire s.state w n cx).events := by
  rcases hc : s.state.closed with _ | _
  · rcases pollAcquire_open w n cx hc with
      ⟨-, h, -, -⟩ | ⟨-, -, he⟩ | ⟨e, q, hw, h, -, -, he⟩ | ⟨id, p, -, -, -, he⟩
    · exact absurd h hq
    · rw [he] at ha
      cases ha
    · refine ⟨e.id, hw, ?_, ?_⟩
      · rw [h, map_cons, head?_cons]
      · rw [he]
        exact mem_cons_self
    · rw [he] at ha
      cases ha
  · rw [pollAcquire_closed _ _ _ hc] at ha
    cases ha

theorem entry_of_waiter {f : ℕ} {fut : AcquireFuture} {id : ℕ}
    (hl : Linked s.state.waiters (clients s).held) (hf : s.futures[f]? = some fut)
    (hw : fut.waiter = some id) :
    (s.state.waiters.map Waiter.id).count id = 1 ∧
      ∀ e ∈ s.state.waiters, e.id = id → e.req = fut.permits := by
  have hi : (clients s).held f = some (id, fut.permits) :=
    (known_of hf).trans (congrArg (Option.map (·, fut.permits)) hw)
  refine ⟨hl.count hi, fun e he hid => ?_⟩
  obtain ⟨e', he', hid', hreq⟩ := hl.entry f id fut.permits hi
  have hee : e = e' := inj_on_of_nodup_map hl.nodup he he' (by rw [hid, hid'])
  rw [hee, hreq]

/-- **The semaphore is fair.**  In a run with fewer than `2 ^ 64` registrations the ids registered
by a first `Pending`, in order and without those that left the queue with their future or by
`close`, are the granted ones followed by the queued ones.  While anyone waits every `try_acquire`
fails, and a poll that ends with permits is that of the front waiter.  While the semaphore is open a
future that remembers a waiter has exactly one in the queue, with its own number of permits. -/
theorem semaphore_fair {p : ℕ} {s₀ : Sys} (h0 : new p = some s₀) (h : Run step Any s₀ tr s)
    (hn : (registered tr).length < 2 ^ 64) :
    (registered tr).Nodup ∧
    (registered tr).filter (fun id => id ∉ cancelled tr) =
      granted tr ++ s.state.waiters.map Waiter.id ∧
    (s.state.waiters ≠ [] →
      (∀ n : ℕ, tryTake s.state n = .error .noPermits) ∧
      ∀ f fut cx, s.future? f = some fut →
        (pollAcquire s.state fut.waiter fut.permits cx).outcome = .acquired →
        ∃ id, fut.waiter = some id ∧ (s.state.waiters.map Waiter.id).head? = some id ∧
          .granted id ∈ (pollAcquire s.state fut.waiter fut.permits cx).events) ∧
    (s.state.closed = false → ∀ f fut id, s.future? f = some fut → fut.waiter = some id →
      (s.state.waiters.map Waiter.id).count id = 1 ∧
        ∀ e ∈ s.state.waiters, e.id = id → e.req = fut.permits) := by
  have hf := fair_run h0 h hn
  refine ⟨hf.fifo.nodup, hf.fifo.order, fun hq => ?_, fun hc f fut id hfu hw => ?_⟩
  · have hc : s.state.closed = false := by
      by_contra hc
      exact hq (hf.drained (by simpa using hc))
    exact ⟨tryTake_waiting hc hq, fun f fut cx _ => acquired_front hq⟩
  · exact entry_of_waiter (hf.isOpen hc).linked (Option.filter_eq_some_iff.mp hfu).1 hw

/-- A request for three permits waits; one for a single permit waits behind it although two are
there; once the third is given back the first is served. -/
theorem semaphore_fair_large : ∃ s₀ s tr, new 3 = some s₀ ∧
    exec step s₀ [.tryAcquireMany 1 false, .acquireMany 3 false, .poll 0 7, .acquireMany 1 true,
      .poll 1 8, .tryAcquireMany 0 false, .dropPermit 0, .poll 0 7] = some (s, tr) ∧
    (registered tr).filter (fun id => id ∉ cancelled tr) =
      granted tr ++ s.state.waiters.map Waiter.id ∧ granted tr = [1] ∧ registered tr = [1, 2] := by
  refine ⟨_, _, _, rfl, rfl, ?_, rfl, rfl⟩
  exact (semaphore_fair (p := 3) rfl (run_exec [.tryAcquireMany 1 false, .acquireMany 3 false,
    .poll 0 7, .acquireMany 1 true, .poll 1 8, .tryAcquireMany 0 false, .dropPermit 0,
    .poll 0 7] rfl) (by decide)).2.1

end OhosFfrt.Semaphore.Fairness
