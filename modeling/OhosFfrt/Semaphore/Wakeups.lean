import OhosFfrt.Semaphore.Queue

/-!
# `sync::Semaphore`: wake-ups

The baton of the wait queue: if the permits suffice for the front waiter, it was woken after its
last poll (`semaphore_handed`).  No waiter may be registered under the id of one that is still
queued: `next_waiter` wraps.
-/

namespace OhosFfrt.Semaphore.Wakeups

open Basic Lib.Runs Lib.WaitQueue List Option
open Semaphore.State Semaphore.System Semaphore.Moves
open Semaphore.Queue
open Lib.Arena (known_of)

/-- The operation queues a waiter. -/
def joins (s : Sys) : Op → Bool
  | .poll f _ =>
    match s.future? f with
    | some fut =>
      !s.state.closed && fut.waiter.all (fun id => position s.state.waiters id = none) &&
        !(s.state.waiters.isEmpty && enough s.state fut.permits)
    | none => false
  | _ => false

/-- **A new waiter gets a new id.** -/
def Fresh (s : Sys) (op : Op) : Prop :=
  joins s op = true → s.state.nextWaiter ∉ s.state.waiters.map Waiter.id

variable {s s' s₀ : Sys} {op : Op} {es tr : List Ev} {p : ℕ}

theorem registered_nil (hs : step s op = some (s', es)) (hop : ∀ f cx, op ≠ .poll f cx) :
    registered es = [] := by
  have hsilent : ∀ {es : List Ev}, Silent es → registered es = [] := by
    intro es h
    refine filterMap_eq_nil_iff.mpr fun x hx => ?_
    obtain ⟨e, rfl⟩ := h x hx
    rfl
  cases step_moved hs with
  | create => rfl
  | poll => exact absurd rfl (hop _ _)
  | cancel =>
    rw [cancelWaiter_eq]
    exact registered_cancel
  | lower _ _ _ hes => exact hsilent hes
  | take => rfl
  | give es _ _ _ hes =>
    rw [registered_append, hsilent hes, registered_wake]
    rfl
  | close => simp [close, registered]

theorem joins_iff (hs : step s op = some (s', es)) : joins s op = true ↔ registered es ≠ [] := by
  cases op with
  | poll f cx =>
    simp only [step, Option.map_eq_some_iff, Prod.mk.injEq] at hs
    obtain ⟨fut, hf, -, rfl⟩ := hs
    simp only [joins, hf, Bool.and_eq_true, Bool.not_eq_true', Bool.and_eq_false_imp,
      List.isEmpty_iff]
    rcases hc : s.state.closed with _ | _
    · rcases pollAcquire_open fut.waiter fut.permits cx hc with
        ⟨-, hq, hn, he⟩ | ⟨hu, hn, he⟩ | ⟨e, q, hw, -, hp, -, he⟩ | ⟨id, p, hw, hp, -, he⟩ <;>
        rw [he]
      · simp [hq, hn, registered]
      · have hall : fut.waiter.all (fun id => position s.state.waiters id = none) = true := by
          rcases hw : fut.waiter with _ | id
          · rfl
          · simp [hu id hw]
        exact iff_of_true ⟨⟨rfl, hall⟩, hn⟩ (by simp [registered])
      · refine iff_of_false (by simp [hw, hp]) fun hr => hr (registered_wake _)
      · simp [hw, hp, registered]
    · rw [pollAcquire_closed _ _ _ hc]
      simp [registered]
  | _ =>
    refine iff_of_false (by simp [joins]) fun hr => hr ?_
    exact registered_nil hs (by simp)

theorem not_close (hc : s'.state.closed = false) (hs : step s op = some (s', es)) :
    op ≠ .close ∧ s.state.closed = false := by
  have hop : op ≠ .close := by
    rintro rfl
    obtain ⟨rfl, -⟩ := close_step hs
    cases hc
  exact ⟨hop, by rw [← closed_eq hs hop]; exact hc⟩

theorem linked_step (hc : s'.state.closed = false)
    (h : Linked s.state.waiters (clients s).held) (hf : Fresh s op)
    (hs : step s op = some (s', es)) : Linked s'.state.waiters (clients s').held := by
  obtain ⟨hop, hc⟩ := not_close hc hs
  exact (step_moves hc hop h hs).linked h fun hr => hf ((joins_iff hs).mpr hr)

theorem handed_step (hc : s'.state.closed = false)
    (hl : Linked s.state.waiters (clients s).held) (hf : Fresh s op)
    (h : Handed (enough s.state) tr s.state.waiters) (hs : step s op = some (s', es)) :
    Handed (enough s'.state) (tr ++ es) s'.state.waiters := by
  obtain ⟨hop, hopen⟩ := not_close hc hs
  cases step_moved hs with
  | create => rw [append_nil]; exact h
  | poll hfut =>
    exact (pollAcquire_polls _ _ _ hopen).handed (c := clients s) hl
      (known_of (filter_eq_some_iff.mp hfut).1) (fun hr => hf ((joins_iff hs).mpr hr)) h
  | cancel =>
    rw [cancelWaiter_eq]
    exact handed_cancel h
  | lower hst hn _ hes =>
    -- fewer permits make nobody ready
    have hq : s'.state.waiters = s.state.waiters := by rw [hst]
    refine h.keep (by rw [hq]) (fun e _ hr => ?_) fun e _ x hx => ?_
    · simp only [enough, decide_eq_true_eq] at hr ⊢
      omega
    · obtain ⟨e', rfl⟩ := hes x hx
      rintro (hp | hp) <;> cases hp
  | take _ hq hst =>
    have hq' : s'.state.waiters = s.state.waiters := by rw [hst]
    refine handed_of_not_ready fun e he => ?_
    rw [hq', hq] at he
    simp at he
  | give =>
    rw [← append_assoc]
    exact handed_wake _ _ _
  | close => exact absurd rfl hop

/-- The baton is handed on. -/
theorem handed_run (h0 : new p = some s₀)
    (h : Run step (fun _ => Fresh) s₀ tr s) (hc : s.state.closed = false) :
    Handed (enough s.state) tr s.state.waiters := by
  have hI := h.inv (I := fun tr s => s.state.closed = false →
    Linked s.state.waiters (clients s).held ∧ Handed (enough s.state) tr s.state.waiters) ?_ ?_ hc
  · exact hI.2
  · intro _
    rw [new_some h0]
    exact ⟨Linked.nil, handed_of_not_ready (by simp)⟩
  · intro tr s op s' es hI hf hs hc'
    obtain ⟨hl, hh⟩ := hI (not_close hc' hs).2
    exact ⟨linked_step hc' hl hf hs, handed_step hc' hl hf hh hs⟩

theorem fresh_run (h0 : new p = some s₀) (h : Run step Any s₀ tr s)
    (hn : (registered tr).length < 2 ^ 64) : Run step (fun _ => Fresh) s₀ tr s := by
  induction h with
  | nil => exact .nil
  | @snoc tr s op s' es h _ hs ih =>
    rw [registered_append, length_append] at hn
    refine (ih (by omega)).snoc (fun hj => ?_) hs
    have hr := length_pos_iff.mpr ((joins_iff hs).mp hj)
    have hc : s.state.closed = false := by
      by_contra hc
      rw [Bool.not_eq_false] at hc
      rcases op with _ | ⟨f, cx⟩ | _ | _ | _ | _ | _ | _ | _ | _ | _ | _ <;>
        simp only [joins, Bool.false_eq_true] at hj
      rcases hfut : s.future? f with _ | fut <;> simp [hfut, hc] at hj
    exact (orderly_run h0 h hc (by omega)).fresh (by omega)

theorem drained_run (h0 : new p = some s₀) (h : Run step Any s₀ tr s) :
    Drained s := by
  refine h.inv ?_ fun _ _ _ _ _ hd _ hs => drained_step hd hs
  rw [new_some h0]
  exact fun hc => rfl

/-- **No stranded waiter.**  In every run in which new waiters get new ids, while the semaphore is
open a front waiter for which the permits suffice was woken after its last poll.  In every run
`close` empties the queue and wakes everyone in it, and a closed semaphore has an empty queue,
refuses every acquisition and stays closed. -/
theorem semaphore_handed {p : ℕ} {s₀ : Sys} (h0 : new p = some s₀) (h : Run step Any s₀ tr s) :
    (Run step (fun _ => Fresh) s₀ tr s → s.state.closed = false →
      Handed (enough s.state) tr s.state.waiters) ∧
    (∀ s' es, step s .close = some (s', es) → s'.state.closed = true ∧ s'.state.waiters = [] ∧
      ∀ e ∈ s.state.waiters, .woke e.waker ∈ es) ∧
    (s.state.closed = true → s.state.waiters = [] ∧
      (∀ w n cx, (pollAcquire s.state w n cx).outcome = .closed) ∧
      (∀ n, tryTake s.state n = .error .closed) ∧
      ∀ op s' es, step s op = some (s', es) → s'.state.closed = true) := by
  refine ⟨handed_run h0, fun s' es hs => ?_, fun hc => ⟨drained_run h0 h hc, ?_, ?_, ?_⟩⟩
  · obtain ⟨rfl, rfl⟩ := close_step hs
    refine ⟨rfl, rfl, fun e he => ?_⟩
    exact mem_append_right _ (mem_map_of_mem he)
  · intro w n cx
    simp [pollAcquire, hc]
  · intro n
    simp [tryTake, hc]
  · intro op s' es hs
    exact closed_step hs hc

theorem semaphore_handed_one : ∃ s₀ s tr, new 0 = some s₀ ∧
    exec step s₀ [.acquireMany 2 true, .poll 0 7, .addPermits 3] = some (s, tr) ∧
    s.state.waiters = [⟨1, 2, 7⟩] ∧ enough s.state 2 = true ∧
    Handed (enough s.state) tr s.state.waiters := by
  refine ⟨_, _, _, rfl, rfl, rfl, rfl, ?_⟩
  have h := run_exec [.acquireMany 2 true, .poll 0 7, .addPermits 3]
    (show exec step ⟨⟨0, false, 1, []⟩, [], []⟩ _ = some _ from rfl)
  exact (semaphore_handed (p := 0) rfl h).1 (fresh_run (p := 0) rfl h (by decide)) rfl

/-! ## When the ids repeat -/

/-- The semaphore without permits: the future `0` waits under the id `1`, the others are gone. -/
def waiting (next : ℕ) (fs : List AcquireFuture) : Sys :=
  ⟨⟨0, false, next, [⟨1, 1, 7⟩]⟩, ⟨1, false, some 1, true⟩ :: fs, []⟩

/-- A new future is polled and dropped. -/
def round (f : ℕ) : List Op := [.acquireMany 1 false, .poll f 9, .dropFuture f]

theorem exec_round {n : ℕ} (hn : n ≠ 1) (fs : List AcquireFuture) :
    exec step (waiting n fs) (round (fs.length + 1)) =
      some (waiting (nextId n) (fs ++ [⟨1, false, none, false⟩]),
        [.registered n, .cancelled n]) := by
  have hn' : ¬ 1 = n := fun h => hn h.symm
  simp [exec, step, waiting, round, Sys.future?, pollAcquire, pollFresh, cancelWaiter, position,
    hn', State.nextWaker, Lib.WaitQueue.nextWaker, enough, wake, findIdx?_cons, Option.filter]

theorem run_waiting (h0 : new 0 = some s₀) : ∀ n, n + 2 < 2 ^ 64 →
    ∃ fs tr, Run step Any s₀ tr (waiting (n + 2) fs) ∧ ∀ w, .woke w ∉ tr := by
  intro n
  induction n with
  | zero =>
    intro _
    rw [new_some h0]
    exact ⟨[], [.registered 1], run_exec [.acquireMany 1 false, .poll 0 7] rfl, by simp⟩
  | succ n ih =>
    intro hn
    obtain ⟨fs, tr, hrun, hw⟩ := ih (by omega)
    have hr := run_exec _ (exec_round (n := n + 2) (by omega) fs)
    rw [nextId_of_lt (by omega)] at hr
    exact ⟨_, _, hrun.trans hr, by simpa using hw⟩

/-- The future that gets the id `1` again is polled twice, permits are added in between. -/
def collide (f : ℕ) : List Op := [.acquireMany 5 false, .poll f 8, .addPermits 3, .poll f 8]

theorem exec_collide (fs : List AcquireFuture) :
    exec step (waiting 1 fs) (collide (fs.length + 1)) =
      some (⟨⟨3, false, 2, [⟨1, 1, 8⟩, ⟨1, 5, 8⟩]⟩,
        ⟨1, false, some 1, true⟩ :: (fs ++ [⟨5, false, some 1, true⟩]), []⟩,
        [.registered 1, .other (.added 3), .woke 7, .polled 1]) := by
  simp [exec, step, waiting, collide, Sys.future?, pollAcquire, pollFresh, position, addPermits,
    checkedAdd, usizeMax, maxPermits, State.nextWaker, Lib.WaitQueue.nextWaker, enough, wake,
    findIdx?_cons, Option.filter, nextId, setWaker]

/-- The future `0` waits while `next_waiter` wraps, another future takes its place in the queue, and
nobody is woken for the permits that would be enough. -/
theorem waiter_stranded : ¬ ∀ p s₀ s tr, new p = some s₀ → Run step Any s₀ tr s →
    s.state.closed = false → Handed (enough s.state) tr s.state.waiters := by
  intro h
  have h0 : new 0 = some ⟨⟨0, false, 1, []⟩, [], []⟩ := rfl
  obtain ⟨fs, tr, hrun, hw⟩ := run_waiting h0 (2 ^ 64 - 3) (by decide)
  have hround := run_exec _ (exec_round (n := 2 ^ 64 - 1) (by decide) fs)
  have hcollide := run_exec _ (exec_collide (fs ++ [⟨1, false, none, false⟩]))
  have hlast := (hrun.trans hround).trans hcollide
  obtain ⟨tr₁, tr₂, htr, -⟩ := h 0 _ _ _ h0 hlast rfl ⟨1, 1, 8⟩ rfl rfl
  have hmem : (.woke 8 : Ev) ∈ tr ++ [.registered (2 ^ 64 - 1), .cancelled (2 ^ 64 - 1)] ++
      [.registered 1, .other (.added 3), .woke 7, .polled 1] := by
    rw [htr]
    simp
  simp [hw 8] at hmem

end OhosFfrt.Semaphore.Wakeups
