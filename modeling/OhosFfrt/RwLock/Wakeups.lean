import OhosFfrt.RwLock.Queue

/-!
# `sync::RwLock`: wake-ups

The baton of the wait queue (`Handed`): if the front waiter could acquire now, it was woken after
its last poll (`rwlock_handed`).  Every operation that changes the counters or the front of the
queue ends with `next_waker`, with one exception: `release_read` only looks for a waiter when the
last reader leaves.
-/

namespace OhosFfrt.RwLock.Wakeups

open Basic Lib.Runs Lib.WaitQueue List Option
open RwLock.State RwLock.System RwLock.Moves RwLock.Queue
open Lib.Arena (known_of)

/-- The operation queues a waiter. -/
def joins (s : Sys) : Op → Bool
  | .poll f _ =>
    match s.future? f with
    | some fut => fut.waiter.all (fun id => position s.state.waiters id = none) &&
        !(s.state.waiters.isEmpty && canAcquire s.state fut.kind)
    | none => false
  | _ => false

/-- The operation drops a read guard of a lock whose readers are at their limit of two or more,
while a reader is at the front of the queue. -/
def leavesLimit (s : Sys) (op : Op) : Bool :=
  ((dropped op).bind fun g => s.guards[g]?.bind Guard.release?) = some .read &&
    decide (s.state.readers = s.state.maxReaders) && decide (2 ≤ s.state.maxReaders) &&
    s.state.waiters.head?.any fun e => e.req = .read

/-- **The steps that strand nobody**: no reader leaves the limit with a reader at the front, and no
waiter gets the id of one that is still queued. -/
structure Careful (s : Sys) (op : Op) : Prop where
  limit : leavesLimit s op = false
  fresh : joins s op = true → s.state.nextWaiter ∉ s.state.waiters.map Waiter.id

instance (s : Sys) (op : Op) : Decidable (Careful s op) :=
  decidable_of_iff (leavesLimit s op = false ∧
      (joins s op = true → s.state.nextWaiter ∉ s.state.waiters.map Waiter.id))
    ⟨fun h => ⟨h.1, h.2⟩, fun h => ⟨h.limit, h.fresh⟩⟩

variable {s s' : Sys} {op : Op} {es tr : List Ev}

theorem joins_of_registered (hs : step s op = some (s', es)) (hr : registered es ≠ []) :
    joins s op = true := by
  have hwake : ∀ o : Option Waker, registered (wake o : List Ev) ≠ [] → joins s op = true :=
    fun o h => absurd (registered_wake o) h
  cases step_moved hs with
  | @poll f cx fut hf =>
    rcases pollLock_cases s.state fut.waiter fut.kind cx with
      ⟨-, -, -, he⟩ | ⟨hu, hc, -⟩ | ⟨e, q, -, -, -, he⟩ | ⟨id, p, -, -, -, he⟩
    · rw [he] at hr
      exact absurd rfl hr
    · simp only [joins, hf, Bool.and_eq_true, Bool.not_eq_true', Bool.and_eq_false_imp,
        List.isEmpty_iff]
      refine ⟨?_, hc⟩
      rcases hw : fut.waiter with _ | id
      · rfl
      · simp [hu id hw]
    · rw [he] at hr
      exact absurd (registered_wake _) hr
    · rw [he] at hr
      exact absurd rfl hr
  | cancel =>
    rw [cancelWaiter_eq] at hr
    exact absurd registered_cancel hr
  | create | refuse | barge | map => exact absurd rfl hr
  | dropRead | dropWrite | downgrade => exact hwake _ hr

theorem linked_step (h : Linked s.state.waiters (clients s).held) (hc : Careful s op)
    (hs : step s op = some (s', es)) : Linked s'.state.waiters (clients s').held :=
  (step_moves h hs).linked h fun hr => hc.fresh (joins_of_registered hs hr)

/-- **A reader that leaves**: the last one hands over; otherwise nobody could acquire who could not
before. -/
theorem handed_releaseRead {readers : ℕ} (hn : s.state.readers = readers + 1)
    (hlim : s.state.readers = s.state.maxReaders → 2 ≤ s.state.maxReaders →
      ∀ e ∈ s.state.waiters.head?, e.req ≠ .read)
    (h : Handed (canAcquire s.state) tr s.state.waiters) :
    Handed (canAcquire { s.state with readers := readers })
      (tr ++ wake (if readers = 0 then nextWaker { s.state with readers := readers } else none))
      s.state.waiters := by
  split_ifs with h0
  · exact handed_wake _ _ _
  · refine h.keep rfl (fun e he hr => ?_) (fun e he x hx => by simp [wake] at hx)
    rcases hk : e.req with _ | _ <;> rw [hk] at hr
    · simp only [canAcquire, Bool.and_eq_true, decide_eq_true_eq] at hr ⊢
      refine ⟨hr.1, ?_⟩
      by_contra hc
      exact hlim (by omega) (by omega) e he hk
    · simp only [canAcquire, Bool.and_eq_true, decide_eq_true_eq] at hr
      omega

theorem handed_step (hl : Linked s.state.waiters (clients s).held) (hc : Careful s op)
    (h : Handed (canAcquire s.state) tr s.state.waiters) (hs : step s op = some (s', es)) :
    Handed (canAcquire s'.state) (tr ++ es) s'.state.waiters := by
  have hsame : Handed (canAcquire s.state) (tr ++ []) s.state.waiters := by
    rw [append_nil]; exact h
  cases step_moved hs with
  | create | refuse | map => exact hsame
  | poll hf =>
    refine (pollLock_polls ..).handed (c := clients s) hl (known_of (filter_eq_some_iff.mp hf).1)
      (fun hr => hc.fresh (joins_of_registered hs hr)) h
  | cancel =>
    rw [cancelWaiter_eq]
    exact handed_cancel h
  | @barge op kind owned hq =>
    refine handed_of_not_ready fun e he => ?_
    have : (acquire s.state kind).waiters = [] := by cases kind <;> exact hq
    change e ∈ (acquire s.state kind).waiters.head? at he
    rw [this] at he
    simp at he
  | dropRead hg hr hop hn =>
    refine handed_releaseRead hn (fun h1 h2 e he hk => ?_) h
    have hlim := hc.limit
    unfold leavesLimit at hlim
    rw [mem_def.mp he] at hlim
    simp [hop, hg, hr, h1, h2, hk] at hlim
  | dropWrite | downgrade => exact handed_wake _ _ _

/-- **No stranded waiter.**  In every run of careful steps, if the front waiter could acquire now,
its waker was woken after its last poll. -/
theorem rwlock_handed {m : ℕ} {s₀ : Sys} (h0 : withMaxReaders m = some s₀)
    (h : Run step (fun _ => Careful) s₀ tr s) :
    Handed (canAcquire s.state) tr s.state.waiters := by
  have hI := h.inv (I := fun tr s => Linked s.state.waiters (clients s).held ∧
    Handed (canAcquire s.state) tr s.state.waiters) ?_ ?_
  · exact hI.2
  · have hl : Linked (clients s₀).queue (clients s₀).held := by
      rw [clients_init h0]
      exact Linked.nil
    have hq : (clients s₀).queue = [] := by rw [clients_init h0]
    refine ⟨hl, handed_of_not_ready fun e he => ?_⟩
    change e ∈ (clients s₀).queue.head? at he
    rw [hq] at he
    simp at he
  · intro tr s op s' es hI hc hs
    exact ⟨linked_step hI.1 hc hs, handed_step hI.1 hc hI.2 hs⟩

/-- One reader, the limit: a second one waits and is woken. -/
theorem rwlock_handed_one : ∃ s₀ s tr, withMaxReaders 1 = some s₀ ∧
    execIf step (fun _ => Careful) [] s₀
      [.tryRead, .future .read false, .poll 0 7, .dropGuard 0] = some (s, tr) ∧
    s.state.waiters = [⟨1, .read, 7⟩] ∧ canAcquire s.state .read = true ∧
    Handed (canAcquire s.state) tr s.state.waiters := by
  refine ⟨_, _, _, rfl, rfl, rfl, rfl, ?_⟩
  exact rwlock_handed (m := 1) rfl (run_execIf [.tryRead, .future .read false, .poll 0 7,
    .dropGuard 0] .nil rfl)

/-- Two readers, the limit: a third one waits, one of the two leaves, and nobody is woken. -/
theorem reader_stranded : ¬ ∀ m s₀ s tr, withMaxReaders m = some s₀ → Run step Any s₀ tr s →
    Handed (canAcquire s.state) tr s.state.waiters := by
  intro h
  have hw := h 2 _ _ _ rfl (run_exec [.tryRead, .tryRead, .future .read false, .poll 0 7,
    .dropGuard 0] rfl) ⟨1, .read, 7⟩ rfl rfl
  obtain ⟨tr₁, tr₂, htr, -⟩ := hw
  have hmem : (.woke 7 : Ev) ∈ ([.barged, .barged, .registered 1] : List Ev) := by
    rw [show ([.barged, .barged, .registered 1] : List Ev) = tr₁ ++ .woke 7 :: tr₂ from htr]
    simp
  simp at hmem

end OhosFfrt.RwLock.Wakeups
