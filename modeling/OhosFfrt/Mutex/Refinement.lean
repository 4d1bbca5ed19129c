import OhosFfrt.Mutex.Moves

/-!
# `sync::Mutex` refines a first-in-first-out lock

The specification is the lock of `Lib.FifoLock` (`mutex_refines`).  In a turn at the lock queue and
futures have to agree, which a registration keeps as long as its id is not in the queue (`Fresh`);
fewer than `2 ^ 64` registrations suffice.
-/

namespace OhosFfrt.Mutex.Refinement

open Basic Lib.Runs Lib.WaitQueue Lib.Waiting List Option
open Lib.FifoLock Mutex.State Mutex.System Mutex.Moves

variable {s s' : Sys} {op : Op} {es tr : List Ev} {b b' : Bool} {c c' : Clients ℕ Unit Waker}

@[simp] theorem actsOf_append (tr es : List Ev) : actsOf (tr ++ es) = actsOf tr ++ actsOf es := by
  simp [actsOf]

@[simp] theorem actsOf_wake (o : Option Waker) : actsOf (wake o) = [] := by cases o <;> rfl

/-! ## Queue and futures -/

theorem turn_moves (h : Turn b c es b' c') :
    ∃ es₁ es₂, es = es₁ ++ es₂ ∧ Moves c es₁ c' ∧ ∀ x ∈ es₂, Quiet x := by
  cases h with
  | idle => exact ⟨[], [], rfl, .quiet (by simp), by simp⟩
  | barge => exact ⟨[], _, rfl, .quiet (by simp), by simp [Quiet]⟩
  | @join f cx hb hf => exact ⟨[.registered c.next], [.other (.join f)], rfl, .register hf,
      by simp [Quiet]⟩
  | @serve f e q hb hq hf => exact ⟨.granted e.id :: wake none, [.other (.serve f)], rfl,
      .grant hq hf, by simp [Quiet]⟩
  | stay => exact ⟨_, [], rfl, .repoll, by simp⟩
  | @leave f id p hf hp => exact ⟨_, [.other (.leave f)], rfl, .cancel hf hp, by simp [Quiet]⟩
  | unlock =>
    refine ⟨[], _, rfl, .quiet (by simp), fun x hx => ?_⟩
    rcases mem_append.mp hx with hx | hx
    · exact quiet_wake _ x hx
    · rw [mem_singleton] at hx
      subst hx
      trivial

theorem turn_linked (h : Turn b c es b' c') (hl : Linked c.queue c.held)
    (hid : registered es ≠ [] → c.next ∉ c.queue.map Waiter.id) : Linked c'.queue c'.held := by
  obtain ⟨es₁, es₂, rfl, hm, -⟩ := turn_moves h
  refine hm.linked hl fun hr => hid ?_
  rw [registered_append]
  simp [hr]

theorem turn_orderly (h : Turn b c es b' c') (ho : Orderly tr c)
    (hn : (registered (tr ++ es)).length < 2 ^ 64) : Orderly (tr ++ es) c' := by
  obtain ⟨es₁, es₂, rfl, hm, hq⟩ := turn_moves h
  have hn1 : (registered (tr ++ es₁)).length < 2 ^ 64 := by
    rw [← append_assoc, registered_append, length_append] at hn
    omega
  have h1 := hm.orderly ho hn1
  rw [← append_assoc] at hn ⊢
  exact (Moves.quiet hq).orderly h1 hn

/-- A waiter that is registered in this step gets an id that is not in the queue. -/
def Fresh (s : Sys) (op : Op) : Prop :=
  ∀ s' es, step s op = some (s', es) → registered es ≠ [] →
    s.state.nextWaiter ∉ s.state.waiters.map Waiter.id

/-! ## The acts of a turn -/

/-- **The lock `l` is what the mutex stands for** after the trace `tr`. -/
structure Simulates (tr : List Ev) (b : Bool) (c : Clients ℕ Unit Waker) (l : Lock ℕ) : Prop where
  allowed : acts Lock.free (actsOf tr) = some l
  locked : l.locked = b
  line : Names c.queue c.held l.line

theorem simulates_next {l l' : Lock ℕ} (h : Simulates tr b c l) (ha : acts l (actsOf es) = some l')
    (hb : l'.locked = b') (hl : Names c'.queue c'.held l'.line) :
    Simulates (tr ++ es) b' c' l' :=
  ⟨by rw [actsOf_append, acts_append h.allowed]; exact ha, hb, hl⟩

theorem turn_simulates {l : Lock ℕ} (ht : Turn b c es b' c') (hl : Linked c.queue c.held)
    (h : Simulates tr b c l) : ∃ l', Simulates (tr ++ es) b' c' l' := by
  obtain ⟨k, line⟩ := l
  obtain ⟨hal, rfl, hline⟩ := h
  have h : Simulates tr k c ⟨k, line⟩ := ⟨hal, rfl, hline⟩
  cases ht with
  | idle => exact ⟨_, simulates_next h rfl rfl hline⟩
  | barge hb hq =>
    change k = false at hb
    have hnil := hline.eq_nil.mpr hq
    change line = [] at hnil
    subst hb hnil
    exact ⟨⟨true, []⟩, simulates_next h rfl rfl hline⟩
  | @join f cx hb hf =>
    have hnf : f ∉ line := hline.not_mem hf
    have hne : (⟨k, line⟩ : Lock ℕ) ≠ Lock.free := by
      rintro heq
      simp only [Lock.free, Lock.mk.injEq] at heq
      have hk := hb (hline.eq_nil.mp heq.2)
      change k = true at hk
      rw [hk] at heq
      simp at heq
    refine ⟨⟨k, line ++ [f]⟩, simulates_next h ?_ rfl (hline.register hf cx)⟩
    simp [acts, actsOf, act, hne, hnf]
  | @serve f e q hb hq hf =>
    change k = false at hb
    rw [hq] at hl hline
    obtain ⟨line', hcs, hn⟩ := hline.grant hl hf
    change line = f :: line' at hcs
    subst hb hcs
    exact ⟨⟨true, line'⟩, simulates_next h (by simp [acts, actsOf, act]) rfl hn⟩
  | stay cx => exact ⟨⟨k, line⟩, simulates_next h rfl rfl (hline.setWaker cx)⟩
  | @leave f id p hf hp =>
    obtain ⟨hmem, hn⟩ := hline.cancel hl hf hp
    refine ⟨⟨k, line.erase f⟩, simulates_next h ?_ rfl hn⟩
    have hes : actsOf (.cancelled id :: (wake (nextInLine k c.queue id p) ++
        [.other (.leave f)])) = [.leave f] := by
      rcases nextInLine k c.queue id p with _ | w <;> rfl
    change acts _ (actsOf (.cancelled id :: (wake (nextInLine k c.queue id p) ++ _))) = _
    rw [hes]
    change f ∈ line at hmem
    simp [acts, act, hmem]
  | unlock hb =>
    change k = true at hb
    subst hb
    refine ⟨⟨false, line⟩, simulates_next h ?_ rfl hline⟩
    rw [actsOf_append, actsOf_wake]
    rfl

/-! ## Hand-off -/

/-- The front waiter can go on: the lock is free. -/
def canGo (b : Bool) : Unit → Bool := fun _ => !b

theorem turn_handed (ht : Turn b c es b' c')
    (hid : registered es ≠ [] → c.next ∉ c.queue.map Waiter.id)
    (h : Handed (canGo b) tr c.queue) : Handed (canGo b') (tr ++ es) c'.queue := by
  -- the act that ends a turn polls nobody
  have hact : ∀ {k : Bool} {tr : List Ev} {q : List MutexWaiter} {a : Act ℕ},
      Handed (canGo k) tr q → Handed (canGo k) (tr ++ [.other a]) q := by
    intro k tr q a hk
    refine hk.keep rfl (fun _ _ hr => hr) fun e _ x hx => ?_
    rw [mem_singleton] at hx
    subst hx
    rintro (hp | hp) <;> cases hp
  have hheld : ∀ {tr : List Ev} {q : List MutexWaiter}, Handed (canGo true) tr q :=
    fun {tr q} => handed_of_not_ready fun _ _ => rfl
  cases ht with
  | idle => rw [append_nil]; exact h
  | barge | serve => exact hheld
  | @join f cx hb =>
    have hr := h.register (w := cx) (k := ()) (hid (by simp [registered])) fun hq => by
      simp [canGo, hb hq]
    rw [append_cons]
    exact hact hr
  | stay cx hp hb =>
    refine h.repoll hp fun h0 e _ => ?_
    simp [canGo, hb h0]
  | @leave f id p hf hp =>
    rcases b with _ | _
    · have hstep : Handed (canGo false)
          (tr ++ .cancelled id :: wake (nextInLine false c.queue id p)) (c.queue.eraseIdx p) := by
        rcases p with _ | p
        · obtain ⟨e, q, hq, he⟩ := position_zero hp
          have hw : nextInLine false c.queue id 0 =
              Lib.WaitQueue.nextWaker (canGo false) (c.queue.eraseIdx 0) := by
            unfold nextInLine Lib.WaitQueue.nextWaker
            rw [hq]
            simp only [head?_cons, any_some, he, decide_true, Bool.not_false,
              Bool.and_self, if_true, eraseIdx_cons_zero]
            rcases q with _ | ⟨e', q⟩ <;> rfl
          rw [hw, append_cons]
          exact handed_wake _ _ _
        · obtain ⟨e, q, hq, hne⟩ := position_succ hp
          have hw : nextInLine false c.queue id (p + 1) = none := by
            unfold nextInLine
            rw [hq]
            simp [hne]
          rw [hw]
          refine h.keep (by rw [hq]; rfl) (fun _ _ hr => hr) fun e _ x hx => ?_
          simp only [wake, Option.toList, map_nil, mem_singleton] at hx
          subst hx
          rintro (hp | hp) <;> cases hp
      have := hact (a := .leave f) hstep
      rw [append_assoc] at this
      exact this
    · exact hheld
  | unlock =>
    have hw : Lib.WaitQueue.nextWaker (canGo false) c.queue = c.queue.head?.map Waiter.waker := by
      unfold Lib.WaitQueue.nextWaker
      rcases c.queue with _ | ⟨e, q⟩ <;> rfl
    have := hact (a := .unlock) (handed_wake (canGo false) tr c.queue)
    rw [hw, append_assoc] at this
    exact this

/-! ## Runs -/

theorem excl_run {C : List Ev → Sys → Op → Prop} (h : Run step C new tr s) : Excl s :=
  h.inv rfl fun _ _ _ _ _ hI _ hs => excl_step hI hs

/-- What holds along a run in which every new waiter gets a new id. -/
structure Follows (tr : List Ev) (s : Sys) : Prop where
  linked : Linked s.state.waiters (clients s).held
  lock : ∃ l, Simulates tr s.state.locked (clients s) l
  handed : Handed (canGo s.state.locked) tr s.state.waiters

/-- The mutex follows the lock. -/
theorem follows_run (h : Run step (fun _ => Fresh) new tr s) : Follows tr s := by
  have ha := h.along fun _ _ => excl_run
  refine ha.inv ?_ ?_
  · exact ⟨Linked.nil, ⟨Lock.free, rfl, rfl, Names.nil⟩,
      handed_of_not_ready (by simp [new, constNew])⟩
  · rintro tr s op s' es hI ⟨hf, hx⟩ hs
    have ht := step_turn hx hI.linked hs
    obtain ⟨l, hl⟩ := hI.lock
    exact ⟨turn_linked ht hI.linked (hf s' es hs), turn_simulates ht hI.linked hl,
      turn_handed ht (hf s' es hs) hI.handed⟩

/-- Below `2 ^ 64` registrations the ids are new. -/
theorem fresh_run (h : Run step Any new tr s) (hn : (registered tr).length < 2 ^ 64) :
    Run step (fun _ => Fresh) new tr s := by
  have ho : ∀ {tr s}, Run step Any new tr s → (registered tr).length < 2 ^ 64 →
      Orderly tr (clients s) := by
    intro tr s h hn
    have ha := h.along fun _ _ => excl_run
    refine ha.inv (I := fun tr s => (registered tr).length < 2 ^ 64 → Orderly tr (clients s))
      (fun _ => Orderly.init) ?_ hn
    rintro tr s op s' es hI ⟨-, hx⟩ hs hn'
    have ho := hI (by rw [registered_append, length_append] at hn'; omega)
    exact turn_orderly (step_turn hx ho.linked hs) ho hn'
  induction h with
  | nil => exact .nil
  | snoc h _ hs ih =>
    rw [registered_append, length_append] at hn
    refine (ih (by omega)).snoc (fun s1 es1 hs1 hr => ?_) hs
    simp only [hs] at hs1
    cases hs1
    have hpos := length_pos_iff.mpr hr
    exact (ho h (by omega)).fresh (by omega)

theorem ready_front {st : MutexState} {w : Option ℕ} {cx : Waker} (hq : st.waiters ≠ [])
    (hr : (pollLock st w cx).ready = true) :
    ∃ id, w = some id ∧ (st.waiters.map Waiter.id).head? = some id := by
  rcases pollLock_cases st w cx with
    ⟨-, h, -, -⟩ | ⟨-, -, he⟩ | ⟨e, q, hw, h, -, -⟩ | ⟨id, p, -, -, -, he⟩
  · exact absurd h hq
  · rw [he] at hr
    cases hr
  · refine ⟨e.id, hw, ?_⟩
    rw [h, map_cons, head?_cons]
  · rw [he] at hr
    cases hr

/-- **The mutex refines a first-in-first-out lock.**  In every run the lock is held iff exactly one
guard is live, and otherwise none is; while someone waits `try_lock` fails, and a poll that gets the
lock is that of the front waiter.  In a run in which every new waiter gets a new id the acts of the
lockers are those of a first-in-first-out lock, which is held when the mutex is and in whose line
the lockers stand as they do in the queue; and if the lock is free the front waiter was woken after
its last poll. -/
theorem mutex_refines (h : Run step Any new tr s) :
    (s.state.locked = true ↔ s.liveGuards = 1) ∧ s.liveGuards ≤ 1 ∧
    (s.state.waiters ≠ [] → tryLock s.state = none ∧
      ∀ f fut cx, s.future? f = some fut → (pollLock s.state fut.waiter cx).ready = true →
        ∃ id, fut.waiter = some id ∧ (s.state.waiters.map Waiter.id).head? = some id) ∧
    (Run step (fun _ => Fresh) new tr s →
      (∃ l : Lock ℕ, acts Lock.free (actsOf tr) = some l ∧ l.locked = s.state.locked ∧
        l.line.map (fun f => s.futures[f]?.bind LockFuture.waiter) =
          s.state.waiters.map fun e => some e.id) ∧
      Handed (canGo s.state.locked) tr s.state.waiters) := by
  have hx := excl_run h
  unfold Excl at hx
  refine ⟨?_, ?_, fun hq => ⟨?_, fun f fut cx _ => ready_front hq⟩, fun hf => ?_⟩
  · rw [hx]
    by_cases hb : s.state.locked = true <;> simp [hb]
  · rw [hx]
    split_ifs <;> omega
  · simp [tryLock, hq]
  · have hfol := follows_run hf
    obtain ⟨l, hl⟩ := hfol.lock
    refine ⟨⟨l, hl.allowed, hl.locked, ?_⟩, hfol.handed⟩
    have hline : l.line.map (fun f => ((clients s).held f).map Prod.fst) = _ := hl.line
    rw [← show _ = s.state.waiters.map (fun e => some e.id) from hline]
    refine map_congr_left fun f _ => ?_
    simp only [clients, Lib.Arena.known]
    rcases s.futures[f]? with _ | fut
    · rfl
    · rcases hw : fut.waiter with _ | id <;> simp [LockFuture.held, hw]

/-- Two lockers wait while the guard is mapped and then dropped by a panicking closure. -/
theorem mutex_refines_two : ∃ s tr,
    exec step new [.tryLock false, .lock true, .poll 0 7, .lock false, .poll 1 8, .map 0 .returns,
      .tryMap 0 .panics] = some (s, tr) ∧
    acts Lock.free (actsOf tr) = some ⟨false, [0, 1]⟩ ∧ s.state.waiters.map Waiter.id = [1, 2] ∧
    Handed (canGo s.state.locked) tr s.state.waiters := by
  refine ⟨_, _, rfl, rfl, rfl, ?_⟩
  have h := run_exec [.tryLock false, .lock true, .poll 0 7, .lock false, .poll 1 8,
    .map 0 .returns, .tryMap 0 .panics] (show exec step new _ = some _ from rfl)
  exact ((mutex_refines h).2.2.2 (fresh_run h (by decide))).2

/-! ## When the ids repeat -/

/-- The lock is held, the future `0` waits under the id `1`, the others are gone. -/
def waiting (next : ℕ) (fs : List LockFuture) : Sys :=
  ⟨⟨true, next, [⟨1, (), 7⟩]⟩, ⟨false, some 1, true⟩ :: fs, [.mutexGuard]⟩

/-- A new future is polled and dropped. -/
def round (f : ℕ) : List Op := [.lock false, .poll f 9, .dropFuture f]

theorem exec_round {n : ℕ} (hn : n ≠ 1) (fs : List LockFuture) :
    exec step (waiting n fs) (round (fs.length + 1)) =
      some (waiting (nextId n) (fs ++ [⟨false, none, false⟩]),
        [.registered n, .other (.join (fs.length + 1)), .cancelled n,
          .other (.leave (fs.length + 1))]) := by
  have hn' : ¬ 1 = n := fun h => hn h.symm
  simp [exec, step, waiting, round, Sys.future?, pollLock, pollFresh, cancelWaiter, position, hn',
    wake, signed, actOf, findIdx?_cons, Option.filter]

theorem run_waiting : ∀ n, n + 2 < 2 ^ 64 → ∃ fs tr, Run step Any new tr (waiting (n + 2) fs) ∧
    acts Lock.free (actsOf tr) = some ⟨true, [0]⟩ := by
  intro n
  induction n with
  | zero =>
    intro _
    exact ⟨[], _, run_exec [.tryLock false, .lock false, .poll 0 7] rfl, rfl⟩
  | succ n ih =>
    intro hn
    obtain ⟨fs, tr, hrun, ha⟩ := ih (by omega)
    have hr := run_exec _ (exec_round (n := n + 2) (by omega) fs)
    rw [nextId_of_lt (by omega)] at hr
    refine ⟨_, _, hrun.trans hr, ?_⟩
    rw [actsOf_append, acts_append ha]
    simp [acts, actsOf, act, Lock.free]

/-- The future that gets the id `1` again is polled, the guard is dropped, and it is polled once
more. -/
def overtake (f : ℕ) : List Op := [.lock false, .poll f 8, .dropGuard 0, .poll f 8]

theorem exec_overtake (fs : List LockFuture) :
    exec step (waiting 1 fs) (overtake (fs.length + 1)) =
      some (⟨⟨true, 2, [⟨1, (), 8⟩]⟩,
        ⟨false, some 1, true⟩ :: (fs ++ [⟨false, none, true⟩]), [.gone, .mutexGuard]⟩,
        [.registered 1, .other (.join (fs.length + 1)), .woke 7, .other .unlock, .granted 1,
          .other (.serve (fs.length + 1))]) := by
  simp [exec, step, waiting, overtake, Sys.future?, Sys.guard?, Sys.drop, Guard.live, pollLock,
    pollFresh, unlock, position, wake, signed, actOf, findIdx?_cons, Option.filter, nextId,
    newGuard]

/-- The future `0` waits while `next_waiter` wraps; the locker that gets its id again is served
before it. -/
theorem locker_overtaken : ¬ ∀ tr s, Run step Any new tr s →
    ∃ l : Lock ℕ, acts Lock.free (actsOf tr) = some l := by
  intro h
  obtain ⟨fs, tr, hrun, ha⟩ := run_waiting (2 ^ 64 - 3) (by decide)
  have hround := run_exec _ (exec_round (n := 2 ^ 64 - 1) (by decide) fs)
  have hlast := run_exec _ (exec_overtake (fs ++ [⟨false, none, false⟩]))
  obtain ⟨l, hl⟩ := h _ _ ((hrun.trans hround).trans hlast)
  rw [append_assoc, actsOf_append, acts_append ha] at hl
  simp [acts, actsOf, act, Lock.free] at hl

end OhosFfrt.Mutex.Refinement
