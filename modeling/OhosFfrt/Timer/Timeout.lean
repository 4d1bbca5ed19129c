import OhosFfrt.Timer.Deadline
import OhosFfrt.Timer.Early
import OhosFfrt.Timer.Waiter

/-!
# `timer::timeout`

A poll of a `Timeout` polls its future and, if that is pending, its `Sleep`, with the same waker.
Whether the future is ready is an input.  The main result is `timeout_punctual`: `Elapsed` comes
only after the deadline, and a `Timeout` that is pending is woken for it.
-/

namespace OhosFfrt.Timer.Timeout

open Basic Lib.Runs List Option

variable {α : Type*}

/-- A `Timeout` and its `Sleep`. -/
structure Sys where
  delay : Timer.Sys
  /-- The waker of a poll that is at the future. -/
  polling : Option Waker

/-- The poll of the `Sleep` goes on, or a callback, or the clock. -/
def Own : Timer.Op → Prop
  | .poll _ | .reset _ _ => False
  | .go _ | .callback _ | .clock _ => True

/-- What can happen: the calls, the answers of the future, the `Sleep`. -/
inductive Op (α : Type*)
  | poll (w : Waker)
  /-- The future is polled; `none` is `Pending`. -/
  | value (out : Option α)
  | delay (op : Timer.Op) (own : Own op)

/-- What is seen of the future and of the `Sleep`. -/
inductive Ev (α : Type*)
  /-- With an output, the `Timeout` is ready with it. -/
  | value (w : Waker) (out : Option α)
  /-- With `ready`, the `Timeout` is ready with `Elapsed`. -/
  | delay (e : Timer.Ev)

/-- `timeout_at`. -/
def timeoutAt (clock deadline : Instant) : Sys := ⟨sleepUntil clock deadline, none⟩

/-- **One step** of a `Timeout`. -/
def step (s : Sys) : Op α → Option (Sys × List (Ev α))
  | .poll w =>
    if s.polling = none ∧ s.delay.pc = .idle then some ({ s with polling := some w }, []) else none
  | .value (some v) => s.polling.map fun w => ({ s with polling := none }, [.value w (some v)])
  | .value none =>
    s.polling.bind fun w => (Timer.step s.delay (.poll w)).map fun r =>
      (⟨r.1, none⟩, .value w none :: r.2.map .delay)
  | .delay op _ => (Timer.step s.delay op).map fun r => ({ s with delay := r.1 }, r.2.map .delay)

/-- The `Sleep` of a run is the one that `timer::timeout` makes, for the sum that it computes. -/
theorem timeoutAt_timeout {F : Type*} {now : Instant} {d : Duration} {future : F}
    {r : Timer.Timeout F} (h : Timer.timeout 0 now d future = some r) (clock : Instant) :
    (timeoutAt clock r.delay.deadline).delay.sleep = r.delay ∧
      r.delay.deadline.nanos = now.nanos + d.nanos := by
  obtain ⟨t, ht, rfl⟩ := map_eq_some_iff.mp h
  exact ⟨rfl, Instant.checkedAdd_eq_some.mp ht⟩

/-- What is assumed of the clock and of the timers. -/
def Fair (_ : List (Ev α)) (s : Sys) : Op α → Prop
  | .delay op _ => Timely [] s.delay op
  | _ => True

instance (tr : List (Ev α)) (s : Sys) (op : Op α) : Decidable (Fair tr s op) := by
  unfold Fair
  split <;> infer_instance

/-- What is seen of the `Sleep`. -/
def delays (tr : List (Ev α)) : List Timer.Ev :=
  tr.filterMap fun
    | .delay e => some e
    | .value _ _ => none

/-- **The future was pending** when it was last polled. -/
def Refused (tr : List (Ev α)) : Prop :=
  Since (fun e => ∃ w, e = .value w none) (fun e => ∃ w v, e = .value w (some v)) tr

variable {s s' : Sys} {op : Op α} {es tr : List (Ev α)} {clock deadline : Instant} {w : Waker}
  {t t' : Timer.Sys} {xs : List Timer.Ev}

theorem delays_map (xs : List Timer.Ev) : delays (xs.map Ev.delay : List (Ev α)) = xs := by
  unfold delays
  rw [filterMap_map]
  exact filterMap_some

theorem own_idle {op : Timer.Op} (own : Own op) (hs : Timer.step t op = some (t', xs))
    (h : t.pc = .idle) : t'.pc = .idle := by
  cases op with
  | poll | reset => exact own.elim
  | clock =>
    cases hs
    exact h
  | go =>
    rw [Timer.step, Timer.Sys.go, h] at hs
    cases hs
  | callback => exact (callback_quiet hs).pc.trans h

/-- A poll is at the future or at the `Sleep`, at the latter after the former. -/
structure Inv (tr : List (Ev α)) (s : Sys) : Prop where
  idle : s.polling.isSome → s.delay.pc = .idle
  refused : s.delay.pc ≠ .idle → Refused tr

/-- The steps of a `Sleep` that is not reset. -/
def Kept (_ : List Timer.Ev) (t : Timer.Sys) (op : Timer.Op) : Prop :=
  Timely [] t op ∧ NoReset [] t op

/-- **A step** leaves the `Sleep` alone, or is one of its own. -/
theorem step_delay (hI : Inv tr s) (hC : Fair tr s op) (h : step s op = some (s', es)) :
    Inv (tr ++ es) s' ∧ (s'.delay = s.delay ∧ delays es = [] ∨
      ∃ op', Kept [] s.delay op' ∧ Timer.step s.delay op' = some (s'.delay, delays es)) := by
  rcases op with w | (_ | v) | ⟨op, own⟩
  · simp only [step] at h
    split_ifs at h with hidle
    cases h
    rw [append_nil]
    exact ⟨⟨fun _ => hidle.2, hI.refused⟩, .inl ⟨rfl, rfl⟩⟩
  · obtain ⟨w, -, h⟩ := bind_eq_some_iff.mp h
    obtain ⟨⟨t, xs⟩, hs, he⟩ := map_eq_some_iff.mp h
    cases he
    refine ⟨⟨nofun, fun _ => since_of_mem mem_cons_self ⟨w, rfl⟩ (by simp)⟩,
      .inr ⟨.poll w, ⟨trivial, trivial⟩, hs.trans ?_⟩⟩
    exact congrArg (fun ys => some (t, ys)) (delays_map xs).symm
  · obtain ⟨w, hw, he⟩ := map_eq_some_iff.mp h
    cases he
    have hidle := hI.idle (by rw [hw]; rfl)
    exact ⟨⟨nofun, fun hne => absurd hidle hne⟩, .inl ⟨rfl, rfl⟩⟩
  · obtain ⟨⟨t, xs⟩, hs, he⟩ := map_eq_some_iff.mp h
    cases he
    have hnot : ∀ e ∈ xs.map Ev.delay, ¬ ∃ w v, e = Ev.value (α := α) w (some v) := by simp
    refine ⟨⟨fun h => own_idle own hs (hI.idle h), fun hne => ?_⟩,
      .inr ⟨op, ⟨hC, by cases op <;> trivial⟩, by rw [delays_map]; exact hs⟩⟩
    exact (hI.refused fun h => hne (own_idle own hs h)).append hnot

/-- The `Sleep` runs as one does that is not reset. -/
theorem delay_run (h : Run step Fair (timeoutAt clock deadline) tr s) :
    Inv tr s ∧ Run Timer.step Kept (sleepUntil clock deadline) (delays tr) s.delay := by
  have hinv : ∀ tr s, Run step Fair (timeoutAt clock deadline) tr s → Inv (α := α) tr s := by
    intro tr s h
    refine h.inv ⟨nofun, fun hne => absurd rfl hne⟩ ?_
    exact fun _ _ _ _ _ hI hC hs => (step_delay hI hC hs).1
  refine ⟨hinv _ _ h, (h.along hinv).project (f := Sys.delay) ?_⟩
  exact fun _ _ _ _ _ hC hs => (step_delay hC.2 hC.1 hs).2

theorem deadline_run (h : Run Timer.step Kept (sleepUntil clock deadline) xs t) :
    t.sleep.deadline = deadline := by
  refine h.inv (I := fun _ (t : Timer.Sys) => t.sleep.deadline = deadline) rfl ?_
  intro _ _ _ _ _ hI hC hs
  cases step_moved hs with
  | reset => exact hC.2.elim
  | _ => exact hI

/-- **A `Timeout` keeps its time.**  With a monotonic clock and timers that keep their timeouts,
whatever the order of its polls and of callbacks: it ends with `Elapsed` only when the deadline has
come and the future was pending when it was last polled; and if its latest poll has returned
`Pending` a timer for the deadline has woken the waker of that poll, or is held and will. -/
theorem timeout_punctual (h : Run step Fair (timeoutAt clock deadline) tr s) :
    (∀ op s' es, Fair tr s op → step s op = some (s', es) → .delay (.ready w) ∈ es →
      deadline ≤ s.delay.clock ∧ Refused tr) ∧
    (Pended w (delays tr) → Woken w (delays tr) ∨ ∃ k t, s.delay.sleep.registration = some k ∧
      s.delay.timers[k]? = some t ∧ t.Live ∧ t.deadline = deadline ∧
        (s.delay.states t.state).waker = some w) := by
  obtain ⟨hI, hrun⟩ := delay_run h
  have hdeadline := deadline_run hrun
  refine ⟨fun op s' es hC hs hr => ?_, fun hp => ?_⟩
  · obtain ⟨-, -, hpunctual⟩ := punctual_run (hrun.along_inputs (f := id) fun _ _ _ hC => hC.1)
    have hr : .ready w ∈ delays es := mem_filterMap.mpr ⟨_, hr, rfl⟩
    rcases (step_delay hI hC hs).2 with ⟨-, hnil⟩ | ⟨op', -, hs'⟩
    · rw [hnil] at hr
      cases hr
    · generalize delays es = xs, s'.delay = t' at hr hs'
      cases step_moved hs' with
      | ready here => exact ⟨hdeadline ▸ hpunctual.finishing _ here, hI.refused (by simp [here])⟩
      | @take k t =>
        rcases hw : (s.delay.states t.state).waker with _ | w' <;> rw [hw] at hr <;> simp at hr
      | _ => simp at hr
  · have hinv := inv_run (hrun.along_inputs (f := id) fun tr s op hC =>
      (show NoReset tr s op from hC.2).unwaited)
    refine (hinv.sure hp).imp_right fun hwaits => ?_
    obtain ⟨k, hk⟩ := isSome_iff_exists.mp hwaits.held
    obtain ⟨t, ht, hstate, htime, hphase⟩ := hinv.linked.registered k hk
    refine ⟨k, t, hk, ht, ⟨hwaits.undone t (mem_of_getElem? ht) hstate, hphase⟩,
      htime.trans hdeadline, ?_⟩
    rw [hstate]
    exact hwaits.waker

/-- The first poll of a timeout of 3 ms. -/
theorem timeout_punctual_first :
    ∃ tr s, Run (step (α := ℕ)) Fair (timeoutAt (.ofMillis 0 (by decide)) (.ofMillis 3 (by decide)))
      tr s ∧ Pended 1 (delays tr) ∧ ∃ k t, s.delay.sleep.registration = some k ∧
        s.delay.timers[k]? = some t ∧ t.Live := by
  have h : Run (step (α := ℕ)) Fair (timeoutAt (.ofMillis 0 (by decide)) (.ofMillis 3 (by decide)))
      [.value 1 none, .delay (.began 1), .delay (.pending 1)] _ :=
    run_execIf (.poll 1 :: .value none :: replicate 7 (.delay (.go true) trivial)) .nil rfl
  have hp : Pended 1 [.began 1, .pending 1] := ⟨[.began 1], _, [], rfl, rfl, by simp⟩
  obtain ⟨k, t, hk, ht, hlive, -⟩ :=
    ((timeout_punctual h).2 hp).resolve_left (not_woken (by simp [delays]))
  exact ⟨_, _, h, hp, k, t, hk, ht, hlive⟩

end OhosFfrt.Timer.Timeout
