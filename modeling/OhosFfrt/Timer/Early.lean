import OhosFfrt.Timer.Sleep

/-!
# `timer::sleep`: never early

A poll is `Ready` because of the flag or because of the clock.  The flag is set by the callback of a
timer that was started for the `TimerState` the flag is in; a `reset` makes a new one, so the timers
whose callbacks set the flag of the `Sleep` were all started for its deadline (`ready_not_early`).
-/

namespace OhosFfrt.Timer

open Basic Lib.Runs List

/-- **What is assumed**: the clock is monotonic, no callback comes before its timeout, and the time
that remains fits into the milliseconds of a timer. -/
def Timely (_ : List Ev) (s : Sys) : Op → Prop
  | .clock t => s.clock ≤ t
  | .callback k => ∀ t ∈ s.timers[k]?, t.phase = .armed → t.due ≤ s.clock.nanos
  | .go _ => ∀ r ∈ s.pc.remaining, r.nanos ≤ 1000000 * u64Max
  | .poll _ | .reset _ _ => True

instance (tr : List Ev) (s : Sys) (op : Op) : Decidable (Timely tr s op) := by
  unfold Timely
  split <;> infer_instance

/-- The deadline that the latest `reset` has set. -/
def deadlineOf (deadline : Instant) (tr : List Ev) : Instant :=
  tr.foldl
    (fun d e =>
      match e with
      | .reset d' => d'
      | _ => d) deadline

theorem le_timerMillis {r : Duration} (hr : r.nanos ≤ 1000000 * u64Max) :
    r.nanos ≤ 1000000 * timerMillis r := by
  unfold timerMillis
  generalize r.nanos = n, u64Max = most at hr ⊢
  omega

/-! ## The invariant -/

/-- **The flag and the timers of the `Sleep` are not before its deadline.** -/
structure Punctual (s : Sys) : Prop where
  late : ∀ t ∈ s.timers, t.state = s.sleep.state → s.sleep.deadline.nanos ≤ t.due
  due : ∀ t ∈ s.timers, t.phase ≠ .armed → t.phase ≠ .stopped → t.due ≤ s.clock.nanos
  fired : s.state.fired = true → s.sleep.deadline ≤ s.clock
  measured : ∀ r ∈ s.pc.remaining, s.sleep.deadline.nanos ≤ s.clock.nanos + r.nanos
  finishing : ∀ w, s.pc = .finish w → s.sleep.deadline ≤ s.clock

variable {s s' : Sys} {op : Op} {es tr : List Ev} {clock deadline : Instant}

theorem punctual_sleepUntil : Punctual (sleepUntil clock deadline) := by
  refine ⟨?_, ?_, ?_, nofun, nofun⟩
  · intro t ht
    cases ht
  · intro t ht
    cases ht
  · intro hf
    cases hf

/-- **The timers are the same up to their phases**, and none has got ahead of its time. -/
def Rephased (s : Sys) (timers : List LoopTimer) : Prop :=
  ∀ t ∈ timers, ∃ t₀ ∈ s.timers, t.state = t₀.state ∧ t.due = t₀.due ∧
    (t.phase ≠ .armed → t.phase ≠ .stopped → t.due ≤ s.clock.nanos)

theorem rephased_dropped (h : Punctual s) (ffrt : Bool) : Rephased s (s.dropped ffrt) := by
  intro t ht
  rcases of_dropped ht with hold | ⟨t₀, hold, rfl⟩
  · exact ⟨t, hold, rfl, rfl, h.due t hold⟩
  · exact ⟨t₀, hold, rfl, rfl, fun _ hnot => absurd rfl hnot⟩

theorem rephased_set (h : Punctual s) {k : ℕ} {t : LoopTimer} (ht : s.timers[k]? = some t)
    (p : Phase) (hdue : t.due ≤ s.clock.nanos) :
    Rephased s (s.timers.set k { t with phase := p }) := by
  intro t' ht'
  rcases mem_or_eq_of_mem_set ht' with hold | rfl
  · exact ⟨t', hold, rfl, rfl, h.due t' hold⟩
  · exact ⟨t, mem_of_getElem? ht, rfl, rfl, fun _ _ => hdue⟩

namespace Punctual

theorem pc (h : Punctual s) {pc : Pc}
    (hm : ∀ r ∈ pc.remaining, s.sleep.deadline.nanos ≤ s.clock.nanos + r.nanos)
    (hf : ∀ w, pc = .finish w → s.sleep.deadline ≤ s.clock) : Punctual { s with pc := pc } :=
  ⟨h.late, h.due, h.fired, hm, hf⟩

theorem callback (h : Punctual s) {timers : List LoopTimer} {states : ℕ → TimerState}
    (ht : Rephased s timers)
    (hf : (states s.sleep.state).fired = true → s.sleep.deadline ≤ s.clock) :
    Punctual { s with states := states, timers := timers } where
  late t hmem hown := by
    obtain ⟨t₀, h₀, hstate, hdue, -⟩ := ht t hmem
    rw [hdue]
    exact h.late t₀ h₀ (hstate.symm.trans hown)
  due t hmem := by
    obtain ⟨-, -, -, -, hdue⟩ := ht t hmem
    exact hdue
  fired := hf
  measured := h.measured
  finishing := h.finishing

theorem elapsed (h : Punctual s) (he : s.Elapsed) : s.sleep.deadline ≤ s.clock := by
  rcases he with hf | hle
  · exact h.fired hf
  · exact hle

theorem step (h : Punctual s) (hk : Known s) (hC : Timely tr s op)
    (hs : step s op = some (s', es)) : Punctual s' := by
  cases step_moved hs with
  | clock t =>
    have hle : s.clock.nanos ≤ t.nanos := hC
    refine ⟨h.late, ?_, ?_, ?_, ?_⟩
    · intro t' ht' h1 h2
      have := h.due t' ht' h1 h2
      show t'.due ≤ t.nanos
      omega
    · intro hf
      have : s.sleep.deadline.nanos ≤ s.clock.nanos := h.fired hf
      show s.sleep.deadline.nanos ≤ t.nanos
      omega
    · intro r hr
      have := h.measured r hr
      show s.sleep.deadline.nanos ≤ t.nanos + r.nanos
      omega
    · intro w hw
      have : s.sleep.deadline.nanos ≤ s.clock.nanos := h.finishing w hw
      show s.sleep.deadline.nanos ≤ t.nanos
      omega
  | poll | panic | reload | pending => exact h.pc nofun nofun
  | check next => rcases next with ⟨-, rfl⟩ | ⟨-, rfl⟩ <;> exact h.pc nofun nofun
  | @register _ w pc here next =>
    have hfired : (Function.update s.states s.sleep.state (s.state.register w)
        s.sleep.state).fired = s.state.fired := by
      rw [Function.update_self]
      unfold TimerState.register
      split_ifs <;> rfl
    have hst : Punctual { s with
        states := Function.update s.states s.sleep.state (s.state.register w) } :=
      ⟨h.late, h.due, fun hf => h.fired (hfired.symm.trans hf), h.measured, h.finishing⟩
    rcases next with ⟨-, rfl⟩ | ⟨-, rfl⟩ <;> exact hst.pc nofun nofun
  | measure =>
    refine h.pc ?_ nofun
    rintro r ⟨rfl⟩
    exact Instant.le_add_saturatingDurationSince _ _
  | @start w r here =>
    have hlate : s.sleep.deadline.nanos ≤ (s.timer r).due := by
      have hmem : r ∈ s.pc.remaining := by rw [here]; rfl
      have hmeasured := h.measured r hmem
      have hround := le_timerMillis (hC r hmem)
      show s.sleep.deadline.nanos ≤ s.clock.nanos + 1000000 * (timerMillis r : ℕ)
      omega
    refine ⟨?_, ?_, h.fired, nofun, nofun⟩
    · intro t ht hown
      rcases mem_append.mp ht with hold | hnew
      · exact h.late t hold hown
      · obtain rfl := mem_singleton.mp hnew
        exact hlate
    · intro t ht h1 h2
      rcases mem_append.mp ht with hold | hnew
      · exact h.due t hold h1 h2
      · obtain rfl := mem_singleton.mp hnew
        exact absurd rfl h1
  | elapsed he => exact h.pc nofun fun _ _ => h.elapsed he
  | @ready ffrt =>
    have hst : Punctual { s with timers := s.dropped ffrt } :=
      h.callback (rephased_dropped h ffrt) h.fired
    exact ⟨hst.late, hst.due, hst.fired, nofun, nofun⟩
  | @reset ffrt d idle =>
    have hst : Punctual { s with timers := s.dropped ffrt } :=
      h.callback (rephased_dropped h ffrt) h.fired
    refine ⟨?_, hst.due, ?_, ?_, ?_⟩
    · -- the `TimerState` is new, so no timer has it
      intro t ht hown
      have hlt : t.state < s.next := known_dropped hk ffrt t ht
      have hown : t.state = s.next := hown
      omega
    · intro hf
      have hnew : (Function.update s.states s.next TimerState.new s.next).fired = true := hf
      rw [Function.update_self] at hnew
      cases hnew
    · intro r hr
      have hr : r ∈ s.pc.remaining := hr
      rw [idle] at hr
      cases hr
    · intro w hw
      have hw : s.pc = .finish w := hw
      rw [idle] at hw
      cases hw
  | @call k t here armed =>
    exact h.callback (rephased_set h here _ (hC t here armed)) h.fired
  | @store k t here begun =>
    have hdue : t.due ≤ s.clock.nanos :=
      h.due t (mem_of_getElem? here) (by rw [begun]; nofun) (by rw [begun]; nofun)
    refine h.callback (rephased_set h here _ hdue) fun hf => ?_
    by_cases hown : t.state = s.sleep.state
    · have := h.late t (mem_of_getElem? here) hown
      exact Instant.le_iff.mpr (by omega)
    · rw [Function.update_of_ne (Ne.symm hown)] at hf
      exact h.fired hf
  | @take k t here stored =>
    have hdue : t.due ≤ s.clock.nanos :=
      h.due t (mem_of_getElem? here) (by rw [stored]; nofun) (by rw [stored]; nofun)
    refine h.callback (rephased_set h here _ hdue) fun hf => h.fired ?_
    by_cases hown : t.state = s.sleep.state
    · rw [← hown, Function.update_self] at hf
      rw [← hf, Sys.state, hown]
    · rwa [Function.update_of_ne (Ne.symm hown)] at hf

end Punctual

/-! ## Runs -/

theorem deadlineOf_append (d : Instant) (tr es : List Ev) :
    deadlineOf d (tr ++ es) = deadlineOf (deadlineOf d tr) es :=
  foldl_append

theorem deadline_step (hs : step s op = some (s', es)) :
    s'.sleep.deadline = deadlineOf s.sleep.deadline es := by
  cases step_moved hs with
  | @take k t =>
    show s.sleep.deadline = _
    rcases (s.states t.state).waker with _ | w <;> rfl
  | _ => rfl

/-- No flag is set early. -/
theorem punctual_run (h : Run step Timely (sleepUntil clock deadline) tr s) :
    s.sleep.deadline = deadlineOf deadline tr ∧ Known s ∧ Punctual s := by
  refine h.inv (I := fun tr s => s.sleep.deadline = deadlineOf deadline tr ∧ Known s ∧ Punctual s)
    ⟨rfl, known_sleepUntil, punctual_sleepUntil⟩ ?_
  rintro tr s op s' es ⟨hd, hk, hp⟩ hC hs
  refine ⟨?_, hk.step hs, hp.step hk hC hs⟩
  rw [deadlineOf_append, ← hd]
  exact deadline_step hs

/-- **`Sleep` is never early**: with a monotonic clock and timers that keep their timeouts, a poll
returns `Ready` only when the deadline of the latest `reset` has come, whatever the order of polls,
resets and callbacks. -/
theorem ready_not_early {w : Waker} (h : Run step Timely (sleepUntil clock deadline) tr s)
    (hC : Timely tr s op) (hs : step s op = some (s', es)) (hr : .ready w ∈ es) :
    deadlineOf deadline tr ≤ s.clock := by
  obtain ⟨hd, -, hp⟩ := punctual_run h
  rw [← hd]
  cases step_moved hs with
  | ready here => exact hp.finishing _ here
  | @take k t =>
    rcases hw : (s.states t.state).waker with _ | w' <;> rw [hw] at hr <;> simp at hr
  | _ => simp at hr

/-- A timer for 3 ms is superseded by a `reset` to 10 ms while its callback is under way. -/
def superseded : List Op :=
  [.poll 1, .go true, .go true, .go true, .go true, .go true, .go true, .go true,
    .clock (.ofMillis 3 (by decide)), .callback 0, .reset (.ofMillis 10 (by decide)) true,
    .callback 0, .callback 0, .poll 2, .go true, .go true, .go true, .go true, .go true, .go true,
    .go true, .clock (.ofMillis 10 (by decide)), .poll 2, .go true, .go true]

theorem ready_not_early_superseded :
    ∃ tr s s', Run step Timely (sleepUntil (.ofMillis 0 (by decide)) (.ofMillis 3 (by decide)))
      tr s ∧ step s (.go true) = some (s', [.ready 2]) ∧
      deadlineOf (.ofMillis 3 (by decide)) tr ≤ s.clock := by
  have hrun : Run step Timely (sleepUntil (.ofMillis 0 (by decide)) (.ofMillis 3 (by decide)))
      [.began 1, .pending 1, .reset (.ofMillis 10 (by decide)), .woken 1, .began 2, .pending 2,
        .began 2] _ := run_execIf superseded .nil rfl
  refine ⟨_, _, _, hrun, rfl, ?_⟩
  exact ready_not_early (w := 2) hrun
    (show Timely _ _ (.go true) from fun r hr => by cases hr)
    (show step _ (.go true) = some (_, [.ready 2]) from rfl) (by simp)

end OhosFfrt.Timer
