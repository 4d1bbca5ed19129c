import OhosFfrt.Timer.Sleep

/-!
# `timer::sleep`: the waiter of a pending poll

A poll stores its waker before it looks at the flag for the second time, and the callback sets the
flag before it takes the waker.  So a poll that has not seen the flag has its waker in the
`TimerState` before the callback looks for it (`no_timer_lost`, `waiter_kept`).
-/

namespace OhosFfrt.Timer

open Basic Lib.Arena Lib.Runs List Option

variable {s s' : Sys} {op : Op} {es tr : List Ev} {clock deadline : Instant} {w : Waker}

/-! ## What has happened since the latest poll began -/

/-- A poll begins. -/
def Begins (e : Ev) : Prop := ∃ w, e = .began w

/-- The latest poll, with the waker `w`, has returned `Pending`. -/
def Pended (w : Waker) (tr : List Ev) : Prop := Since (· = .pending w) Begins tr

/-- The waker has been woken since the latest poll began. -/
def Woken (w : Waker) (tr : List Ev) : Prop := Since (· = .woken w) Begins tr

/-- **A task waits**: the latest poll has returned `Pending`, and its waker has not been woken. -/
def Waiting (w : Waker) (tr : List Ev) : Prop := Pended w tr ∧ ¬ Woken w tr

theorem pended_append (h : Pended w (tr ++ es)) :
    .pending w ∈ es ∨ Pended w tr ∧ ∀ e ∈ es, ¬ Begins e := by
  rcases since_append h with ⟨e, he, rfl⟩ | hold
  · exact .inl he
  · exact .inr hold

/-! ## The timer that is held -/

/-- **The timer of the `Sleep`** was started for its `TimerState` and its deadline, and is not
stopped; the callbacks that have set the flag of the `Sleep` have done so. -/
structure Linked (s : Sys) : Prop where
  registered : ∀ k, s.sleep.registration = some k → ∃ t, s.timers[k]? = some t ∧
    t.state = s.sleep.state ∧ t.deadline = s.sleep.deadline ∧ t.phase ≠ .stopped
  fired : ∀ t ∈ s.timers, t.state = s.sleep.state → t.phase = .stored ∨ t.phase = .done →
    s.state.fired = true

theorem linked_sleepUntil : Linked (sleepUntil clock deadline) := by
  refine ⟨nofun, ?_⟩
  intro t ht
  cases ht

theorem waker_register (t : TimerState) (w : Waker) : (t.register w).waker = some w := by
  unfold TimerState.register
  split_ifs with h
  · exact h
  · rfl

theorem fired_register (t : TimerState) (w : Waker) : (t.register w).fired = t.fired := by
  unfold TimerState.register
  split_ifs <;> rfl

namespace Linked

theorem dropped (h : Linked s) {ffrt : Bool} : ∀ t ∈ s.dropped ffrt, t.state = s.sleep.state →
    t.phase = .stored ∨ t.phase = .done → s.state.fired = true := by
  intro t ht hown hp
  rcases of_dropped ht with hold | ⟨t₀, -, rfl⟩
  · exact h.fired t hold hown hp
  · rcases hp with hp | hp <;> cases hp

theorem callback (h : Linked s) {k : ℕ} {t : LoopTimer} {p : Phase} {states : ℕ → TimerState}
    (ht : s.timers[k]? = some t) (hp : p ≠ .stopped)
    (hkeep : s.state.fired = true → (states s.sleep.state).fired = true)
    (hset : t.state = s.sleep.state → p = .stored ∨ p = .done →
      (states s.sleep.state).fired = true) :
    Linked { s with states := states, timers := s.timers.set k { t with phase := p } } := by
  refine ⟨?_, ?_⟩
  · intro j hj
    obtain ⟨u, hu, hstate, hdeadline, hphase⟩ := h.registered j hj
    by_cases hjk : k = j
    · subst hjk
      obtain rfl : t = u := some.inj (ht.symm.trans hu)
      refine ⟨_, get_set ht, hstate, hdeadline, hp⟩
    · exact ⟨u, (getElem?_set_ne hjk).trans hu, hstate, hdeadline, hphase⟩
  · intro u hu hown hphase
    rcases mem_or_eq_of_mem_set hu with hold | rfl
    · exact hkeep (h.fired u hold hown hphase)
    · exact hset hown hphase

theorem step (h : Linked s) (hk : Known s) (hs : step s op = some (s', es)) : Linked s' := by
  cases step_moved hs with
  | @register _ w =>
    refine ⟨h.registered, ?_⟩
    intro t ht hown hp
    show (Function.update s.states s.sleep.state (s.state.register w) s.sleep.state).fired = true
    rw [Function.update_self, fired_register]
    exact h.fired t ht hown hp
  | @start w r =>
    refine ⟨?_, ?_⟩
    · intro k hk
      obtain rfl := some.inj hk
      exact ⟨s.timer r, getElem?_concat_length, rfl, rfl, nofun⟩
    · intro t ht hown hp
      rcases mem_append.mp ht with hold | hnew
      · exact h.fired t hold hown hp
      · obtain rfl := mem_singleton.mp hnew
        rcases hp with hp | hp <;> cases hp
  | ready => exact ⟨nofun, h.dropped⟩
  | @reset ffrt =>
    refine ⟨nofun, ?_⟩
    -- the `TimerState` is new, so no timer has it
    intro t ht hown
    have hlt : t.state < s.next := known_dropped hk ffrt t ht
    have hown : t.state = s.next := hown
    omega
  | call here => exact h.callback here nofun id nofun
  | @store k t here =>
    refine h.callback here nofun ?_ ?_
    · intro hf
      by_cases hown : t.state = s.sleep.state
      · rw [← hown, Function.update_self]
      · rwa [Function.update_of_ne (Ne.symm hown)]
    · intro hown _
      rw [← hown, Function.update_self]
  | @take k t here stored =>
    have hsame : (Function.update s.states t.state { s.states t.state with waker := none }
        s.sleep.state).fired = s.state.fired := by
      by_cases hown : t.state = s.sleep.state
      · rw [← hown, Function.update_self, Sys.state, ← hown]
      · rw [Function.update_of_ne (Ne.symm hown), Sys.state]
    refine h.callback here nofun ?_ ?_
    · intro hf
      rw [hsame]
      exact hf
    · intro hown _
      rw [hsame]
      exact h.fired t (mem_of_getElem? here) hown (.inl stored)
  | _ => exact ⟨h.registered, h.fired⟩

end Linked

/-! ## The stages of a poll -/

/-- The waker was woken, or is stored. -/
def Kept (w : Waker) (tr : List Ev) (s : Sys) : Prop := Woken w tr ∨ s.state.waker = some w

/-- **A timer will wake the waker.** -/
structure Waits (w : Waker) (s : Sys) : Prop where
  waker : s.state.waker = some w
  held : s.sleep.registration.isSome
  undone : ∀ t ∈ s.timers, t.state = s.sleep.state → t.phase ≠ .done

/-- The waker was woken, or a timer will wake it. -/
def Sure (w : Waker) (tr : List Ev) (s : Sys) : Prop := Woken w tr ∨ Waits w s

/-- **What holds at each place of a poll.** -/
def Stage (tr : List Ev) (s : Sys) : Prop :=
  match s.pc with
  | .idle => ∀ w, Pended w tr → Sure w tr s
  | .measure w | .start w _ => Kept w tr s
  | .reload w => Kept w tr s ∧ s.sleep.registration.isSome
  | .renow w => Sure w tr s ∧ s.sleep.registration.isSome
  | .load _ | .now _ | .register _ | .finish _ => True

/-- **What a step may do that is none of the poll's.** -/
structure Quiet (s s' : Sys) (es : List Ev) : Prop where
  pc : s'.pc = s.pc
  sleep : s'.sleep = s.sleep
  lent : ∀ w, s.state.waker = some w → s'.state.waker = some w ∨ .woken w ∈ es
  undone : (∀ t ∈ s.timers, t.state = s.sleep.state → t.phase ≠ .done) →
    (∀ t ∈ s'.timers, t.state = s.sleep.state → t.phase ≠ .done) ∨
      ∀ w, s.state.waker = some w → .woken w ∈ es
  begins : ∀ e ∈ es, ¬ Begins e
  pends : ∀ w, .pending w ∉ es

section Quiet
variable (hq : Quiet s s' es)
include hq

theorem Woken.quiet (h : Woken w tr) : Woken w (tr ++ es) := h.append hq.begins

theorem woken_new (tr : List Ev) (h : .woken w ∈ es) : Woken w (tr ++ es) :=
  since_of_mem h rfl hq.begins

theorem Kept.quiet (h : Kept w tr s) : Kept w (tr ++ es) s' := by
  rcases h with h | h
  · exact .inl (h.quiet hq)
  · rcases hq.lent w h with hsame | hnew
    · exact .inr hsame
    · exact .inl (woken_new hq tr hnew)

theorem Sure.quiet (h : Sure w tr s) : Sure w (tr ++ es) s' := by
  rcases h with h | h
  · exact .inl (h.quiet hq)
  · rcases hq.lent w h.waker with hsame | hnew
    · rcases hq.undone h.undone with hundone | hall
      · refine .inr ⟨hsame, ?_, ?_⟩
        · rw [hq.sleep]
          exact h.held
        · rw [hq.sleep]
          exact hundone
      · exact .inl (woken_new hq tr (hall w h.waker))
    · exact .inl (woken_new hq tr hnew)

theorem pended_quiet (h : Pended w (tr ++ es)) : Pended w tr := by
  rcases pended_append h with hnew | ⟨hold, -⟩
  · exact absurd hnew (hq.pends w)
  · exact hold

theorem Stage.quiet (h : Stage tr s) : Stage (tr ++ es) s' := by
  unfold Stage at h ⊢
  rw [hq.pc]
  split at h
  · intro w hp
    exact (h w (pended_quiet hq hp)).quiet hq
  · exact Kept.quiet hq h
  · exact Kept.quiet hq h
  · refine ⟨Kept.quiet hq h.1, ?_⟩
    rw [hq.sleep]
    exact h.2
  · refine ⟨Sure.quiet hq h.1, ?_⟩
    rw [hq.sleep]
    exact h.2
  all_goals trivial

end Quiet

theorem undone_set {k : ℕ} {t : LoopTimer} {p : Phase} {i : ℕ} (hp : p ≠ .done)
    (h : ∀ t ∈ s.timers, t.state = i → t.phase ≠ .done) :
    ∀ u ∈ s.timers.set k { t with phase := p }, u.state = i → u.phase ≠ .done := by
  intro u hu hown
  rcases mem_or_eq_of_mem_set hu with hold | rfl
  · exact h u hold hown
  · exact hp

theorem callback_quiet {k : ℕ} (hs : step s (.callback k) = some (s', es)) : Quiet s s' es := by
  cases step_moved hs with
  | call =>
    exact ⟨rfl, rfl, fun _ h => .inl h, fun h => .inl (undone_set nofun h), by simp, by simp⟩
  | @store _ t =>
    refine ⟨rfl, rfl, ?_, fun h => .inl (undone_set nofun h), by simp, by simp⟩
    intro w hw
    refine .inl ?_
    show (Function.update s.states t.state _ s.sleep.state).waker = some w
    by_cases hown : t.state = s.sleep.state
    · rw [← hown, Function.update_self]
      rw [Sys.state, ← hown] at hw
      exact hw
    · rw [Function.update_of_ne (Ne.symm hown)]
      exact hw
  | @take _ t =>
    have hes : ∀ e ∈ ((s.states t.state).waker.map Ev.woken).toList, ∃ w, e = .woken w := by
      intro e he
      rw [mem_toList, map_eq_some_iff] at he
      obtain ⟨w, -, rfl⟩ := he
      exact ⟨w, rfl⟩
    have hwoken : t.state = s.sleep.state → ∀ w, s.state.waker = some w →
        .woken w ∈ ((s.states t.state).waker.map Ev.woken).toList := by
      intro hown w hw
      rw [Sys.state, ← hown] at hw
      rw [hw]
      exact mem_singleton_self _
    refine ⟨rfl, rfl, ?_, ?_, ?_, ?_⟩
    · intro w hw
      by_cases hown : t.state = s.sleep.state
      · exact .inr (hwoken hown w hw)
      · refine .inl ?_
        show (Function.update s.states t.state _ s.sleep.state).waker = some w
        rw [Function.update_of_ne (Ne.symm hown)]
        exact hw
    · intro h
      by_cases hown : t.state = s.sleep.state
      · exact .inr (hwoken hown)
      · refine .inl ?_
        intro u hu hu'
        rcases mem_or_eq_of_mem_set hu with hold | rfl
        · exact h u hold hu'
        · exact absurd hu' hown
    · rintro e he ⟨w, rfl⟩
      obtain ⟨w', hw'⟩ := hes _ he
      cases hw'
    · intro w he
      obtain ⟨w', hw'⟩ := hes _ he
      cases hw'

/-! ## Runs -/

/-- **No `reset` while a task waits.** -/
def Unwaited (tr : List Ev) (_ : Sys) : Op → Prop
  | .reset _ _ => ∀ w, ¬ Waiting w tr
  | _ => True

/-- The invariant of these runs: while a poll is under way the latest one has not returned. -/
structure Inv (tr : List Ev) (s : Sys) : Prop where
  known : Known s
  linked : Linked s
  busy : s.pc ≠ .idle → ∀ w, ¬ Pended w tr
  stage : Stage tr s

theorem pended_nil : ¬ Pended w [] := by
  rintro ⟨l, x, r, heq, -⟩
  cases l <;> cases heq

theorem inv_sleepUntil : Inv [] (sleepUntil clock deadline) where
  known := known_sleepUntil
  linked := linked_sleepUntil
  busy hnot := absurd rfl hnot
  stage _ hp := absurd hp pended_nil

theorem busy_on (h : Inv tr s) (hpc : s.pc ≠ .idle) (hes : ∀ w, .pending w ∉ es) :
    ∀ w, ¬ Pended w (tr ++ es) := by
  intro w hp
  rcases pended_append hp with hnew | ⟨hold, -⟩
  · exact hes w hnew
  · exact h.busy hpc w hold

theorem Inv.go {ffrt : Bool} (h : Inv tr s) (hs : step s (.go ffrt) = some (s', es)) :
    (s'.pc ≠ .idle → ∀ w, ¬ Pended w (tr ++ es)) ∧ Stage (tr ++ es) s' := by
  have hbusy : s.pc ≠ .idle := by
    intro hidle
    have hs : s.go ffrt = some (s', es) := hs
    rw [Sys.go, hidle] at hs
    cases hs
  have hstage := h.stage
  unfold Stage at hstage
  cases step_moved hs with
  | check next =>
    refine ⟨fun _ => busy_on h hbusy nofun, ?_⟩
    rcases next with ⟨-, rfl⟩ | ⟨-, rfl⟩ <;> trivial
  | @register _ w pc here next =>
    have hstored : (Function.update s.states s.sleep.state (s.state.register w)
        s.sleep.state).waker = some w := by
      rw [Function.update_self]
      exact waker_register _ _
    refine ⟨fun _ => busy_on h hbusy nofun, ?_⟩
    rcases next with ⟨-, rfl⟩ | ⟨hsome, rfl⟩
    · exact .inr hstored
    · exact ⟨.inr hstored, hsome⟩
  | measure here =>
    rw [here] at hstage
    refine ⟨fun _ => busy_on h hbusy nofun, ?_⟩
    rw [append_nil]
    exact hstage
  | start here =>
    rw [here] at hstage
    refine ⟨fun _ => busy_on h hbusy nofun, ?_⟩
    rw [append_nil]
    exact ⟨hstage, rfl⟩
  | @panic w =>
    have hnot : ∀ w', ¬ Pended w' (tr ++ [.panicked w]) := busy_on h hbusy (by simp)
    exact ⟨fun _ => hnot, fun w hp => absurd hp (hnot w)⟩
  | reload here unset =>
    rw [here] at hstage
    refine ⟨fun _ => busy_on h hbusy nofun, ?_⟩
    rw [append_nil]
    refine ⟨?_, hstage.2⟩
    rcases hstage.1 with hwoken | hwaker
    · exact .inl hwoken
    · refine .inr ⟨hwaker, hstage.2, ?_⟩
      -- a callback that is done has set the flag
      intro t ht hown hdone
      have hset := h.linked.fired t ht hown (.inr hdone)
      rw [unset] at hset
      cases hset
  | @pending _ w here =>
    rw [here] at hstage
    refine ⟨fun hnot => absurd rfl hnot, ?_⟩
    intro w' hp
    rcases pended_append hp with hnew | ⟨hold, -⟩
    · obtain rfl : w' = w := by simpa using hnew
      rcases hstage.1 with hwoken | hwaits
      · exact .inl (hwoken.append (by simp [Begins]))
      · exact .inr ⟨hwaits.waker, hwaits.held, hwaits.undone⟩
    · exact absurd hold (h.busy hbusy w')
  | elapsed => exact ⟨fun _ => busy_on h hbusy nofun, trivial⟩
  | @ready _ w =>
    have hnot : ∀ w', ¬ Pended w' (tr ++ [.ready w]) := busy_on h hbusy (by simp)
    exact ⟨fun _ => hnot, fun w hp => absurd hp (hnot w)⟩

theorem Inv.step (h : Inv tr s) (hC : Unwaited tr s op) (hs : step s op = some (s', es)) :
    Inv (tr ++ es) s' := by
  suffices hmain : (s'.pc ≠ .idle → ∀ w, ¬ Pended w (tr ++ es)) ∧ Stage (tr ++ es) s' from
    ⟨h.known.step hs, h.linked.step h.known hs, hmain.1, hmain.2⟩
  have hquiet : Quiet s s' es →
      (s'.pc ≠ .idle → ∀ w, ¬ Pended w (tr ++ es)) ∧ Stage (tr ++ es) s' := by
    intro hq
    refine ⟨fun hpc w hp => ?_, h.stage.quiet hq⟩
    rw [hq.pc] at hpc
    exact h.busy hpc w (pended_quiet hq hp)
  cases op with
  | clock =>
    cases step_moved hs
    exact hquiet ⟨rfl, rfl, fun _ h => .inl h, fun h => .inl h, by simp, by simp⟩
  | poll w =>
    cases step_moved hs
    refine ⟨fun _ w' hp => ?_, trivial⟩
    rcases pended_append hp with hnew | ⟨-, hnot⟩
    · simp at hnew
    · exact hnot _ mem_cons_self ⟨w, rfl⟩
  | go => exact h.go hs
  | reset d =>
    cases step_moved hs with
    | reset _ idle =>
      refine ⟨fun hpc => absurd idle hpc, ?_⟩
      show Stage (tr ++ [.reset d]) _
      unfold Stage
      rw [show _ = Pc.idle from idle]
      -- whoever has returned `Pending` has been woken
      intro w hp
      rcases pended_append hp with hnew | ⟨hold, hnot⟩
      · simp at hnew
      · have hwoken : Woken w tr := by
          by_contra hw
          exact hC w ⟨hold, hw⟩
        exact .inl (hwoken.append hnot)
  | callback => exact hquiet (callback_quiet hs)

theorem inv_run (h : Run step Unwaited (sleepUntil clock deadline) tr s) : Inv tr s :=
  h.inv inv_sleepUntil fun _ _ _ _ _ hI hC hs => hI.step hC hs

theorem Inv.sure (h : Inv tr s) (hp : Pended w tr) : Sure w tr s := by
  have hidle : s.pc = .idle := by
    by_contra hpc
    exact h.busy hpc w hp
  have hstage := h.stage
  unfold Stage at hstage
  rw [hidle] at hstage
  exact hstage w hp

/-! ## Without a `reset` -/

/-- No call of `reset`. -/
def NoReset (_ : List Ev) (_ : Sys) : Op → Prop
  | .reset _ _ => False
  | _ => True

instance : ∀ tr s op, Decidable (NoReset tr s op)
  | _, _, .reset _ _ => isFalse id
  | _, _, .clock _ | _, _, .poll _ | _, _, .go _ | _, _, .callback _ => isTrue trivial

theorem NoReset.unwaited (h : NoReset tr s op) : Unwaited tr s op := by
  cases op with
  | reset => exact h.elim
  | _ => trivial

theorem noReset_next (h : Run step NoReset (sleepUntil clock deadline) tr s) : s.next = 1 := by
  refine h.inv (I := fun _ (s : Sys) => s.next = 1) rfl ?_
  intro tr s op s' es hI hC hs
  cases step_moved hs with
  | reset => exact hC.elim
  | _ => exact hI

theorem noReset_held (h : Run step NoReset (sleepUntil clock deadline) tr s) (hp : Pended w tr) :
    s.sleep.registration.isSome := by
  have hinv : ∀ tr s, Run step NoReset (sleepUntil clock deadline) tr s → Inv tr s := by
    intro tr s h
    exact inv_run (h.along_inputs (f := id) fun _ _ _ hC => hC.unwaited)
  refine ((h.along hinv).since (K := fun s : Sys => s.pc = .idle ∧ s.sleep.registration.isSome)
    ?_ ?_ hp).2
  · rintro tr s op s' es x ⟨-, hI⟩ hs hx rfl
    have hstage := hI.stage
    unfold Stage at hstage
    cases step_moved hs with
    | pending here =>
      rw [here] at hstage
      exact ⟨rfl, hstage.2⟩
    | take => simp at hx
    | _ => simp at hx
  · rintro tr s op s' es ⟨hC, -⟩ hs ⟨hidle, hsome⟩ hnot
    cases op with
    | clock =>
      cases step_moved hs
      exact ⟨hidle, hsome⟩
    | poll w =>
      cases step_moved hs
      exact absurd ⟨w, rfl⟩ (hnot _ mem_cons_self)
    | go ffrt =>
      have hs : s.go ffrt = some (s', es) := hs
      rw [Sys.go, hidle] at hs
      cases hs
    | reset => exact hC.elim
    | callback =>
      have hq := callback_quiet hs
      rw [hq.pc, hq.sleep]
      exact ⟨hidle, hsome⟩

/-- **`Sleep` loses no timer**: whatever the order of the steps of polls and callbacks, if the
latest poll has returned `Pending`, a callback that is done has woken its waker since that poll
began, and the timer is held and not stopped. -/
theorem no_timer_lost (h : Run step NoReset (sleepUntil clock deadline) tr s) (hp : Pended w tr) :
    (∀ t ∈ s.timers, t.phase = .done → Woken w tr) ∧
      ∃ k t, s.sleep.registration = some k ∧ s.timers[k]? = some t ∧ t.phase ≠ .stopped := by
  have hI : Inv tr s := inv_run (h.along_inputs (f := id) fun _ _ _ hC => hC.unwaited)
  refine ⟨?_, ?_⟩
  · intro t ht hdone
    have hone := noReset_next h
    have hown : t.state = s.sleep.state := by
      have := hI.known.current
      have := hI.known.timers t ht
      omega
    rcases hI.sure hp with hwoken | hwaits
    · exact hwoken
    · exact absurd hdone (hwaits.undone t ht hown)
  · obtain ⟨k, hk⟩ := isSome_iff_exists.mp (noReset_held h hp)
    obtain ⟨t, ht, -, -, hphase⟩ := hI.linked.registered k hk
    exact ⟨k, t, hk, ht, hphase⟩

/-- The second poll stores its waker before the callback takes it, and looks at the flag before the
callback sets it. -/
theorem no_timer_lost_repolled :
    ∃ tr s, Run step NoReset (sleepUntil (.ofMillis 0 (by decide)) (.ofMillis 3 (by decide))) tr s ∧
      Pended 2 tr ∧ Woken 2 tr := by
  have hrun : Run step NoReset (sleepUntil (.ofMillis 0 (by decide)) (.ofMillis 3 (by decide)))
      [.began 1, .pending 1, .began 2, .pending 2, .woken 2] _ :=
    run_execIf [.poll 1, .go true, .go true, .go true, .go true, .go true, .go true, .go true,
      .poll 2, .go true, .go true, .callback 0, .go true, .go true, .callback 0, .go true,
      .callback 0] .nil rfl
  have hp : Pended 2 [.began 1, .pending 1, .began 2, .pending 2, .woken 2] :=
    ⟨[.began 1, .pending 1, .began 2], _, [.woken 2], rfl, rfl, by simp [Begins]⟩
  exact ⟨_, _, hrun, hp, (no_timer_lost hrun hp).1 _ mem_cons_self rfl⟩

/-! ## With `reset` -/

/-- **A task that waits has a timer that will wake it**: if there is no `reset` while a task waits,
then whenever a task waits there is a timer, held by the `Sleep` and for a deadline no later than
its own, whose callback will take the waker of that task. -/
theorem waiter_kept (h : Run step Unwaited (sleepUntil clock deadline) tr s) (hw : Waiting w tr) :
    ∃ k t, s.sleep.registration = some k ∧ s.timers[k]? = some t ∧ t.Live ∧
      t.deadline ≤ s.sleep.deadline ∧ (s.states t.state).waker = some w := by
  have hI := inv_run h
  have hwaits : Waits w s := (hI.sure hw.1).resolve_left hw.2
  obtain ⟨k, hk⟩ := isSome_iff_exists.mp hwaits.held
  obtain ⟨t, ht, hstate, hdeadline, hphase⟩ := hI.linked.registered k hk
  refine ⟨k, t, hk, ht, ⟨?_, hphase⟩, ?_, ?_⟩
  · exact hwaits.undone t (mem_of_getElem? ht) hstate
  · rw [hdeadline]
    exact Instant.le_iff.mpr (Int.le_refl _)
  · rw [hstate]
    exact hwaits.waker

theorem not_woken (h : .woken w ∉ tr) : ¬ Woken w tr := by
  rintro ⟨l, x, r, rfl, rfl, -⟩
  exact h (mem_append_right _ mem_cons_self)

/-- A poll up to its `Pending`, with a new timer. -/
def pendingPoll (w : Waker) : List Op :=
  [.poll w, .go true, .go true, .go true, .go true, .go true, .go true, .go true]

/-- The first task is woken, and after a `reset` another one waits. -/
theorem waiter_kept_after_reset :
    ∃ tr s, Run step Unwaited (sleepUntil (.ofMillis 0 (by decide)) (.ofMillis 3 (by decide)))
      tr s ∧ Waiting 2 tr ∧ ∃ t ∈ s.timers, t.Live ∧ (s.states t.state).waker = some 2 := by
  have hfirst : Run step Unwaited (sleepUntil (.ofMillis 0 (by decide)) (.ofMillis 3 (by decide)))
      [.began 1, .pending 1, .woken 1] _ :=
    Run.exec (pendingPoll 1 ++ [.callback 0, .callback 0, .callback 0]) .nil
      (by simp [pendingPoll, Unwaited]) rfl
  have hnone : ∀ w, ¬ Waiting w [.began 1, .pending 1, .woken 1] := by
    rintro w ⟨⟨l, x, r, heq, rfl, -⟩, hnot⟩
    have hmem : Ev.pending w ∈ [.began 1, .pending 1, .woken 1] := by
      rw [heq]
      exact mem_append_right _ mem_cons_self
    obtain rfl : w = 1 := by simpa using hmem
    exact hnot ⟨[.began 1, .pending 1], _, [], rfl, rfl, by simp⟩
  have hreset := hfirst.snoc
    (show Unwaited _ _ (.reset (.ofMillis 9 (by decide)) true) from hnone) rfl
  have hsecond : Run step Unwaited _ [.began 1, .pending 1, .woken 1,
      .reset (.ofMillis 9 (by decide)), .began 2, .pending 2] _ :=
    Run.exec (pendingPoll 2) hreset (by simp [pendingPoll, Unwaited]) rfl
  have hw : Waiting 2 [.began 1, .pending 1, .woken 1, .reset (.ofMillis 9 (by decide)), .began 2,
      .pending 2] :=
    ⟨⟨[.began 1, .pending 1, .woken 1, .reset (.ofMillis 9 (by decide)), .began 2], _, [], rfl, rfl,
      by simp⟩, not_woken (by simp)⟩
  obtain ⟨k, t, -, ht, hlive, -, hwaker⟩ := waiter_kept hsecond hw
  exact ⟨_, _, hsecond, hw, t, mem_of_getElem? ht, hlive, hwaker⟩

/-- **A `reset` forgets the task that waits**: it waits, and no timer is left. -/
theorem reset_forgets_waiter :
    ∃ tr s, Run step Any (sleepUntil (.ofMillis 0 (by decide)) (.ofMillis 3 (by decide))) tr s ∧
      Waiting 1 tr ∧ s.sleep.registration = none ∧ ∀ t ∈ s.timers, ¬ t.Live := by
  have hrun : Run step Any (sleepUntil (.ofMillis 0 (by decide)) (.ofMillis 3 (by decide)))
      [.began 1, .pending 1, .reset (.ofMillis 5 (by decide))] _ :=
    run_exec (pendingPoll 1 ++ [.reset (.ofMillis 5 (by decide)) true]) rfl
  refine ⟨_, _, hrun, ⟨?_, not_woken (by simp)⟩, rfl, ?_⟩
  · exact ⟨[.began 1], _, [.reset (.ofMillis 5 (by decide))], rfl, rfl, by simp [Begins]⟩
  · intro t ht hlive
    obtain rfl := mem_singleton.mp ht
    exact hlive.2 rfl

end OhosFfrt.Timer
