import OhosFfrt.Task.Wakes

/-!
# `runtime` and `task`: no abort is lost

A runner that has not seen `cancelled` when it looked has its waker in the slot at that time; an
abort that comes later finds it there, or an earlier one has found it (`Coming`).
-/

namespace OhosFfrt.Task.Aborts

open Basic Lib.Arena Lib.Runs Task.Runner List Option
open Task.Moves Task.Wakes

variable {T : Type*} {s s' : Sys T} {op : Op T} {tr es : List (Ev T)} {k : Kind} {id : ℕ}
  {C : List (Ev T) → Sys T → Op T → Prop} {r : Result T}

/-- An `abort` is under way. -/
def InFlight (s : Sys T) : Prop := ∃ a ∈ s.aborts, a ≠ .returned

/-- A loop began. -/
def Began : Ev T → Prop
  | .began _ => True
  | _ => False

/-! ## The waker that is to be woken -/

/-- A call of `abort` will take the latest waker, or has taken it and will wake it. -/
def Coming (s : Sys T) : Prop :=
  s.state.waker = some s.wakers ∧ .stored ∈ s.aborts ∨ .took (some s.wakers) ∈ s.aborts

theorem Coming.inFlight (h : Coming s) : InFlight s := by
  rcases h with ⟨-, hc⟩ | hc
  · exact ⟨_, hc, nofun⟩
  · exact ⟨_, hc, nofun⟩

/-- Where the latest waker of a runner is registered, except for the aborts. -/
def registered (pc : Pc T) : Bool :=
  pc matches .idle | .check | .poll | .polling | .recheck | .wait | .blocked | .resuming

/-- **Until an abort the latest waker is in the slot.** -/
structure Slot (s : Sys T) : Prop where
  none : s.state.cancelled = false → s.aborts = []
  slot : s.kind ≠ .blockOn → s.state.cancelled = false → registered s.pc → 0 < s.wakers →
    s.state.waker = some s.wakers

theorem Slot.goes (h : Slot s) {pc : Pc T} {woken : Bool}
    (hpc : registered pc → registered s.pc) : Slot { s with woken := woken, pc := pc } :=
  ⟨h.none, fun hk hc hr => h.slot hk hc (hpc hr)⟩

theorem Slot.wake (h : Slot s) {w : Waker} : Slot (s.wake w).1 := by
  refine ⟨?_, ?_⟩
  · rw [wake_state, wake_aborts]
    exact h.none
  · rw [wake_kind, wake_state, wake_wakers]
    refine fun hk hc hr => h.slot hk hc ?_
    rcases wake_pc (s := s) (w := w) with hp | ⟨hb, -⟩
    · rwa [hp] at hr
    · simp [hb, registered]

theorem Slot.cancelled (h : Slot s) {c : ℕ} {a : Abort} (hc : s.aborts[c]? = some a) :
    s.state.cancelled = true := by
  by_contra hf
  rw [h.none (Bool.eq_false_iff.mpr hf)] at hc
  cases hc

theorem slot_step (hm : Made s) (h : Slot s) (hs : step s op = some (s', es)) : Slot s' := by
  cases step_moved hs with
  | call hk hpc =>
    refine ⟨h.none, fun _ _ _ h0 => ?_⟩
    exact absurd h0 (Nat.not_lt.mpr (Nat.le_of_eq (hm.queued hpc)))
  | beginBlockOn hb => exact ⟨h.none, fun hk => absurd hb hk⟩
  | begin | beginLocal => exact ⟨h.none, fun _ _ => nofun⟩
  | register =>
    refine ⟨?_, fun _ _ _ _ => register_waker⟩
    rw [register_cancelled]
    exact h.none
  | check hpc | recheck hpc | poll hpc | skip hpc | resume hpc | block hpc | spurious hpc =>
    exact h.goes fun _ => by simp [hpc, registered]
  | pending hpc | ready hpc | panics hpc => exact h.goes fun _ => by simp [hpc, registered]
  | finish | clear | refinish | reclear => exact ⟨h.none, nofun⟩
  | wake => exact h.wake
  | abort => exact ⟨nofun, nofun⟩
  | take hc | giveNone hc | give hc =>
    have hcancelled := h.cancelled hc
    refine ⟨fun hf => ?_, fun _ hf => ?_⟩ <;> rw [hcancelled] at hf <;> cases hf
  | _ => exact h.goes nofun

theorem slot_run (h : Run step C (new k id) tr s) :
    Slot s := by
  refine (h.along (I := fun _ s => Made s) fun _ _ h => made_run h).inv (I := fun _ s => Slot s)
    ⟨fun _ => rfl, fun _ _ _ h0 => absurd h0 (Nat.lt_irrefl 0)⟩ ?_
  rintro _ s _ s' _ hI ⟨-, hm⟩ hs
  exact slot_step hm hI hs

theorem coming_step (h : Coming s) (hr : registered s.pc) (hs : step s op = some (s', es))
    (hw : s'.wakers = s.wakers) : Coming s' ∨ .woke s.wakers ∈ es := by
  cases step_moved hs with
  | beginBlockOn | begin | beginLocal => exact absurd hw (Nat.succ_ne_self _)
  | register hpc | clear hpc | reclear hpc => rw [hpc] at hr; cases hr
  | wake =>
    left
    unfold Coming
    rwa [wake_state, wake_wakers, wake_aborts]
  | abort =>
    left
    rcases h with ⟨hslot, hc⟩ | hc
    · exact .inl ⟨hslot, mem_append_left _ hc⟩
    · exact .inr (mem_append_left _ hc)
  | take hd =>
    left
    rcases h with ⟨hslot, -⟩ | hc
    · rw [hslot]
      exact .inr (mem_set_self hd)
    · exact .inr (mem_set_of_ne hd hc nofun)
  | giveNone hd =>
    left
    rcases h with ⟨hslot, hc⟩ | hc
    · exact .inl ⟨hslot, mem_set_of_ne hd hc nofun⟩
    · exact .inr (mem_set_of_ne hd hc nofun)
  | @give d w hd =>
    by_cases hwake : w = s.wakers
    · right
      rw [hwake]
      exact mem_cons_self
    · left
      unfold Coming
      rw [wake_wakers]
      rcases h with ⟨hslot, hc⟩ | hc
      · exact .inl ⟨hslot, mem_set_of_ne hd hc nofun⟩
      · refine .inr (mem_set_of_ne hd hc fun heq => hwake ?_)
        injection heq with heq
        injection heq with heq
        exact heq.symm
  | _ => exact .inl h

theorem coming_of_abort (h : Slot s) (hk : s.kind ≠ .blockOn) (hr : registered s.pc)
    (h0 : 0 < s.wakers) (hs : step s op = some (s', es)) (hc : s.state.cancelled = false)
    (hc' : s'.state.cancelled = true) : Coming s' := by
  have hslot := h.slot hk hc hr h0
  cases step_moved hs with
  | abort => exact .inl ⟨hslot, mem_append_right _ mem_cons_self⟩
  | register => rw [register_cancelled, hc] at hc'; cases hc'
  | wake => rw [wake_state, hc] at hc'; cases hc'
  | _ =>
    rw [hc] at hc'
    cases hc'

theorem coming_or_step {H : Prop} (h : Slot s) (hk : s.kind ≠ .blockOn) (hr : registered s.pc)
    (h0 : 0 < s.wakers) (hI : s.state.cancelled = true → Coming s ∨ H)
    (hs : step s op = some (s', es)) (hw : s'.wakers = s.wakers)
    (hc' : s'.state.cancelled = true) : Coming s' ∨ .woke s.wakers ∈ es ∨ H := by
  by_cases hc : s.state.cancelled = true
  · rcases hI hc with hcoming | hH
    · exact (coming_step hcoming hr hs hw).imp_right .inl
    · exact .inr (.inr hH)
  · exact .inl (coming_of_abort h hk hr h0 hs (Bool.eq_false_iff.mpr hc) hc')

/-! ## The loop of `poll_once` -/

/-- It waits for a wake-up. -/
def waiting (pc : Pc T) : Bool := pc matches .wait | .blocked

theorem waiting_step (hk : s.kind = .async) (hs : step s op = some (s', es))
    (hp : waiting s'.pc) (hc : s'.state.cancelled = true) :
    waiting s.pc ∧ s'.wakers = s.wakers ∧ (s.woken = true → s'.woken = true) := by
  cases step_moved hs with
  | ready | panics | skip | resume => rw [hk] at hp; cases hp
  | pending _ hp' => rw [hk] at hp'; cases hp'; cases hp
  | recheck _ hf => rw [hf] at hc; cases hc
  | block hpc => exact ⟨by rw [hpc]; rfl, rfl, id⟩
  | wake | give => exact ⟨wake_at hp rfl, wake_wakers, fun _ => wake_woken (.inr hk)⟩
  | abort | take | giveNone => exact ⟨hp, rfl, id⟩
  | _ => cases hp

theorem called_run (h : Run step Any (new .async id) tr s) :
    registered s.pc ∨ s.pc = .register → 0 < s.wakers := by
  refine (h.along (I := fun _ s => s.kind = .async ∧ Made s)
    fun _ _ h => ⟨kind_run h, made_run h⟩).inv
    (I := fun _ s => registered s.pc ∨ s.pc = .register → 0 < s.wakers)
    (by simp [new, registered]) ?_
  rintro _ s op s' es hI ⟨-, hk, hm⟩ hs
  cases step_moved hs with
  | call hb => rw [hk] at hb; cases hb
  | beginBlockOn | begin | beginLocal => exact fun _ => Nat.succ_pos _
  | register hpc => exact fun _ => hI (.inr hpc)
  | check hpc | recheck hpc | poll hpc | skip hpc | resume hpc | block hpc | spurious hpc
  | pending hpc | ready hpc | panics hpc => exact fun _ => hI (by simp [hpc, registered])
  | wake h0 hle =>
    rw [wake_wakers]
    exact fun _ => Nat.lt_of_lt_of_le h0 hle
  | give hc =>
    rw [wake_wakers]
    exact fun _ => Nat.lt_of_lt_of_le (hm.took _ _ hc).1 (hm.took _ _ hc).2
  | abort | take | giveNone => exact hI
  | _ => simp [registered]

/-- **A cancelled runner in `wait` has been woken, or the wake is to come.** -/
theorem waiting_run (h : Run step Any (new .async id) tr s) (hp : waiting s.pc)
    (hc : s.state.cancelled = true) : Coming s ∨ s.woken = true := by
  refine (h.along (I := fun _ s => s.kind = .async ∧ Made s ∧ Slot s ∧
      (registered s.pc ∨ s.pc = .register → 0 < s.wakers))
    fun _ _ h => ⟨kind_run h, made_run h, slot_run h, called_run h⟩).inv
    (I := fun _ s => waiting s.pc → s.state.cancelled = true → Coming s ∨ s.woken = true)
    nofun ?_ hp hc
  rintro _ s op s' es hI ⟨-, hk, hm, hslot, h0⟩ hs hp hc
  obtain ⟨hp₀, hw, hwoken⟩ := waiting_step hk hs hp hc
  have hne : s.kind ≠ .blockOn := by rw [hk]; nofun
  have hr : registered s.pc := by
    rcases hpc : s.pc <;> rw [hpc] at hp₀ <;> first | rfl | cases hp₀
  rcases coming_or_step hslot hne hr (h0 (.inl hr)) (hI hp₀) hs hw hc with hcoming | hwoke | hold
  · exact .inl hcoming
  · have hheard := heard_woke (.inr hk) hm hs hwoke trivial
    refine .inr (hheard.kept ?_)
    rcases hpc : s'.pc <;> rw [hpc] at hp <;> first | rfl | cases hp
  · exact .inr (hwoken hold)

/-! ## `LocalJoin` -/

/-- After the check of a poll, or between polls. -/
def pendingAt (pc : Pc T) : Bool := pc matches .poll | .polling | .idle

theorem pendingAt_step (hk : s.kind = .localJoin) (hs : step s op = some (s', es))
    (hp : pendingAt s'.pc) (hc : s'.state.cancelled = true) :
    pendingAt s.pc ∧ s'.wakers = s.wakers ∧ ∀ x ∈ es, ¬ Began x := by
  cases step_moved hs with
  | beginBlockOn hb => rw [hk] at hb; cases hb
  | ready | panics | skip | resume => rw [hk] at hp; cases hp
  | pending hpc | poll hpc => exact ⟨by rw [hpc]; rfl, rfl, by simp [Began]⟩
  | check _ hf => rw [hf] at hc; cases hc
  | wake | give => exact ⟨wake_at hp rfl, wake_wakers, by simp [Began]⟩
  | abort | take | giveNone => exact ⟨hp, rfl, by simp [Began]⟩
  | _ => cases hp

/-- **A cancelled local task that is pending has had its latest waker woken since its last poll
began, or the wake is to come.** -/
theorem pending_run (h : Run step Any (new .localJoin id) tr s) (hp : pendingAt s.pc)
    (h0 : 0 < s.wakers) (hc : s.state.cancelled = true) :
    Coming s ∨ Since (· = .woke s.wakers) Began tr := by
  refine (h.along (I := fun _ s => s.kind = .localJoin ∧ Slot s)
    fun _ _ h => ⟨kind_run h, slot_run h⟩).inv
    (I := fun tr s => pendingAt s.pc → 0 < s.wakers → s.state.cancelled = true →
      Coming s ∨ Since (· = .woke s.wakers) Began tr) nofun ?_ hp h0 hc
  rintro tr s op s' es hI ⟨-, hk, hslot⟩ hs hp h0 hc
  obtain ⟨hp₀, hw, hnew⟩ := pendingAt_step hk hs hp hc
  have hne : s.kind ≠ .blockOn := by rw [hk]; nofun
  have hr : registered s.pc := by
    rcases hpc : s.pc <;> rw [hpc] at hp₀ <;> first | rfl | cases hp₀
  rw [hw] at h0 ⊢
  rcases coming_or_step hslot hne hr h0 (hI hp₀ h0) hs hw hc with hcoming | hwoke | hold
  · exact .inl hcoming
  · exact .inr (since_of_mem hwoke rfl hnew)
  · exact .inr (hold.append hnew)

/-! ## After `is_cancelled` has said so -/

/-- How many steps of its own a runner that is ending is away from its end. -/
def left : Pc T → ℕ
  | .dropping .. => 4
  | .finish .. => 3
  | .clear .. => 2
  | .send .. => 1
  | _ => 0

/-- The task is over. -/
def isOver (pc : Pc T) : Bool := pc matches .refinish | .reclear | .done

/-- The result it is to send. -/
def outcome : Pc T → Option (Result T)
  | .dropping r _ | .finish r _ | .clear r _ | .send r _ => some r
  | _ => none

theorem outcome_isOver {pc : Pc T} (h : isOver pc) : outcome pc = none := by
  cases pc <;> first | rfl | cases h

/-- What an aborted task may end with. -/
def Fair (tr : List (Ev T)) (s : Sys T) (r : Result T) : Prop :=
  r = s.cancelled ∨ s.kind = .async ∧ .dropPanicked ∈ tr ∧ r = s.panicError

/-- **A runner that has seen that it is cancelled** is ending, or has ended, with such a result. -/
structure Ended (tr : List (Ev T)) (s : Sys T) : Prop where
  place : 0 < left s.pc ∨ isOver s.pc ∧ ∃ r, .sends r ∈ tr
  result : ∀ r, outcome s.pc = some r ∨ .sends r ∈ tr → Fair tr s r

theorem id_step (hs : step s op = some (s', es)) : s'.state.id = s.state.id := by
  cases step_moved hs <;> simp

theorem id_run (h : Run step C (new k id) tr s) :
    s.state.id = id := by
  refine h.inv (I := fun _ s => s.state.id = id) rfl ?_
  intro _ s _ s' _ hi _ hs
  rw [id_step hs, hi]

theorem isOver_step (ho : isOver s.pc) (hs : step s op = some (s', es)) :
    isOver s'.pc ∧ ∀ x ∈ es, ¬ Polled x ∧ ∀ r, x ≠ .sends r := by
  cases step_moved hs with
  | refinish | reclear => exact ⟨rfl, by simp [Polled]⟩
  | wake | give => exact ⟨wake_keeps ho rfl, by simp [Polled]⟩
  | abort | take | giveNone => exact ⟨ho, by simp [Polled]⟩
  | _ => simp_all [isOver]

theorem sent_run (h : Run step C (new k id) tr s)
    : .sends r ∈ tr → isOver s.pc := by
  refine h.inv (I := fun tr s => .sends r ∈ tr → isOver s.pc) nofun ?_
  rintro tr s op s' es hI - hs hr
  rcases mem_append.mp hr with hr | hr
  · exact (isOver_step (hI hr) hs).1
  · cases step_moved hs with
    | send | sendLocal => rfl
    | _ => simp at hr

theorem Fair.step (h : Fair tr s r) (hs : step s op = some (s', es)) :
    Fair (tr ++ es) s' r := by
  rcases h with rfl | ⟨hk, hd, rfl⟩
  · left
    rw [Sys.cancelled, Sys.cancelled, id_step hs]
  · right
    rw [kind_step hs, Sys.panicError, Sys.panicError, id_step hs]
    exact ⟨hk, mem_append_left _ hd, rfl⟩

theorem outcome_step (h0 : 0 < left s.pc) (hs : step s op = some (s', es))
    (hr : outcome s'.pc = some r ∨ .sends r ∈ es) :
    outcome s.pc = some r ∨ Fair (tr ++ es) s' r := by
  have hwake : ∀ w, outcome (s.wake w).1.pc = some r → outcome s.pc = some r := by
    intro w
    rcases wake_pc (s := s) (w := w) with hp | ⟨-, hp⟩ <;> rw [hp]
    · exact id
    · nofun
  cases step_moved hs with
  | drop hpc | finish hpc | clear hpc | send hpc | sendLocal hpc =>
    rw [hpc]
    left
    rcases hr with hr | hr
    all_goals simp_all [outcome]
  | dropPanics hk =>
    right
    simp only [outcome, some.injEq, mem_cons, reduceCtorEq, not_mem_nil,
      or_false] at hr
    exact .inr ⟨hk, by simp, hr.symm⟩
  | dropPanicsLocal =>
    right
    simp only [outcome, some.injEq, mem_cons, reduceCtorEq, not_mem_nil,
      or_false] at hr
    exact .inl hr.symm
  | wake | give =>
    simp only [mem_cons, reduceCtorEq, not_mem_nil, or_false] at hr
    exact .inl (hwake _ hr)
  | abort | take | giveNone =>
    simp only [mem_cons, reduceCtorEq, not_mem_nil, or_false] at hr
    exact .inl hr
  | _ => simp_all [left]

theorem left_step (h0 : 0 < left s.pc) (hs : step s op = some (s', es)) :
    (∀ y ∈ es, ¬ Polled y) ∧ ((isOver s'.pc ∧ ∃ r, .sends r ∈ es) ∨
      0 < left s'.pc ∧ left s'.pc + es.countP own ≤ left s.pc) := by
  have hwake : ∀ w, (s.wake w).1.pc = s.pc := by
    intro w
    rcases wake_pc (s := s) (w := w) with hp | ⟨hb, -⟩
    · exact hp
    · simp [hb, left] at h0
  cases step_moved hs with
  | drop hpc | dropPanics _ hpc | dropPanicsLocal _ hpc | finish hpc | clear hpc =>
    exact ⟨by simp [Polled], .inr ⟨by simp [left], by simp [hpc, left, own]⟩⟩
  | @send r hpc | @sendLocal r hpc => exact ⟨by simp [Polled], .inl ⟨rfl, r, by simp⟩⟩
  | wake | give =>
    rw [hwake]
    exact ⟨by simp [Polled], .inr ⟨h0, by simp [own]⟩⟩
  | abort | take | giveNone => exact ⟨by simp [Polled], .inr ⟨h0, by simp [own]⟩⟩
  | _ => simp_all [left]

/-- **An ending runner only goes on to its end**, with the result it has, or that of a drop that
panics. -/
theorem ended_step (h : Ended tr s) (hs : step s op = some (s', es)) : Ended (tr ++ es) s' := by
  rcases h.place with h0 | ⟨hd, r₀, hr₀⟩
  · refine ⟨?_, fun r hr => ?_⟩
    · rcases (left_step h0 hs).2 with ⟨hd, r, hr⟩ | ⟨h0', -⟩
      · exact .inr ⟨hd, r, mem_append_right _ hr⟩
      · exact .inl h0'
    · rcases hr with hr | hr
      · rcases outcome_step h0 hs (.inl hr) with hr | hr
        · exact (h.result r (.inl hr)).step hs
        · exact hr
      · rcases mem_append.mp hr with hr | hr
        · exact (h.result r (.inr hr)).step hs
        · rcases outcome_step h0 hs (.inr hr) with hr | hr
          · exact (h.result r (.inl hr)).step hs
          · exact hr
  · obtain ⟨hd', hnew⟩ := isOver_step hd hs
    refine ⟨.inr ⟨hd', r₀, mem_append_left _ hr₀⟩, fun r hr => ?_⟩
    rcases hr with hr | hr
    · rw [outcome_isOver hd'] at hr
      cases hr
    · rcases mem_append.mp hr with hr | hr
      · exact (h.result r (.inr hr)).step hs
      · exact absurd rfl ((hnew _ hr).2 r)

theorem ended_run (h : Run step Any (new k id) tr s) : .checked true ∈ tr → Ended tr s := by
  refine (h.along (I := fun tr s => ∀ r, .sends r ∈ tr → isOver s.pc)
    fun _ _ h _ => sent_run h).inv (I := fun tr s => .checked true ∈ tr → Ended tr s) nofun ?_
  rintro tr s op s' es hI ⟨-, hsent⟩ hs hc
  rcases mem_append.mp hc with hc | hc
  · exact ended_step (hI hc) hs
  · cases step_moved hs with
    | observe hpc | reobserve hpc =>
      refine ⟨.inl (by simp [left]), fun r hr => ?_⟩
      rcases hr with hr | hr
      · exact .inl (some.inj hr).symm
      · have hd : isOver s.pc := by
          refine hsent r ?_
          simpa using hr
        rw [hpc] at hd
        cases hd
    | _ => simp at hc

theorem polled_bars (h : Run step Any (new k id) tr s) : Bars (· = .checked true) Polled tr := by
  have hrun := h.along (I := fun tr s => .checked true ∈ tr → Ended tr s) fun _ _ h => ended_run h
  refine (hrun.bars (K := fun _ => True) ?_ ?_).2
  · rintro _ s op s' es _ - hs hx rfl
    refine ⟨trivial, ?_⟩
    cases step_moved hs with
    | observe | reobserve => simp [Polled]
    | _ => simp at hx
  · rintro tr s op s' es ⟨-, hended⟩ hs ⟨x, hx, rfl⟩ -
    refine ⟨trivial, ?_⟩
    rcases (hended hx).place with h0 | ⟨hd, -⟩
    · exact (left_step h0 hs).1
    · exact fun y hy => ((isOver_step hd hs).2 y hy).1

theorem ending_goes (hm : Made s) (h0 : 0 < left s.pc) : CanGo s := by
  by_cases hl : s.state.lock = none
  · by_cases hd : ∃ r u, s.pc = .dropping r u
    · obtain ⟨r, u, hd⟩ := hd
      exact .inl ⟨.drops, _, by simp only [step, Sys.drops, hd]; rfl, rfl⟩
    · refine advance_goes ?_
      unfold Sys.advance
      split <;> (try split_ifs) <;> simp_all [left]
  · exact .inr (locked_goes hm hl)

/-- Its own steps bring the runner to the end. -/
theorem left_run (h0 : 0 < left s.pc) (h : Run step Any s es s') :
    (∃ x ∈ es, ∃ r, x = .sends r) ∨ 0 < left s'.pc ∧ left s'.pc + es.countP own ≤ left s.pc := by
  refine h.rank (K := fun s => 0 < left s.pc) (m := fun s => left s.pc) h0 ?_
  rintro _ s _ s' es h0 - hs
  refine (left_step h0 hs).2.imp_left ?_
  rintro ⟨-, r, hr⟩
  exact ⟨_, hr, r, rfl⟩

theorem left_le (pc : Pc T) : left pc ≤ 4 := by
  cases pc <;> simp [left]

/-! ## The result -/

/-- **No abort is lost.**  A task runner is asleep and cancelled only while a call of `abort` is
under way, and a cancelled local task that is pending has had its latest waker woken since its last
poll began, or a call of `abort` is under way.  Once a runner has seen that it is cancelled, the
future is not polled again, and within four steps of its own, which it can take, the task ends:
with the cancelled error, or, if the drop of the future of a spawned task panicked, with a panic
error. -/
theorem no_abort_lost (h : Run step Any (new k id) tr s) :
    (k = .async → s.pc = .blocked → s.state.cancelled = true → InFlight s) ∧
      (k = .localJoin → s.pc = .idle → 0 < s.wakers → s.state.cancelled = true →
        InFlight s ∨ Since (· = .woke s.wakers) Began tr) ∧
      Bars (· = .checked true) Polled tr ∧
      (.checked true ∈ tr →
        (∀ r, .sends r ∈ tr → r = .error ⟨id, .cancelled⟩ ∨
          k = .async ∧ .dropPanicked ∈ tr ∧ r = .error ⟨id, .panic⟩) ∧
        ∀ es s', Run step Any s es s' →
          (∃ r, .sends r ∈ tr ++ es) ∨ es.countP own < 4 ∧ CanGo s') := by
  refine ⟨?_, ?_, polled_bars h, fun hc => ⟨fun r hr => ?_, fun es s' h' => ?_⟩⟩
  · rintro rfl hb hc
    rcases waiting_run h (by rw [hb]; rfl) hc with hcoming | hwoken
    · exact hcoming.inFlight
    · rw [blocked_run h hb] at hwoken
      cases hwoken
  · rintro rfl hi h0 hc
    exact (pending_run h (by rw [hi]; rfl) h0 hc).imp_left Coming.inFlight
  · have hfair := (ended_run h hc).result r (.inr hr)
    rw [Fair, Sys.cancelled, Sys.panicError, id_run h, kind_run h] at hfair
    exact hfair
  · rcases (ended_run h hc).place with h0 | ⟨-, r, hr⟩
    · rcases left_run h0 h' with ⟨_, hr, r, rfl⟩ | ⟨h0', hle⟩
      · exact .inl ⟨r, mem_append_right _ hr⟩
      · have h4 := left_le s.pc
        exact .inr ⟨by omega, ending_goes (made_run (h.trans h')) h0'⟩
    · exact .inl ⟨r, mem_append_left _ hr⟩

/-- An abort that finds the runner asleep. -/
theorem no_abort_lost_asleep : ∃ (s : Sys ℕ) (tr : List (Ev ℕ)),
    Run step Any (new .async 1) tr s ∧ s.pc = .blocked ∧ s.state.cancelled = true ∧ InFlight s := by
  have hrun : Run step Any (new .async 1 : Sys ℕ)
      [.began 1, .registered 1, .checked false, .polled, .pended, .checked false, .blocked,
        .aborted]
      { kind := .async, state := ⟨true, false, some 1, none, 1⟩, woken := false, wakers := 1
        pc := .blocked, aborts := [.stored] } :=
    run_exec [.start, .advance, .advance, .advance, .pending, .advance, .advance, .abort] rfl
  exact ⟨_, _, hrun, rfl, rfl, (no_abort_lost hrun).1 rfl rfl rfl⟩

/-- A spawned task that is aborted before it is called, and whose future panics when it is
dropped. -/
theorem aborted_with_panic : ∃ (s : Sys ℕ) (tr : List (Ev ℕ)),
    Run step Any (new .async 1) tr s ∧ .checked true ∈ tr ∧ s.pc = .done ∧
      .sends (.error ⟨1, .panic⟩) ∈ tr ∧ .sends (.error ⟨1, .cancelled⟩) ∉ tr := by
  have hrun : Run step Any (new .async 1 : Sys ℕ)
      [.aborted, .began 1, .registered 1, .checked true, .dropPanicked, .finished true, .cleared,
        .sends (.error ⟨1, .panic⟩)]
      { kind := .async, state := ⟨true, true, none, none, 1⟩, woken := false, wakers := 1
        pc := .done, aborts := [.stored] } :=
    run_exec [.abort, .start, .advance, .advance, .dropPanics, .advance, .advance, .advance] rfl
  exact ⟨_, _, hrun, by simp, rfl, by simp, by simp⟩

end OhosFfrt.Task.Aborts
