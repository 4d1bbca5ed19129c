import OhosFfrt.Lib.Arena
import OhosFfrt.Lib.Traces
import OhosFfrt.Reactor.Moves

/-!
# `reactor`: readiness is not lost

A task that was told `Pending` stays in the lists for its interest until a call of `wake_ready`
takes it; readiness that concerns it and is cached after that has such a call behind it (`Waits`),
so it is not lost (`readiness_not_lost`).
-/

namespace OhosFfrt.Reactor.Readiness

open Basic Lib.Mask Lib.Runs Reactor.State List
open Reactor.System Reactor.Moves
open Lib.Arena (exists_set mem_set_of_ne mem_set_self)

variable {io io' : ScheduledIo} {ctl : Ctl} {s s' s₀ : Sys} {op : Op} {es tr : List Ev} {w : Waker}
  {i interest : Interest} {r : Mask} {k : ℕ} {ws : List Waker}

/-! ## What is armed -/

/-- What the code takes to be armed is armed in the loop. -/
def Armed (io : ScheduledIo) : Prop :=
  io.events ≠ 0 → io.armed = some (io.events ||| errorEvents)

/-- **What is armed is what the cached readiness asks for.** -/
structure InStep (io : ScheduledIo) : Prop where
  armed : Armed io
  events : io.events = io.desired

theorem updateInterest_spec (io : ScheduledIo) (ctl : Ctl) :
    ∃ events armed, (io.updateInterest ctl).1 = { io with events := events, armed := armed } ∧
      (Armed io → Armed { io with events := events, armed := armed }) ∧
      events = if (io.updateInterest ctl).2 then io.desired else 0 := by
  unfold ScheduledIo.updateInterest
  by_cases heq : io.desired = io.events
  · rw [if_pos heq]
    exact ⟨io.events, io.armed, rfl, fun h => h, heq.symm⟩
  · rw [if_neg heq]
    by_cases hdel : io.events ≠ 0 ∧ ctl.del = false
    · rw [if_pos hdel]
      exact ⟨0, _, rfl, fun _ h0 => absurd rfl h0, rfl⟩
    · rw [if_neg hdel]
      -- nothing is armed here, whether or not something had to be removed
      have hoff : ∃ armed, (if io.events ≠ 0 then io.disarm true else io) =
          { io with events := 0, armed := armed } := by
        by_cases h0 : io.events = 0
        · refine ⟨io.armed, ?_⟩
          rw [if_neg (not_not.mpr h0), ← h0]
        · refine ⟨none, ?_⟩
          rw [if_pos h0]
          rfl
      obtain ⟨armed, hoff⟩ := hoff
      simp only [hoff]
      by_cases hdes : io.desired = 0
      · rw [if_pos hdes]
        exact ⟨0, armed, rfl, fun _ h0 => absurd rfl h0, hdes.symm⟩
      · rw [if_neg hdes]
        by_cases hadd : ctl.add = true
        · rw [if_pos hadd]
          exact ⟨io.desired, _, rfl, fun _ _ => rfl, rfl⟩
        · rw [if_neg hadd]
          exact ⟨0, armed, rfl, fun _ h0 => absurd rfl h0, rfl⟩

theorem desired_recordError (io : ScheduledIo) : io.recordError.desired = 0 := by
  have hmeets : Meets io.recordError.ready errorEvents := by
    unfold ScheduledIo.recordError
    rw [ready_store, meets_iff]
    refine ⟨3, ?_, by decide⟩
    rw [BitVec.getLsbD_or, Bool.or_eq_true]
    exact .inr (by decide)
  unfold ScheduledIo.desired
  rw [if_pos hmeets]

theorem updateOrRecord_spec (h : Armed io) (ctl : Ctl) :
    InStep (io.updateOrRecord ctl).1 ∧
    (io.updateOrRecord ctl).1.interest = io.interest ∧
    (io.updateOrRecord ctl).1.waiters = io.waiters ∧
    ((io.updateOrRecord ctl).2 = true → (io.updateOrRecord ctl).1.ready = io.ready) := by
  obtain ⟨events, armed, heq, harm, hev⟩ := updateInterest_spec io ctl
  unfold ScheduledIo.updateOrRecord
  simp only [heq]
  split_ifs at hev ⊢ with hok
  · exact ⟨⟨harm h, hev⟩, rfl, rfl, fun _ => rfl⟩
  · refine ⟨⟨harm h, ?_⟩, rfl, rfl, nofun⟩
    rw [desired_recordError]
    exact hev

/-- **A registered descriptor is in step.** -/
def Good (interest : Interest) (io : ScheduledIo) : Prop :=
  io.interest = interest ∧ (io.registered = true → InStep io)

theorem good_new {fd : Int} (h : new fd interest ctl = some s₀) :
    Good interest s₀.io ∧ s₀.wakes = [] := by
  unfold new register at h
  split_ifs at h with hfd
  · cases h
  · obtain ⟨events, armed, heq, harm, hev⟩ :=
      updateInterest_spec ⟨interest, 0, true, 0, ⟨[], []⟩, none⟩ ctl
    simp only [Option.map_eq_some_iff, Option.ite_none_right_eq_some, Option.some.injEq] at h
    obtain ⟨io, ⟨hok, rfl⟩, rfl⟩ := h
    rw [if_pos hok] at hev
    rw [heq]
    exact ⟨⟨rfl, fun _ => ⟨harm fun h0 => absurd rfl h0, hev⟩⟩, rfl⟩

theorem callback_spec {events : Mask} (h : Good interest io)
    (hs : io.callback events ctl = some io') :
    Good interest io' ∧ io'.waiters = io.waiters := by
  unfold ScheduledIo.callback at hs
  split_ifs at hs with hreg
  have hin := h.2 (by simpa using hreg)
  cases hs
  have harm : Armed (io.store (io.generation + 1) (io.ready ||| events)) := hin.armed
  obtain ⟨h1, h2, h3, -⟩ := updateOrRecord_spec harm ctl
  exact ⟨⟨h2.trans h.1, fun _ => h1⟩, h3⟩

theorem clearReady_spec {generation : BitVec 32} (h : Good interest io) :
    Good interest (io.clearReady r generation ctl).1 ∧
    (io.clearReady r generation ctl).1.waiters = io.waiters ∧
    ((io.clearReady r generation ctl).2 = true →
      (io.clearReady r generation ctl).1.matches i → io.matches i) := by
  unfold ScheduledIo.clearReady
  by_cases hreg : io.registered = true
  · rw [if_neg (by simp [hreg])]
    by_cases hgen : io.generation = generation
    · rw [if_neg (not_not.mpr hgen)]
      have harm : Armed (io.store generation (io.ready &&& ~~~r)) := (h.2 hreg).armed
      obtain ⟨h1, h2, h3, h4⟩ := updateOrRecord_spec harm ctl
      refine ⟨⟨h2.trans h.1, fun _ => h1⟩, h3, fun hok hm => ?_⟩
      unfold ScheduledIo.matches at hm ⊢
      rw [h4 hok, ready_store] at hm
      exact hm.of_removed
    · rw [if_pos hgen]
      exact ⟨h, rfl, fun _ hm => hm⟩
  · rw [if_pos (by simp [hreg])]
    exact ⟨h, rfl, fun _ hm => hm⟩

theorem deregister_spec {del : Bool} (h : Good interest io) :
    Good interest (io.deregister del) ∧ (io.deregister del).waiters = io.waiters ∧
    (io.deregister del).ready = io.ready := by
  unfold ScheduledIo.deregister
  split_ifs with hreg hev
  · exact ⟨h, rfl, rfl⟩
  · exact ⟨⟨h.1, nofun⟩, rfl, rfl⟩
  · exact ⟨⟨h.1, nofun⟩, rfl, rfl⟩

theorem good_step (h : Good interest s.io) (hs : step s op = some (s', es)) :
    Good interest s'.io := by
  have hwaiters : ∀ ws, Good interest { s.io with waiters := ws } := fun _ =>
    ⟨h.1, fun hr => ⟨(h.2 hr).armed, (h.2 hr).events⟩⟩
  cases step_moved hs with
  | ready | stale | load | wake => exact h
  | pending | take => exact hwaiters _
  | callback hc => exact (callback_spec h hc).1
  | clear | clearFailed => exact (clearReady_spec (i := interest) h).1
  | deregister => exact (deregister_spec h).1

theorem good_run {fd : Int} {C : List Ev → Sys → Op → Prop}
    (h0 : new fd interest ctl = some s₀) (h : Run step C s₀ tr s) : Good interest s.io :=
  h.inv (good_new h0).1
    fun _ _ _ _ _ hI _ hs => good_step hI hs

/-! ## Waiting tasks -/

/-- The waker is in the lists for the interest. -/
structure Listed (io : ScheduledIo) (w : Waker) (i : Interest) : Prop where
  reader : Meets i.bits (epollIn ||| epollPri ||| epollErr) → w ∈ io.waiters.readers
  writer : Meets i.bits epollOut → w ∈ io.waiters.writers

theorem mem_register (ws : List Waker) (w : Waker) : w ∈ Waiters.register ws w := by
  unfold Waiters.register
  split_ifs with h
  · exact h
  · exact mem_append_right _ (mem_singleton_self _)

theorem mem_register_of_mem {w' : Waker} (h : w ∈ ws) :
    w ∈ Waiters.register ws w' := by
  unfold Waiters.register
  split_ifs
  · exact h
  · exact mem_append_left _ h

theorem listed_join (io : ScheduledIo) (w : Waker) (i : Interest) :
    Listed { io with waiters := io.waiters.join w i } w i := by
  refine ⟨fun hm => ?_, fun hm => ?_⟩
  · rw [meets_or, meets_or, or_assoc] at hm
    simp only [Waiters.join, if_pos hm]
    exact mem_register _ w
  · simp only [Waiters.join, if_pos hm]
    exact mem_register _ w

theorem Listed.join (h : Listed io w i) (w' : Waker) (i' : Interest) :
    Listed { io with waiters := io.waiters.join w' i' } w i := by
  refine ⟨fun hm => ?_, fun hm => ?_⟩
  · simp only [Waiters.join]
    split_ifs
    · exact mem_register_of_mem (h.reader hm)
    · exact h.reader hm
  · simp only [Waiters.join]
    split_ifs
    · exact mem_register_of_mem (h.writer hm)
    · exact h.writer hm

/-- **A call of `wake_ready` takes every task that its readiness concerns.** -/
theorem mem_takeReady (h : Listed io w i) (hr : Meets r (i.bits ||| errorEvents)) :
    w ∈ (io.takeReady r).1 := by
  have hreader : Meets r readerEvents → w ∈ io.waiters.readers → w ∈ (io.takeReady r).1 := by
    intro hm hw
    simp only [ScheduledIo.takeReady, if_pos hm]
    exact mem_append_left _ hw
  have hwriter : Meets r writerEvents → w ∈ io.waiters.writers → w ∈ (io.takeReady r).1 := by
    intro hm hw
    simp only [ScheduledIo.takeReady, if_pos hm]
    exact mem_append_right _ hw
  rcases meets_or.mp hr with hr | hr
  · obtain ⟨j, hrj, hij⟩ := meets_iff.mp hr
    have hknown := within_iff.mp i.known j hij
    rw [BitVec.getLsbD_or, Bool.or_eq_true] at hknown
    rcases hknown with hin | hout
    · have hsub : Within (epollIn ||| epollPri ||| epollErr) readerEvents := by decide
      exact hreader ((meets_iff.mpr ⟨j, hrj, hin⟩).mono hsub)
        (h.reader (meets_iff.mpr ⟨j, hij, hin⟩))
    · have hsub : Within epollOut writerEvents := by decide
      exact hwriter ((meets_iff.mpr ⟨j, hrj, hout⟩).mono hsub)
        (h.writer (meets_iff.mpr ⟨j, hij, hout⟩))
  · -- an error concerns everybody, and an interest is in one of the lists at least
    have hsome : Meets i.bits (epollIn ||| epollPri ||| epollErr ||| epollOut) := by
      unfold Meets
      rw [i.known]
      exact i.nonempty
    rcases meets_or.mp hsome with hin | hout
    · exact hreader (hr.mono (by decide)) (h.reader hin)
    · exact hwriter (hr.mono (by decide)) (h.writer hout)

theorem Listed.take (h : Listed io w i) (hno : w ∉ (io.takeReady r).1) :
    Listed (io.takeReady r).2 w i := by
  simp only [ScheduledIo.takeReady, mem_append, not_or] at hno
  refine ⟨fun hm => ?_, fun hm => ?_⟩
  · have hw := h.reader hm
    have hr : ¬ Meets r readerEvents := fun hr => hno.1 (by rw [if_pos hr]; exact hw)
    simp only [ScheduledIo.takeReady, if_neg hr]
    exact hw
  · have hw := h.writer hm
    have hr : ¬ Meets r writerEvents := fun hr => hno.2 (by rw [if_pos hr]; exact hw)
    simp only [ScheduledIo.takeReady, if_neg hr]
    exact hw

/-- A call of `wake_ready` that will find readiness for the interest. -/
def Due (i : Interest) (p : Wake) : Prop :=
  p = .start ∨ ∃ r, p = .loaded r ∧ Meets r (i.bits ||| errorEvents)

/-- **The task waits**: it is about to be woken, or it is listed and readiness that concerns it will
be found by a call of `wake_ready`. -/
inductive Waits (s : Sys) (w : Waker) (i : Interest) : Prop
  | taken {ws : List Waker} (hp : .waking ws ∈ s.wakes) (hw : w ∈ ws)
  | listed (hl : Listed s.io w i) (hdue : s.io.matches i → ∃ p ∈ s.wakes, Due i p)

theorem Waits.keep (h : Waits s w i) (hl : Listed s.io w i → Listed s'.io w i)
    (hsub : s.wakes ⊆ s'.wakes)
    (hm : .start ∈ s'.wakes ∨ (s'.io.matches i → s.io.matches i)) : Waits s' w i := by
  rcases h with ⟨hp, hw⟩ | ⟨hlist, hdue⟩
  · exact .taken (hsub hp) hw
  · refine .listed (hl hlist) fun hmatch => ?_
    rcases hm with hstart | hm
    · exact ⟨.start, hstart, .inl rfl⟩
    · obtain ⟨p, hp, hd⟩ := hdue (hm hmatch)
      exact ⟨p, hsub hp, hd⟩

theorem waits_load (h : Waits s w i) (hk : s.wakes[k]? = some .start) :
    Waits ⟨s.io, s.wakes.set k (.loaded s.io.ready)⟩ w i := by
  rcases h with ⟨hp, hw⟩ | ⟨hlist, hdue⟩
  · exact .taken (mem_set_of_ne hk hp (by simp)) hw
  · refine .listed hlist fun hm => ?_
    -- this call has just loaded what concerns the task
    exact ⟨_, mem_set_self hk, .inr ⟨_, rfl, hm⟩⟩

theorem waits_take (h : Waits s w i) (hk : s.wakes[k]? = some (.loaded r)) :
    Waits ⟨(s.io.takeReady r).2, s.wakes.set k (.waking (s.io.takeReady r).1)⟩ w i := by
  rcases h with ⟨hp, hw⟩ | ⟨hlist, hdue⟩
  · exact .taken (mem_set_of_ne hk hp (by simp)) hw
  · by_cases hw : w ∈ (s.io.takeReady r).1
    · exact .taken (mem_set_self hk) hw
    · refine .listed (hlist.take hw) fun hm => ?_
      refine (exists_set (hdue hm) hk _).resolve_right ?_
      rintro (hd | ⟨r', hd, hr'⟩) <;> cases hd
      exact hw (mem_takeReady hlist hr')

theorem waits_wake {w' : Waker} (h : Waits s w i) (hne : w' ≠ w)
    (hk : s.wakes[k]? = some (.waking (w' :: ws))) :
    Waits ⟨s.io, s.wakes.set k (.waking ws)⟩ w i := by
  rcases h with @⟨ws', hp, hw⟩ | ⟨hlist, hdue⟩
  · by_cases heq : ws' = w' :: ws
    · subst heq
      exact .taken (mem_set_self hk) ((mem_cons.mp hw).resolve_left hne.symm)
    · exact .taken (mem_set_of_ne hk hp (by simpa using heq)) hw
  · refine .listed hlist fun hm => ?_
    refine (exists_set (hdue hm) hk _).resolve_right ?_
    rintro (hd | ⟨r', hd, -⟩) <;> cases hd

theorem waits_step (hg : Good interest s.io) (h : Waits s w i)
    (hs : step s op = some (s', es)) (hw : ∀ y ∈ es, y ≠ .woke w) : Waits s' w i := by
  have hlist : ∀ {io' : ScheduledIo}, io'.waiters = s.io.waiters → Listed s.io w i →
      Listed io' w i := by
    intro io' heq hl
    exact ⟨fun hm => heq ▸ hl.reader hm, fun hm => heq ▸ hl.writer hm⟩
  have hstart : .start ∈ s.wakes ++ [.start] :=
    mem_append_right _ (mem_singleton_self _)
  cases step_moved hs with
  | ready | stale => exact h
  | pending => exact h.keep (fun hl => hl.join _ _) (fun _ hx => hx) (.inr fun hm => hm)
  | callback hc =>
    exact h.keep (hlist (callback_spec hg hc).2) (subset_append_left _ _) (.inl hstart)
  | clear hok =>
    obtain ⟨-, h1, h2⟩ := clearReady_spec (i := i) hg
    exact h.keep (hlist h1) (fun _ hx => hx) (.inr (h2 hok))
  | clearFailed =>
    obtain ⟨-, h1, -⟩ := clearReady_spec (i := i) hg
    exact h.keep (hlist h1) (subset_append_left _ _) (.inl hstart)
  | deregister =>
    obtain ⟨-, h1, h2⟩ := deregister_spec hg
    refine h.keep (hlist h1) (fun _ hx => hx) (.inr fun hm => ?_)
    unfold ScheduledIo.matches at hm ⊢
    rw [h2] at hm
    exact hm
  | load hk => exact waits_load h hk
  | take hk => exact waits_take h hk
  | wake hk =>
    refine waits_wake h ?_ hk
    rintro rfl
    exact hw _ (mem_singleton_self _) rfl

theorem waits_of_pending (hs : step s op = some (s', es)) (hx : .pending w i ∈ es) :
    Waits s' w i := by
  cases step_moved hs with
  | pending hm =>
    cases mem_singleton.mp hx
    exact .listed (listed_join s.io w i) fun hm' => absurd hm' hm
  | _ => simp at hx

/-- **Readiness is not lost.**  As long as a task that was told `Pending` for a part of the
registered interest has not been woken and the descriptor is registered, either readiness or an
error that concerns it is cached and a call of `wake_ready` that takes its waker is under way, or
none is cached and its interest is armed in the loop.  So if the descriptor is ready for it, it is
about to be woken or armed for this. -/
theorem readiness_not_lost {fd : Int} {interest : Interest}
    (h0 : new fd interest ctl = some s₀) (h : Run step Any s₀ tr s)
    (hreg : s.io.registered = true) (hi : Within i.bits interest.bits)
    (hsince : Since (· = .pending w i) (· = .woke w) tr) :
    ((s.io.matches i ∧ ∃ p ∈ s.wakes, w ∈ p.taking s.io) ∨
      (¬ s.io.matches i ∧ ∃ m, s.io.armed = some m ∧ Within i.bits m)) ∧
    ∀ level, Meets level i.bits →
      (∃ p ∈ s.wakes, w ∈ p.taking s.io) ∨ ∃ m, s.io.armed = some m ∧ Meets level m := by
  have hgood := good_run h0 h
  have hin := hgood.2 hreg
  have hal := h.along fun _ _ => good_run h0
  have hwaits : Waits s w i := by
    refine hal.since (K := fun s => Waits s w i) ?_ ?_ hsince
    · rintro tr s op s' es x - hs hx rfl
      exact waits_of_pending hs hx
    · rintro tr s op s' es ⟨-, hg⟩ hs hK hw
      exact waits_step hg hK hs hw
  have hmain : (s.io.matches i ∧ ∃ p ∈ s.wakes, w ∈ p.taking s.io) ∨
      (¬ s.io.matches i ∧ ∃ m, s.io.armed = some m ∧ Within i.bits m) := by
    by_cases hm : s.io.matches i
    · refine .inl ⟨hm, ?_⟩
      rcases hwaits with ⟨hp, hw⟩ | ⟨hlist, hdue⟩
      · exact ⟨_, hp, hw⟩
      · obtain ⟨p, hp, rfl | ⟨r, rfl, hr⟩⟩ := hdue hm
        · exact ⟨_, hp, mem_takeReady hlist hm⟩
        · exact ⟨_, hp, mem_takeReady hlist hr⟩
    · refine .inr ⟨hm, ?_⟩
      unfold ScheduledIo.matches at hm
      rw [meets_or, not_or] at hm
      have hev : Within i.bits s.io.events := by
        rw [hin.events]
        unfold ScheduledIo.desired
        rw [if_neg hm.2, hgood.1]
        exact hi.removed hm.1
      have hne : s.io.events ≠ 0 := by
        intro h0
        rw [h0] at hev
        exact i.nonempty (hev.symm.trans BitVec.and_zero)
      exact ⟨_, hin.armed hne, hev.or _⟩
  refine ⟨hmain, fun level hl => ?_⟩
  rcases hmain with ⟨-, hp⟩ | ⟨-, m, hm, hwithin⟩
  · exact .inl hp
  · exact .inr ⟨m, hm, hl.mono hwithin⟩

/-- The descriptor is found to be writable; a reader waits, and the descriptor stays armed for it.
-/
theorem readiness_not_lost_reader : ∃ s₀ s tr,
    new 3 (Interest.readable.add .writable) ⟨true, true⟩ = some s₀ ∧
    exec step s₀ [.callback epollOut ⟨true, true⟩, .load 0, .take 0, .pollReady 7 .readable] =
      some (s, tr) ∧
    tr = [.pending 7 .readable] ∧ s.io.ready = epollOut ∧
    ∃ m, s.io.armed = some m ∧ Within epollIn m := by
  refine ⟨_, _, _, rfl, rfl, rfl, rfl, ?_⟩
  have h0 : new 3 (Interest.readable.add .writable) ⟨true, true⟩ = some _ := rfl
  have h := (readiness_not_lost h0 (run_exec [.callback epollOut ⟨true, true⟩, .load 0, .take 0,
    .pollReady 7 .readable] rfl) rfl (by decide)
    ⟨[], .pending 7 .readable, [], rfl, rfl, by simp⟩).1
  rcases h with ⟨hm, -⟩ | ⟨-, h⟩
  · exact absurd hm (by decide)
  · exact h

end OhosFfrt.Reactor.Readiness
