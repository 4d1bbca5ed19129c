import OhosFfrt.Task.Aborts
import OhosFfrt.Task.Handle

/-!
# `runtime` and `task`: joining a task that is finished

Every runner calls `finish` and then sends its outcome.  Between the two `is_finished` returns
`true` and the `JoinHandle` is pending, and the send wakes it (`finished_joinable`).
-/

namespace OhosFfrt.Task.Joins

open Basic Lib.Runs Task.Handle List Option
open Oneshot.Shared (Inner Receiver send dropSender dropReceiver)
open Task.Runner (Result Kind Pc)
open Task.Aborts (isOver left)
open Task.Wakes (own CanGo)

variable {T : Type*} {t t' : Sys T} {op : Op T} {tr es : List (Ev T)} {k : Kind} {id : ℕ}
  {r : Result T} {i : Inner (Result T)} {s s' : Runner.Sys T} {rop : Runner.Op T}
  {res : List (Runner.Ev T)}

/-! ## The outcome of a runner -/

/-- The channel notices. -/
def loud : Runner.Ev T → Bool
  | .sends _ | .senderDropped => true
  | _ => false

/-- The runner has set `finished`, and its outcome `r` is not sent. -/
def Between (pc : Pc T) (r : Result T) : Prop := ∃ last, pc = .clear r last ∨ pc = .send r last

/-- A step that does not touch the channel. -/
structure Quiet (s s' : Runner.Sys T) (res : List (Runner.Ev T)) : Prop where
  loud : ∀ x ∈ res, loud x = false
  isOver : isOver s'.pc = isOver s.pc
  gone : s.pc = .gone → s'.pc = .gone

theorem wake_quiet {w : Waker} : isOver (s.wake w).1.pc = isOver s.pc ∧
    (s.pc = .gone → (s.wake w).1.pc = .gone) := by
  rcases Moves.wake_pc (s := s) (w := w) with hp | ⟨hb, hp⟩
  · rw [hp]
    exact ⟨rfl, fun h => h⟩
  · rw [hp, hb]
    exact ⟨rfl, nofun⟩

theorem loud_cases (h : Runner.step s rop = some (s', res)) :
    (∃ r last, s.pc = .send r last ∧ res = [.sends r] ∧ isOver s'.pc = true) ∨
      (∃ x, loud x = false ∧ res = [x, .senderDropped] ∧ s'.pc = .gone ∧ isOver s.pc = false) ∨
      Quiet s s' res := by
  cases Moves.step_moved h with
  | send hpc | sendLocal hpc => exact .inl ⟨_, _, hpc, rfl, rfl⟩
  | discard _ hpc | dropPanicsTorn _ hpc =>
    exact .inr (.inl ⟨_, rfl, rfl, rfl, by rw [hpc]; rfl⟩)
  | wake | give => exact .inr (.inr ⟨by simp [loud], wake_quiet.1, wake_quiet.2⟩)
  | ready hpc | panics hpc =>
    refine .inr (.inr ⟨by simp [loud], ?_, by simp [hpc]⟩)
    rcases hk : s.kind <;> simp [hpc, Runner.Kind.leave, isOver]
  | pending hpc hp =>
    refine .inr (.inr ⟨by simp [loud], ?_, by simp [hpc]⟩)
    rcases hk : s.kind <;> rw [hk] at hp <;> cases hp <;> simp [hpc, isOver]
  | skip hpc | resume hpc =>
    refine .inr (.inr ⟨by simp [loud], ?_, by simp [hpc]⟩)
    rcases hk : s.kind <;> simp [hpc, Runner.Kind.again, isOver]
  | abort | take | giveNone => exact .inr (.inr ⟨by simp [loud], rfl, fun h => h⟩)
  | refinish hpc | reclear hpc =>
    exact .inr (.inr ⟨by simp [loud], by rw [hpc]; rfl, by simp [hpc]⟩)
  | _ => refine .inr (.inr ⟨by simp [loud], ?_, ?_⟩) <;> simp_all [isOver]

/-- After the first step of `finish`. -/
def past (pc : Pc T) : Bool := pc matches .clear .. | .send .. | .refinish | .reclear | .done

theorem past_step (hI : s.state.finished = true → past s.pc)
    (hs : Runner.step s rop = some (s', res)) (hf : s'.state.finished = true) : past s'.pc := by
  cases Moves.step_moved hs with
  | finish | clear | send | sendLocal | refinish | reclear => rfl
  | register => simp_all [past]
  | wake =>
    rw [Moves.wake_state] at hf
    exact Moves.wake_keeps (hI hf) rfl
  | give => exact Moves.wake_keeps (hI hf) rfl
  | abort | take | giveNone => exact hI hf
  | _ => simp_all [past]

theorem finished_run {rtr : List (Runner.Ev T)} (h : Run Runner.step Any (Runner.new k id) rtr s)
    (hf : s.state.finished = true) : (∃ r, Between s.pc r) ∨ isOver s.pc = true := by
  have hpast : past s.pc := by
    refine h.inv (I := fun _ s => s.state.finished = true → past s.pc) nofun ?_ hf
    rintro _ s op s' es hI - hs hf
    exact past_step hI hs hf
  rcases hpc : s.pc with _ | _ | _ | _ | _ | _ | _ | _ | _ | _ | ⟨r, u⟩ | _ | ⟨r, last⟩ |
    ⟨r, last⟩ | ⟨r, last⟩ | _ | _ | _ | _ | _ <;> rw [hpc] at hpast <;> try cases hpast
  · exact .inl ⟨r, last, .inl rfl⟩
  · exact .inl ⟨r, last, .inr rfl⟩
  all_goals exact .inr rfl

/-! ## A step of a task -/

theorem publish_quiet {x : Runner.Ev T} (h : loud x = false) :
    publish i x = (i, []) := by
  cases x <;> first | rfl | cases h

theorem publishAll_quiet (h : ∀ x ∈ res, loud x = false) :
    publishAll i res = (i, res.map .ran) := by
  induction res with
  | nil => rfl
  | cons x res ih =>
    rw [publishAll, publish_quiet (h x mem_cons_self),
      ih fun y hy => h y (mem_cons_of_mem _ hy)]
    rfl

/-- **What a step can do.** -/
inductive Moved (t : Sys T) : Op T → Sys T → List (Ev T) → Prop
  | quiet {rop : Runner.Op T} {s' : Runner.Sys T} {res : List (Runner.Ev T)}
      (hs : Runner.step t.runner rop = some (s', res)) (hq : Quiet t.runner s' res) :
      Moved t (.run rop) { t with runner := s' } (res.map .ran)
  | send {rop : Runner.Op T} {s' : Runner.Sys T} {r : Result T} {last : Bool}
      (hs : Runner.step t.runner rop = some (s', [.sends r])) (hpc : t.runner.pc = .send r last)
      (ho : isOver s'.pc = true) :
      Moved t (.run rop) { t with runner := s', inner := (send ⟨true⟩ t.inner r).1 }
        (.ran (.sends r) :: (send ⟨true⟩ t.inner r).2.map .chan)
  | lose {rop : Runner.Op T} {s' : Runner.Sys T} {x : Runner.Ev T} (hx : loud x = false)
      (hs : Runner.step t.runner rop = some (s', [x, .senderDropped])) (hg : s'.pc = .gone) :
      Moved t (.run rop) { t with runner := s', inner := (dropSender ⟨true⟩ t.inner).1 }
        (.ran x :: .ran .senderDropped :: (dropSender ⟨true⟩ t.inner).2.map .chan)
  | joined {cx : Waker} {rx : Receiver} {r : Result T} (hh : t.handle = some rx)
      (hrx : rx.shared = true) (hv : t.inner.value = some r) :
      Moved t (.poll cx) { t with handle := some ⟨false⟩, inner := { t.inner with value := none } }
        [.yielded r]
  /-- The `JoinHandle` yields that there is no outcome, or no more. -/
  | closed {cx : Waker} {rx : Receiver} (hh : t.handle = some rx)
      (hc : rx.shared = true → t.inner.value = none ∧
        (t.inner.senderAlive = false ∨ t.inner.receiverAlive = false)) :
      Moved t (.poll cx) { t with handle := some ⟨false⟩ }
        [.yielded (.error ⟨t.runner.state.id, .other "task result channel closed"⟩)]
  | pends {cx : Waker} {rx : Receiver} (hh : t.handle = some rx) (hrx : rx.shared = true)
      (hv : t.inner.value = none) (hs : t.inner.senderAlive = true)
      (hr : t.inner.receiverAlive = true) :
      Moved t (.poll cx)
        { t with handle := some rx, inner := { t.inner with recvWaker := some cx } } [.pending cx]
  | isFinished {rx : Receiver} (hh : t.handle = some rx) :
      Moved t .isFinished t [.isFinished t.runner.state.finished]
  | dropHandle {rx : Receiver} (hh : t.handle = some rx) :
      Moved t .dropHandle { t with handle := none, inner := (dropReceiver rx t.inner).1 }
        (.handleDropped :: (dropReceiver rx t.inner).2.map .chan)
  | abortHandles {op : Op T} {n : ℕ} : Moved t op { t with abortHandles := n } []
  | destroy (hf : t.free) :
      Moved t .destroy { t with live := false } [.destroyed (!t.runner.state.finished)]

theorem poll_moved {cx : Waker} {rx : Receiver} (hh : t.handle = some rx)
    (h : t.poll rx cx = (t', es)) : Moved t (.poll cx) t' es := by
  unfold Sys.poll Oneshot.Shared.poll at h
  by_cases hrx : rx.shared = true
  · rw [if_pos hrx] at h
    rcases hv : t.inner.value with _ | r
    · by_cases hc : (!t.inner.senderAlive || !t.inner.receiverAlive) = true
      · simp only [hv, if_pos hc] at h
        cases h
        refine .closed hh fun _ => ⟨hv, ?_⟩
        simpa using hc
      · simp only [hv, if_neg hc] at h
        cases h
        simp only [Bool.or_eq_true, Bool.not_eq_true', not_or, Bool.not_eq_false] at hc
        rw [← hv]
        exact .pends hh hrx hv hc.1 hc.2
    · simp only [hv] at h
      cases h
      exact .joined hh hrx hv
  · rw [if_neg hrx] at h
    cases h
    have hfalse : rx = ⟨false⟩ := by
      rcases rx with ⟨b⟩
      have hb : b = false := Bool.eq_false_iff.mpr hrx
      rw [hb]
    rw [hfalse]
    exact .closed hh fun ht => absurd ht hrx

theorem step_moved (h : step t op = some (t', es)) : Moved t op t' es := by
  unfold step at h
  by_cases hl : t.live = true
  swap
  · rw [if_neg hl] at h
    cases h
  rw [if_pos hl] at h
  cases op with
  | run =>
    dsimp only at h
    split_ifs at h
    rw [map_eq_some_iff] at h
    obtain ⟨⟨s', res⟩, hs, h⟩ := h
    cases h
    rcases loud_cases hs with ⟨r, last, hpc, rfl, ho⟩ | ⟨x, hx, rfl, hg, -⟩ | hq
    · have hp : publishAll t.inner [.sends r] = ((send ⟨true⟩ t.inner r).1,
          .ran (.sends r) :: (send ⟨true⟩ t.inner r).2.map .chan) := by
        simp [publishAll, publish]
      rw [hp]
      exact .send hs hpc ho
    · have hp : publishAll t.inner [x, .senderDropped] = ((dropSender ⟨true⟩ t.inner).1,
          .ran x :: .ran .senderDropped :: (dropSender ⟨true⟩ t.inner).2.map .chan) := by
        rw [publishAll, publish_quiet hx]
        simp [publishAll, publish]
      rw [hp]
      exact .lose hx hs hg
    · rw [publishAll_quiet hq.loud]
      exact .quiet hs hq
  | poll =>
    simp only [map_eq_some_iff] at h
    obtain ⟨rx, hh, h⟩ := h
    exact poll_moved hh h
  | isFinished =>
    obtain ⟨rx, hh, ⟨⟩⟩ := map_eq_some_iff.mp h
    exact .isFinished hh
  | dropHandle =>
    obtain ⟨rx, hh, ⟨⟩⟩ := map_eq_some_iff.mp h
    exact .dropHandle hh
  | abortHandle | dropAbortHandle =>
    dsimp only at h
    split_ifs at h
    cases h
    exact .abortHandles
  | destroy =>
    dsimp only at h
    split_ifs at h with hf
    cases h
    exact .destroy hf

/-- The event of the runner. -/
def ranOf : Ev T → Option (Runner.Ev T)
  | .ran e => some e
  | _ => none

theorem filterMap_ran (res : List (Runner.Ev T)) : (res.map Ev.ran).filterMap ranOf = res := by
  rw [filterMap_map]
  exact filterMap_some

theorem filterMap_ran_cons {e : Runner.Ev T} :
    (Ev.ran e :: es).filterMap ranOf = e :: es.filterMap ranOf := rfl

theorem filterMap_chan (ces : List (Oneshot.Shared.Ev (Result T))) :
    (ces.map Ev.chan).filterMap ranOf = [] := by
  rw [filterMap_map, filterMap_eq_nil_iff]
  exact fun _ _ => rfl

theorem runner_run {D : Runner.Sys T → Runner.Op T → Prop}
    (h : Run step (fun _ t op => ∀ rop, op = .run rop → D t.runner rop) (new k id) tr t) :
    Run Runner.step (fun _ s rop => D s rop) (Runner.new k id) (tr.filterMap ranOf) t.runner := by
  refine h.project (f := Sys.runner) (g := ranOf) ?_
  rintro tr t op t' es hD hs
  cases step_moved hs with
  | @quiet rop _ res hr =>
    rw [filterMap_ran]
    exact .inr ⟨rop, hD rop rfl, hr⟩
  | @send rop _ r _ hr =>
    rw [filterMap_ran_cons, filterMap_chan]
    exact .inr ⟨rop, hD rop rfl, hr⟩
  | @lose rop _ x _ hr =>
    rw [filterMap_ran_cons, filterMap_ran_cons, filterMap_chan]
    exact .inr ⟨rop, hD rop rfl, hr⟩
  | dropHandle =>
    rw [filterMap_cons_none rfl, filterMap_chan]
    exact .inl ⟨rfl, rfl⟩
  | joined | closed | pends | isFinished | abortHandles | destroy => exact .inl ⟨rfl, rfl⟩

/-! ## The channel -/

/-- No result was yielded. -/
def Unjoined (tr : List (Ev T)) : Prop := ∀ r, .yielded r ∉ tr

theorem Unjoined.left (h : Unjoined (tr ++ es)) : Unjoined tr :=
  fun r hr => h r (mem_append_left _ hr)

/-- **What the channel holds**: nothing until the outcome is sent, and then the outcome until it is
yielded. -/
structure Chan (tr : List (Ev T)) (t : Sys T) : Prop where
  live : ∀ rx, t.handle = some rx → t.live = true
  alive : ∀ rx, t.handle = some rx → t.inner.receiverAlive = true
  opened : isOver t.runner.pc = false → t.runner.pc ≠ .gone →
    t.inner.value = none ∧ t.inner.senderAlive = true
  shared : Unjoined tr → ∀ rx, t.handle = some rx → rx.shared = true
  sent : isOver t.runner.pc = true → ∃ r, .ran (.sends r) ∈ tr ∧
    (Unjoined tr → ∀ rx, t.handle = some rx → t.inner.value = some r)

theorem chan_new : Chan [] (new k id : Sys T) where
  live _ _ := rfl
  alive _ _ := rfl
  opened _ _ := ⟨rfl, rfl⟩
  shared _ rx h := by
    obtain rfl : ⟨true⟩ = rx := some.inj h
    rfl
  sent h := by cases k <;> cases h

theorem Chan.quiet (h : Chan tr t) (hq : Quiet t.runner s' res) :
    Chan (tr ++ es) { t with runner := s' } where
  live := h.live
  alive := h.alive
  opened ho hg := h.opened (hq.isOver ▸ ho) fun hg' => hg (hq.gone hg')
  shared hu := h.shared hu.left
  sent ho := by
    obtain ⟨r, hr, hv⟩ := h.sent (hq.isOver ▸ ho)
    exact ⟨r, mem_append_left _ hr, fun hu => hv hu.left⟩

theorem send_value (hr : i.receiverAlive = true) :
    (send ⟨true⟩ i r).1.value = some r := by
  simp [send, hr]

theorem send_alive :
    (send ⟨true⟩ i r).1.receiverAlive = i.receiverAlive := by
  unfold send
  split_ifs <;> rfl

theorem dropReceiver_sender {rx : Receiver} :
    (dropReceiver rx i).1.value = i.value ∧ (dropReceiver rx i).1.senderAlive = i.senderAlive := by
  unfold dropReceiver Oneshot.Shared.shut
  split_ifs <;> exact ⟨rfl, rfl⟩

theorem chan_step (h : Chan tr t) (hs : step t op = some (t', es)) : Chan (tr ++ es) t' := by
  cases step_moved hs with
  | quiet hr hq => exact h.quiet hq
  | @send _ s' r _ hr hpc ho =>
    refine ⟨h.live, fun rx hh => ?_, fun ho' => ?_, fun hu => h.shared hu.left,
      fun _ => ⟨r, by simp, ?_⟩⟩
    · rw [send_alive]
      exact h.alive rx hh
    · rw [ho] at ho'
      cases ho'
    · exact fun _ rx hh => send_value (h.alive rx hh)
  | lose _ _ hg =>
    refine ⟨h.live, h.alive, fun _ hg' => absurd hg hg', fun hu => h.shared hu.left, fun ho => ?_⟩
    rw [hg] at ho
    cases ho
  | @joined _ rx r hh =>
    refine ⟨fun _ _ => h.live rx hh, fun _ _ => h.alive rx hh, fun ho hg => ?_, fun hu => ?_,
      fun ho => ?_⟩
    · exact ⟨rfl, (h.opened ho hg).2⟩
    · exact absurd (by simp) (hu r)
    · obtain ⟨r', hr', -⟩ := h.sent ho
      exact ⟨r', mem_append_left _ hr', fun hu => absurd (by simp) (hu r)⟩
  | @closed _ rx hh =>
    refine ⟨fun _ _ => h.live rx hh, fun _ _ => h.alive rx hh, h.opened, fun hu => ?_,
      fun ho => ?_⟩
    · exact absurd (by simp) (hu (.error ⟨t.runner.state.id, .other "task result channel closed"⟩))
    · obtain ⟨r', hr', -⟩ := h.sent ho
      refine ⟨r', mem_append_left _ hr', fun hu => ?_⟩
      exact absurd (by simp) (hu (.error ⟨t.runner.state.id, .other "task result channel closed"⟩))
  | @pends _ rx hh =>
    refine ⟨fun _ _ => h.live rx hh, fun _ _ => h.alive rx hh, h.opened, fun hu _ hh' => ?_,
      fun ho => ?_⟩
    · exact h.shared hu.left _ (hh.trans hh')
    · obtain ⟨r, hr, hval⟩ := h.sent ho
      exact ⟨r, mem_append_left _ hr, fun hu rx' hh' => hval hu.left rx hh⟩
  | dropHandle =>
    refine ⟨nofun, nofun, fun ho hg => ?_, fun _ => nofun, fun ho => ?_⟩
    · rw [dropReceiver_sender.1, dropReceiver_sender.2]
      exact h.opened ho hg
    · obtain ⟨r, hr, -⟩ := h.sent ho
      exact ⟨r, mem_append_left _ hr, fun _ => nofun⟩
  | isFinished | abortHandles =>
    refine ⟨h.live, h.alive, h.opened, fun hu => h.shared hu.left, fun ho => ?_⟩
    obtain ⟨r, hr, hv⟩ := h.sent ho
    exact ⟨r, mem_append_left _ hr, fun hu => hv hu.left⟩
  | destroy hf =>
    have hnone : t.handle = none := by
      simp only [Sys.free, Sys.held, Bool.and_eq_true, Bool.not_eq_true',
        Bool.or_eq_false_iff] at hf
      simpa using hf.1.1.1
    refine ⟨fun rx hh => ?_, h.alive, h.opened, fun hu => h.shared hu.left, fun ho => ?_⟩
    · rw [hnone] at hh
      cases hh
    · obtain ⟨r, hr, hv⟩ := h.sent ho
      exact ⟨r, mem_append_left _ hr, fun hu => hv hu.left⟩

theorem chan_run (h : Run step Any (new k id) tr t) : Chan tr t :=
  h.inv chan_new fun _ _ _ _ _ hI _ hs => chan_step hI hs

theorem runner_run_any (h : Run step Any (new k id) tr t) :
    Run Runner.step Any (Runner.new k id) (tr.filterMap ranOf) t.runner :=
  runner_run (D := fun _ _ => True) (h.along_inputs (f := fun op => op) fun _ _ _ _ _ _ => trivial)

theorem finished_step (hs : Runner.step s rop = some (s', res)) (hf : s.state.finished = true) :
    s'.state.finished = true := by
  cases Moves.step_moved hs <;> simp_all

/-- A finished task stays finished. -/
theorem isFinished_run (h : Run step Any (new k id) tr t) (hf : .isFinished true ∈ tr) :
    t.runner.state.finished = true := by
  refine h.inv (I := fun tr t => .isFinished true ∈ tr → t.runner.state.finished = true) nofun ?_ hf
  rintro tr t op t' es hI - hs hf
  cases step_moved hs with
  | quiet hr | send hr | lose _ hr => exact finished_step hr (hI (by simpa using hf))
  | isFinished =>
    rcases mem_append.mp hf with hf | hf
    · exact hI hf
    · simpa using hf
  | _ => exact hI (by simpa using hf)

/-! ## Joining -/

/-- A poll of the `JoinHandle`, or its drop. -/
def Touches : Ev T → Prop
  | .pending _ | .yielded _ | .handleDropped => True
  | _ => False

/-- A step of the runner itself. -/
def ownStep : Ev T → Bool
  | .ran e => own e
  | _ => false

/-- The `JoinHandle` was polled with `w` while the runner is about to send its outcome `r`. -/
structure Waits (w : Waker) (r : Result T) (t : Sys T) : Prop where
  between : Between t.runner.pc r
  handle : t.handle = some ⟨true⟩
  value : t.inner.value = none
  receiverAlive : t.inner.receiverAlive = true
  recvWaker : t.inner.recvWaker = some w

/-- The outcome `r` is there for the `JoinHandle`. -/
structure Joinable (r : Result T) (t : Sys T) : Prop where
  live : t.live = true
  isOver : isOver t.runner.pc = true
  handle : t.handle = some ⟨true⟩
  value : t.inner.value = some r

theorem Joinable.poll (h : Joinable r t) (w : Waker) :
    ∃ t', step t (.poll w) = some (t', [.yielded r]) := by
  refine ⟨{ t with handle := some ⟨false⟩, inner := { t.inner with value := none } }, ?_⟩
  simp [step, h.live, h.handle, Sys.poll, Oneshot.Shared.poll, h.value]

theorem joinable_step (h : Joinable r t) (hs : step t op = some (t', es))
    (hn : ∀ x ∈ es, ¬ Touches x) : Joinable r t' := by
  cases step_moved hs with
  | quiet hr hq => exact ⟨h.live, hq.isOver.trans h.isOver, h.handle, h.value⟩
  | send _ hpc =>
    have ho := h.isOver
    rw [hpc] at ho
    cases ho
  | lose _ hr hg =>
    have ho := (Aborts.isOver_step h.isOver hr).1
    rw [hg] at ho
    cases ho
  | joined | closed | pends | dropHandle => exact absurd trivial (hn _ mem_cons_self)
  | isFinished | abortHandles => exact ⟨h.live, h.isOver, h.handle, h.value⟩
  | destroy hf =>
    have hheld : t.held = true := by simp [Sys.held, h.handle]
    simp [Sys.free, hheld] at hf

theorem live_of_step (hs : step t op = some (t', es)) : t.live = true := by
  by_contra hl
  unfold step at hs
  rw [if_neg hl] at hs
  cases hs

theorem between_step (h : Between s.pc r) (hs : Runner.step s rop = some (s', res))
    (ho : isOver s'.pc = false) : Between s'.pc r := by
  have hwake : ∀ w, Between (s.wake w).1.pc r := by
    intro w
    rcases Moves.wake_pc (s := s) (w := w) with hp | ⟨hb, -⟩
    · rwa [hp]
    · rw [hb] at h
      obtain ⟨last, h | h⟩ := h <;> cases h
  obtain ⟨last, hpc⟩ := h
  cases Moves.step_moved hs with
  | clear hpc' =>
    rw [hpc'] at hpc
    rcases hpc with hpc | hpc <;> cases hpc
    exact ⟨_, .inr rfl⟩
  | send | sendLocal => cases ho
  | wake | give => exact hwake _
  | abort | take | giveNone => exact ⟨last, hpc⟩
  | _ => simp_all

theorem between_left {pc : Pc T} (h : Between pc r) : 0 < left pc ∧ left pc ≤ 2 := by
  obtain ⟨last, rfl | rfl⟩ := h <;> simp [left]

theorem between_isOver {pc : Pc T} (h : Between pc r) : isOver pc = false := by
  obtain ⟨last, rfl | rfl⟩ := h <;> rfl

theorem countP_ran (res : List (Runner.Ev T)) :
    (res.map Ev.ran).countP ownStep = res.countP own := by
  rw [countP_map]
  rfl

theorem waits_step {w : Waker} (h : Waits w r t) (hs : step t op = some (t', es))
    (hn : ∀ x ∈ es, ¬ Touches x) :
    Waits w r t' ∧ left t'.runner.pc + es.countP ownStep ≤ left t.runner.pc ∨
      .ran (.sends r) ∈ es ∧ .chan (.woke w) ∈ es ∧ Joinable r t' := by
  cases step_moved hs with
  | quiet hr hq =>
    have hover := hq.isOver.trans (between_isOver h.between)
    have hbetween := between_step h.between hr hover
    left
    refine ⟨⟨hbetween, h.handle, h.value, h.receiverAlive, h.recvWaker⟩, ?_⟩
    rw [countP_ran]
    rcases (Aborts.left_step (between_left h.between).1 hr).2 with ⟨ho, -⟩ | ⟨-, hle⟩
    · rw [hover] at ho
      cases ho
    · exact hle
  | @send _ _ r' _ hr hpc ho =>
    obtain rfl : r = r' := by
      obtain ⟨last, hb | hb⟩ := h.between <;> rw [hpc] at hb <;> cases hb
      rfl
    have hlive : t.live = true := live_of_step hs
    right
    refine ⟨mem_cons_self, ?_, hlive, ho, h.handle, send_value h.receiverAlive⟩
    simp [send, h.receiverAlive, h.recvWaker, Oneshot.Shared.wake]
  | lose _ hr hg =>
    have hbetween := between_step h.between hr (by rw [hg]; rfl)
    rw [hg] at hbetween
    obtain ⟨last, hb | hb⟩ := hbetween <;> cases hb
  | joined | closed | pends | dropHandle => exact absurd trivial (hn _ mem_cons_self)
  | isFinished | abortHandles =>
    exact .inl ⟨⟨h.between, h.handle, h.value, h.receiverAlive, h.recvWaker⟩, by simp [ownStep]⟩
  | destroy hf =>
    have hheld : t.held = true := by simp [Sys.held, h.handle]
    simp [Sys.free, hheld] at hf

/-- **A waiting handle** is woken by the send. -/
theorem waits_run {w : Waker} (h : Waits w r t) (hrun : Run step Any t es t')
    (hn : ∀ x ∈ es, ¬ Touches x) :
    Waits w r t' ∧ left t'.runner.pc + es.countP ownStep ≤ left t.runner.pc ∨
      .ran (.sends r) ∈ es ∧ .chan (.woke w) ∈ es ∧ Joinable r t' := by
  refine hrun.inv (I := fun es t' => (∀ x ∈ es, ¬ Touches x) →
    Waits w r t' ∧ left t'.runner.pc + es.countP ownStep ≤ left t.runner.pc ∨
      .ran (.sends r) ∈ es ∧ .chan (.woke w) ∈ es ∧ Joinable r t') ?_ ?_ hn
  · exact fun _ => .inl ⟨h, by simp⟩
  · rintro tr t₁ op t₂ es hI - hs hn
    have hnew : ∀ x ∈ es, ¬ Touches x := fun x hx => hn x (mem_append_right _ hx)
    rcases hI fun x hx => hn x (mem_append_left _ hx) with ⟨hw, hle⟩ | ⟨hr, hw, hj⟩
    · rcases waits_step hw hs hnew with ⟨hw', hle'⟩ | ⟨hr, hwoke, hj⟩
      · refine .inl ⟨hw', ?_⟩
        rw [countP_append]
        omega
      · exact .inr ⟨mem_append_right _ hr, mem_append_right _ hwoke, hj⟩
    · exact .inr ⟨mem_append_left _ hr, mem_append_left _ hw, joinable_step hj hs hnew⟩

/-- **A finished task can be joined.**  If `is_finished` has returned `true` and the `JoinHandle`
has not yielded anything, its next poll yields the outcome that was sent, or the runner is between
setting `finished` and sending its outcome.  In the second case the poll is pending, the runner can
go on, and within two steps of its own it sends the outcome; this wakes the waker of the poll, and
the next poll yields the outcome. -/
theorem finished_joinable (h : Run step Any (new k id) tr t) (hf : .isFinished true ∈ tr)
    (hy : ∀ r, .yielded r ∉ tr) {rx : Receiver} (hh : t.handle = some rx) (w : Waker) :
    (∃ r t', .ran (.sends r) ∈ tr ∧ step t (.poll w) = some (t', [.yielded r])) ∨
      ∃ r t', Between t.runner.pc r ∧ step t (.poll w) = some (t', [.pending w]) ∧
        ∀ es t₂, Run step Any t' es t₂ → (∀ x ∈ es, ¬ Touches x) →
          Between t₂.runner.pc r ∧ es.countP ownStep < 2 ∧ CanGo t₂.runner ∨
          .ran (.sends r) ∈ es ∧ .chan (.woke w) ∈ es ∧
            ∀ w', ∃ t₃, step t₂ (.poll w') = some (t₃, [.yielded r]) := by
  have hchan := chan_run h
  have hlive := hchan.live rx hh
  obtain ⟨b⟩ := rx
  obtain rfl : b = true := hchan.shared hy _ hh
  rcases finished_run (runner_run_any h) (isFinished_run h hf) with ⟨r, hb⟩ | ho
  · right
    have hover := between_isOver hb
    have hgone : t.runner.pc ≠ .gone := by
      obtain ⟨last, hb | hb⟩ := hb <;> rw [hb] <;> nofun
    obtain ⟨hv, hs⟩ := hchan.opened hover hgone
    have hr := hchan.alive _ hh
    have hpoll : step t (.poll w) =
        some ({ t with handle := some ⟨true⟩, inner := { t.inner with recvWaker := some w } },
          [.pending w]) := by
      simp [step, hlive, hh, Sys.poll, Oneshot.Shared.poll, hv, hs, hr]
    refine ⟨r, _, hb, hpoll, fun es t₂ hrun hn => ?_⟩
    have hwaits : Waits w r
        { t with handle := some ⟨true⟩, inner := { t.inner with recvWaker := some w } } :=
      ⟨hb, rfl, hv, hr, rfl⟩
    rcases waits_run hwaits hrun hn with ⟨hw, hle⟩ | ⟨hsends, hwoke, hj⟩
    · left
      have h2 : left t.runner.pc ≤ 2 := (between_left hb).2
      have h0 := (between_left hw.between).1
      have hle : left t₂.runner.pc + es.countP ownStep ≤ left t.runner.pc := hle
      have hmade := Moves.made_run (runner_run_any ((h.snoc trivial hpoll).trans hrun))
      exact ⟨hw.between, by omega, Aborts.ending_goes hmade h0⟩
    · exact .inr ⟨hsends, hwoke, hj.poll⟩
  · left
    obtain ⟨r, hr, hv⟩ := hchan.sent ho
    obtain ⟨t', ht'⟩ := Joinable.poll ⟨hlive, ho, hh, hv hy _ hh⟩ w
    exact ⟨r, t', hr, ht'⟩

/-- A blocking task that has returned 5. -/
theorem finished_joinable_blocking : ∃ (t : Sys ℕ) (tr : List (Ev ℕ)),
    Run step Any (new .blocking 1) tr t ∧ .isFinished true ∈ tr ∧
      ∃ r t', .ran (.sends r) ∈ tr ∧ step t (.poll 0) = some (t', [.yielded r]) := by
  obtain ⟨t, hrun, hhandle, hpc⟩ : ∃ t, Run step Any (new .blocking 1 : Sys ℕ)
      [.ran .started, .ran (.checked false), .ran .polled, .ran (.ready 5), .ran (.finished true),
        .ran .cleared, .ran (.sends (.ok 5)), .chan (.sent (.ok 5)), .chan .broadcast,
        .isFinished true] t ∧ t.handle = some ⟨true⟩ ∧ t.runner.pc = .done :=
    ⟨_, run_exec [.run .start, .run .advance, .run .advance, .run (.ready 5), .run .advance,
      .run .advance, .run .advance, .isFinished] rfl, rfl, rfl⟩
  have hjoin := finished_joinable hrun (by simp) (by simp) hhandle 0
  refine ⟨t, _, hrun, by simp, hjoin.resolve_right ?_⟩
  rintro ⟨r, t', ⟨last, hb | hb⟩, -⟩
  all_goals
    rw [hpc] at hb
    cases hb

/-- The same task, polled before it sends its outcome. -/
theorem finished_pending : ∃ (t : Sys ℕ) (tr : List (Ev ℕ)),
    Run step Any (new .blocking 1) tr t ∧ .isFinished true ∈ tr ∧ (∀ r, .yielded r ∉ tr) ∧
      ∃ t', step t (.poll 0) = some (t', [.pending 0]) := by
  obtain ⟨t, hrun, hpoll⟩ : ∃ t, Run step Any (new .blocking 1 : Sys ℕ)
      [.ran .started, .ran (.checked false), .ran .polled, .ran (.ready 5), .ran (.finished true),
        .isFinished true] t ∧ ∃ t', step t (.poll 0) = some (t', [.pending 0]) :=
    ⟨_, run_exec [.run .start, .run .advance, .run .advance, .run (.ready 5), .run .advance,
      .isFinished] rfl, _, rfl⟩
  exact ⟨t, _, hrun, by simp, by simp, hpoll⟩

end OhosFfrt.Task.Joins
