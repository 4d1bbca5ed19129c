import OhosFfrt.Lib.Waiting
import OhosFfrt.Semaphore.System

/-!
# `sync::Semaphore`: what a step can do

`step_moved` is what a step can do to the state and the futures; what it does to the permits is
counted in `Conservation`.
-/

namespace OhosFfrt.Semaphore.Moves

open Basic Lib.WaitQueue Lib.Waiting Semaphore.State Semaphore.System Option
open Lib.Arena (le_total)

/-! ## Polls -/

section poll
variable (s : SemaphoreState) (w : Option ℕ) (permits : ℕ) (cx : Waker)

variable {s} in
theorem pollAcquire_closed (hc : s.closed = true) :
    pollAcquire s w permits cx = ⟨.closed, none, s, [.other .failedClosed]⟩ := by
  simp [pollAcquire, hc]

variable {s} in
theorem pollAcquire_open (hc : s.closed = false) :
    (Unqueued s.waiters w ∧ s.waiters = [] ∧ enough s permits = true ∧
      pollAcquire s w permits cx =
        ⟨.acquired, none, { s with permits := s.permits - permits }, [.barged]⟩) ∨
    (Unqueued s.waiters w ∧ (s.waiters = [] → enough s permits = false) ∧
      pollAcquire s w permits cx = ⟨.pending, some s.nextWaiter,
        { s with
          nextWaiter := nextId s.nextWaiter
          waiters := s.waiters ++ [⟨s.nextWaiter, permits, cx⟩] }, [.registered s.nextWaiter]⟩) ∨
    (∃ e q, w = some e.id ∧ s.waiters = e :: q ∧ position s.waiters e.id = some 0 ∧
      enough s permits = true ∧ pollAcquire s w permits cx = ⟨.acquired, none, popTake s permits,
        .granted e.id :: wake (nextWaker (popTake s permits))⟩) ∨
    (∃ id p, w = some id ∧ position s.waiters id = some p ∧ (p = 0 → enough s permits = false) ∧
      pollAcquire s w permits cx = ⟨.pending, some id,
        { s with waiters := setWaker s.waiters p cx }, [.polled id]⟩) := by
  have hfresh : Unqueued s.waiters w → pollAcquire s w permits cx = pollFresh s permits cx := by
    intro hu
    rcases w with _ | id
    · simp [pollAcquire, hc]
    · simp [pollAcquire, hc, hu id rfl]
  rcases place s.waiters (enough s permits) w with
    ⟨hu, hq, he⟩ | ⟨hu, he⟩ | ⟨hq, hp, he⟩ | ⟨hp, he⟩
  · refine .inl ⟨hu, hq, he, ?_⟩
    simp [hfresh hu, pollFresh, hq, he]
  · refine .inr (.inl ⟨hu, he, ?_⟩)
    rw [hfresh hu, pollFresh, if_neg]
    simpa using he
  · refine .inr (.inr (.inl ⟨_, _, rfl, hq, hp, he, ?_⟩))
    simp [pollAcquire, hc, hp, he]
  · refine .inr (.inr (.inr ⟨_, _, rfl, hp, he, ?_⟩))
    simp only [pollAcquire, hc, hp]
    rw [if_neg (by simp), if_neg]
    simpa using he

variable {s} in
/-- **A poll of an open semaphore is one of its wait queue.** -/
theorem pollAcquire_polls (hc : s.closed = false) :
    Polls (enough s) s.nextWaiter s.waiters permits cx w
      (enough (pollAcquire s w permits cx).state) (pollAcquire s w permits cx).state.nextWaiter
      (pollAcquire s w permits cx).state.waiters (pollAcquire s w permits cx).waiter
      (pollAcquire s w permits cx).events := by
  rcases pollAcquire_open w permits cx hc with
    ⟨hu, hq, -, he⟩ | ⟨hu, hr, he⟩ | ⟨e, q, rfl, hq, -, -, he⟩ | ⟨id, p, rfl, hp, hr, he⟩ <;>
    rw [he]
  · exact .barge hu hq
  · exact .join hu hr
  · exact .serve hq (.inl rfl)
  · exact .stay hp hr

/-- A poll does not close, and takes permits or leaves them. -/
theorem pollAcquire_counters :
    (pollAcquire s w permits cx).state.closed = s.closed ∧
      (pollAcquire s w permits cx).state.permits ≤ s.permits := by
  rcases hc : s.closed with _ | _
  · rcases pollAcquire_open w permits cx hc with
      ⟨-, -, -, he⟩ | ⟨-, -, he⟩ | ⟨e, q, -, -, -, -, he⟩ | ⟨id, p, -, -, -, he⟩ <;> rw [he]
    · exact ⟨hc, Nat.sub_le _ _⟩
    · exact ⟨hc, Nat.le_refl _⟩
    · exact ⟨hc, Nat.sub_le _ _⟩
    · exact ⟨hc, Nat.le_refl _⟩
  · rw [pollAcquire_closed w permits cx hc]
    exact ⟨hc, Nat.le_refl _⟩

end poll

theorem cancelWaiter_eq (s : SemaphoreState) (w : Option ℕ) :
    cancelWaiter s w = ({ s with waiters := (cancel (ε := SemEvent) (enough s) s.waiters w).1 },
      (cancel (enough s) s.waiters w).2) := by
  rcases w with _ | id
  · rfl
  · simp only [cancelWaiter, cancel]
    rcases position s.waiters id with _ | p <;> rfl

/-! ## Giving permits back -/

theorem addPermits_some {st : SemaphoreState} {n : ℕ} {r : SemaphoreState × List Ev}
    (h : addPermits st n = some r) : st.permits + n ≤ maxPermits ∧
      r = ({ st with permits := st.permits + n },
        wake (nextWaker { st with permits := st.permits + n })) := by
  unfold addPermits checkedAdd at h
  split_ifs at h with hle
  · simp only [Option.filter, map_eq_some_iff] at h
    obtain ⟨m, hm, rfl⟩ := h
    split_ifs at hm with hmax
    simp only [some.injEq] at hm
    subst hm
    exact ⟨by simpa using hmax, rfl⟩
  · simp at h

theorem addPermits_none {st : SemaphoreState} {n : ℕ} (h : addPermits st n = none) :
    maxPermits < st.permits + n := by
  have hle : maxPermits ≤ usizeMax := by decide
  unfold addPermits checkedAdd at h
  split_ifs at h with hc
  · simp only [Option.filter, map_eq_none_iff] at h
    split_ifs at h with hmax
    simpa using hmax
  · omega

/-- The events say nothing about the queue and wake nobody. -/
def Silent (es : List Ev) : Prop := ∀ x ∈ es, ∃ e, x = .other e

theorem drop_cases (s : Sys) (g : ℕ) (pm : SemaphorePermit) :
    (s.drop g pm = ({ s with permits := s.permits.set g pm.gone }, [.other (.forgot pm.permits)])) ∨
    (s.state.permits + pm.permits ≤ maxPermits ∧
      s.drop g pm = ({ s with
        state := { s.state with permits := s.state.permits + pm.permits }
        permits := s.permits.set g pm.gone },
        wake (nextWaker { s.state with permits := s.state.permits + pm.permits }))) ∨
    (maxPermits < s.state.permits + pm.permits ∧
      s.drop g pm = ({ s with permits := s.permits.set g pm.gone },
        [.other (.lost pm.permits)])) := by
  by_cases hf : pm.forgotten = true
  · left
    simp [Sys.drop, hf]
  · rcases ha : addPermits s.state pm.permits with _ | r
    · refine .inr (.inr ⟨addPermits_none ha, ?_⟩)
      simp [Sys.drop, hf, ha]
    · obtain ⟨h1, rfl⟩ := addPermits_some ha
      refine .inr (.inl ⟨h1, ?_⟩)
      simp [Sys.drop, hf, ha]

/-! ## Steps -/

/-- After a poll of `f`. -/
def polledSys (s : Sys) (f : ℕ) (fut : AcquireFuture) (r : Polled) : Sys where
  state := r.state
  futures := s.futures.set f { fut with waiter := r.waiter }
  permits := if r.outcome = .acquired then s.permits ++ [newPermit fut.permits fut.owned]
    else s.permits

/-- After the drop of `f`. -/
def cancelledSys (s : Sys) (f : ℕ) (fut : AcquireFuture) (state : SemaphoreState) : Sys where
  state := state
  futures := s.futures.set f { fut with waiter := none, live := false }
  permits := s.permits

/-- **What a step can do** to the state and the futures. -/
inductive Moved (s : Sys) : Op → Sys → List Ev → Prop
  | create {n : UInt32} {owned : Bool} : Moved s (.acquireMany n owned)
      { s with futures := s.futures ++ [⟨n.toNat, owned, none, true⟩] } []
  | poll {f : ℕ} {cx : Waker} {fut : AcquireFuture} (hf : s.future? f = some fut) :
      Moved s (.poll f cx) (polledSys s f fut (pollAcquire s.state fut.waiter fut.permits cx))
        (pollAcquire s.state fut.waiter fut.permits cx).events
  | cancel {f : ℕ} {fut : AcquireFuture} (hf : s.future? f = some fut) :
      Moved s (.dropFuture f) (cancelledSys s f fut (cancelWaiter s.state fut.waiter).1)
        (cancelWaiter s.state fut.waiter).2
  /-- The number of permits goes down or stays. -/
  | lower {op : Op} {s' : Sys} {es : List Ev}
      (hst : s'.state = { s.state with permits := s'.state.permits })
      (hn : s'.state.permits ≤ s.state.permits)
      (hfu : s'.futures = s.futures) (hes : Silent es)
      (hl : ∀ n, .other (.lost n) ∈ es → maxPermits < s.state.permits + s.held) : Moved s op s' es
  | take {op : Op} {s' : Sys} (hc : s.state.closed = false) (hq : s.state.waiters = [])
      (hst : s'.state = { s.state with permits := s'.state.permits })
      (hn : s'.state.permits ≤ s.state.permits) (hfu : s'.futures = s.futures) :
      Moved s op s' [.barged]
  | give {op : Op} {s' : Sys} (es : List Ev)
      (hst : s'.state = { s.state with permits := s'.state.permits })
      (hm : s'.state.permits ≤ maxPermits) (hfu : s'.futures = s.futures) (hes : Silent es)
      (hl : ∀ n, .other (.lost n) ∉ es) : Moved s op s' (es ++ wake (nextWaker s'.state))
  | close : Moved s .close { s with state := (close s.state).1 } (close s.state).2

variable {s s' : Sys} {op : Op} {es : List Ev} {pm : SemaphorePermit} {g : ℕ}

theorem silent_nil : Silent [] := by simp [Silent]

theorem silent_other (e : SemEvent) : Silent [.other e] := by simp [Silent]

theorem permit?_some (h : s.permit? g = some pm) :
    s.permits[g]? = some pm ∧ pm.live = true ∧ pm.numPermits = pm.permits := by
  unfold Sys.permit? at h
  obtain ⟨h1, h2⟩ := filter_eq_some_iff.mp h
  exact ⟨h1, h2, by simp [SemaphorePermit.numPermits, h2]⟩

theorem permits_le_held (h : s.permit? g = some pm) :
    pm.permits ≤ s.held := by
  obtain ⟨h1, -, h2⟩ := permit?_some h
  rw [← h2]
  exact le_total h1

theorem moved_drop {s1 : Sys} (hst : s1.state = s.state)
    (hfu : s1.futures = s.futures) (hle : pm.permits ≤ s.held) (h : s1.drop g pm = (s', es)) :
    Moved s op s' es := by
  rcases drop_cases s1 g pm with hd | ⟨hm, hd⟩ | ⟨hm, hd⟩
  all_goals
    rw [hd] at h
    cases h
  · exact .lower (by simp only [hst]) (by simp only [hst]; exact Nat.le_refl _) hfu
      (silent_other _) (by simp)
  · refine .give [] ?_ hm hfu silent_nil (by simp)
    simp only [hst]
  · refine .lower (by simp only [hst]) (by simp only [hst]; exact Nat.le_refl _) hfu
      (silent_other _) fun n _ => ?_
    rw [hst] at hm
    omega

theorem moved_unwind (h : s.unwind g pm = some (s', es)) :
    Moved s op s' es := by
  obtain ⟨r, hr, ⟨⟩⟩ := Option.map_eq_some_iff.mp h
  obtain ⟨hm, rfl⟩ := addPermits_some hr
  refine .give [] ?_ hm ?_ silent_nil (by simp) <;> rfl

theorem tryTake_ok {st st' : SemaphoreState} {n : ℕ} (h : tryTake st n = .ok st') :
    st.closed = false ∧ st.waiters = [] ∧ n ≤ st.permits ∧
      st' = { st with permits := st.permits - n } := by
  unfold tryTake at h
  split_ifs at h with h1 h2
  simp only [Bool.or_eq_true, Bool.not_eq_true', decide_eq_true_eq, not_or, Bool.not_eq_false,
    List.isEmpty_iff] at h2
  simp only [Except.ok.injEq] at h
  exact ⟨by simpa using h1, h2.1, by omega, h.symm⟩

theorem step_moved (h : step s op = some (s', es)) : Moved s op s' es := by
  have hsame : ∀ {op' : Op} {es' : List Ev}, Silent es' → (∀ n, .other (.lost n) ∉ es') →
      Moved s op' s es' :=
    fun hes hl => .lower rfl (Nat.le_refl _) rfl hes fun n hn => absurd hn (hl n)
  cases op with
  | acquireMany =>
    cases h
    exact .create
  | poll =>
    obtain ⟨fut, hf, ⟨⟩⟩ := map_eq_some_iff.mp h
    exact .poll hf
  | dropFuture =>
    obtain ⟨fut, hf, ⟨⟩⟩ := map_eq_some_iff.mp h
    exact .cancel hf
  | tryAcquireMany n =>
    simp only [step] at h
    rcases ht : tryTake s.state n.toNat with e | st
    · rw [ht] at h
      rcases e with _ | _ <;> cases h <;> exact hsame (silent_other _) (by simp)
    · rw [ht] at h
      cases h
      obtain ⟨h1, h2, -, rfl⟩ := tryTake_ok ht
      exact .take h1 h2 rfl (Nat.sub_le _ _) rfl
  | dropPermit g | forget g =>
    simp only [step, map_eq_some_iff] at h
    obtain ⟨pm, hg, h⟩ := h
    refine moved_drop ?_ ?_ ?_ h
    · rfl
    · rfl
    · exact (permits_le_held hg : pm.permits ≤ s.held)
  | merge =>
    simp only [step, bind_eq_some_iff] at h
    obtain ⟨pm, -, pm', -, h⟩ := h
    split_ifs at h with hne
    unfold Sys.merge at h
    rcases hc : checkedAdd pm.permits pm'.permits with _ | n <;> rw [hc] at h
    · exact moved_unwind h
    · simp only [some.injEq] at h
      refine moved_drop ?_ ?_ (Nat.zero_le _) h <;> rfl
  | mergeForeign =>
    simp only [step, bind_eq_some_iff] at h
    obtain ⟨pm, -, h⟩ := h
    exact moved_unwind h
  | split =>
    simp only [step, map_eq_some_iff] at h
    obtain ⟨pm, -, h⟩ := h
    split_ifs at h <;> cases h
    · exact hsame silent_nil (by simp)
    · exact .lower rfl (Nat.le_refl _) rfl silent_nil (by simp)
  | addPermits n =>
    simp only [step] at h
    rcases ha : addPermits s.state n with _ | r <;> rw [ha] at h <;> cases h
    · exact hsame (silent_other _) (by simp)
    · obtain ⟨hm, rfl⟩ := addPermits_some ha
      exact .give [.other (.added n)] rfl hm rfl (silent_other _) (by simp)
  | forgetPermits =>
    cases h
    exact .lower rfl (Nat.sub_le _ _) rfl (silent_other _) (by simp)
  | close =>
    cases h
    exact .close

end OhosFfrt.Semaphore.Moves
