import OhosFfrt.Lib.Waiting
import OhosFfrt.RwLock.System

/-!
# `sync::RwLock`: what a step can do

The invariants of the following modules are proved once for each of the ways a step can change the
lock (`step_moved`).
-/

namespace OhosFfrt.RwLock.Moves

open Basic Lib.WaitQueue Lib.Waiting RwLock.State RwLock.System Option

/-! ## Polls -/

section poll
variable (s : RwLockState) (w : Option ℕ) (kind : RwLockWaiterKind) (cx : Waker)

theorem pollLock_cases :
    (Unqueued s.waiters w ∧ s.waiters = [] ∧ canAcquire s kind = true ∧
      pollLock s w kind cx = ⟨true, none, acquire s kind, [.barged]⟩) ∨
    (Unqueued s.waiters w ∧ (s.waiters = [] → canAcquire s kind = false) ∧
      pollLock s w kind cx = ⟨false, some s.nextWaiter,
        { s with
          nextWaiter := nextId s.nextWaiter
          waiters := s.waiters ++ [⟨s.nextWaiter, kind, cx⟩] }, [.registered s.nextWaiter]⟩) ∨
    (∃ e q, w = some e.id ∧ s.waiters = e :: q ∧ canAcquire s kind = true ∧
      pollLock s w kind cx = ⟨true, none, popAcquire s kind,
        .granted e.id :: wake (if kind = .read then nextWaker (popAcquire s kind) else none)⟩) ∨
    (∃ id p, w = some id ∧ position s.waiters id = some p ∧
      (p = 0 → canAcquire s kind = false) ∧
      pollLock s w kind cx = ⟨false, some id, { s with waiters := setWaker s.waiters p cx },
        [.polled id]⟩) := by
  have hfresh : Unqueued s.waiters w → pollLock s w kind cx = pollFresh s kind cx := by
    intro hu
    rcases w with _ | id
    · rfl
    · simp [pollLock, hu id rfl]
  rcases place s.waiters (canAcquire s kind) w with
    ⟨hu, hq, hc⟩ | ⟨hu, hc⟩ | ⟨hq, hp, hc⟩ | ⟨hp, hc⟩
  · refine .inl ⟨hu, hq, hc, ?_⟩
    simp [hfresh hu, pollFresh, hq, hc]
  · refine .inr (.inl ⟨hu, hc, ?_⟩)
    rw [hfresh hu, pollFresh, if_neg]
    simpa using hc
  · refine .inr (.inr (.inl ⟨_, _, rfl, hq, hc, ?_⟩))
    simp [pollLock, hp, hc]
  · refine .inr (.inr (.inr ⟨_, _, rfl, hp, hc, ?_⟩))
    simp only [pollLock, hp]
    rw [if_neg]
    simpa using hc

/-- **A poll of the lock is one of its wait queue.** -/
theorem pollLock_polls :
    Polls (canAcquire s) s.nextWaiter s.waiters kind cx w
      (canAcquire (pollLock s w kind cx).state) (pollLock s w kind cx).state.nextWaiter
      (pollLock s w kind cx).state.waiters (pollLock s w kind cx).waiter
      (pollLock s w kind cx).events := by
  rcases pollLock_cases s w kind cx with
    ⟨hu, hq, -, he⟩ | ⟨hu, hc, he⟩ | ⟨e, q, rfl, hq, -, he⟩ | ⟨id, p, rfl, hp, hc, he⟩ <;>
    rw [he]
  · cases kind <;> exact .barge hu hq
  · exact .join hu hc
  · cases kind
    · exact .serve hq (.inl rfl)
    · exact .serve hq (.inr fun k => by cases k <;> rfl)
  · exact .stay hp hc

end poll

theorem cancelWaiter_eq (s : RwLockState) (w : Option ℕ) :
    cancelWaiter s w = ({ s with waiters := (cancel (ε := Empty) (canAcquire s) s.waiters w).1 },
      (cancel (canAcquire s) s.waiters w).2) := by
  rcases w with _ | id
  · rfl
  · simp only [cancelWaiter, cancel]
    rcases position s.waiters id with _ | p <;> rfl

/-! ## Steps -/

/-- The guard that an operation drops: itself, or because its mapping closure panics. -/
def dropped : Op → Option ℕ
  | .dropGuard g | .map g .panics | .tryMap g .panics | .downgradeMap g .panics
  | .tryDowngradeMap g .panics => some g
  | _ => none

/-- The operation tries to take a read lock without looking at the reader limit. -/
def triesRead : Op → Bool
  | .tryRead | .tryReadOwned | .blockingRead => true
  | _ => false

/-- After a poll of `f`. -/
def polledSys (s : Sys) (f : ℕ) (fut : LockFuture) (r : Polled) : Sys where
  state := r.state
  futures := s.futures.set f { fut with waiter := r.waiter }
  guards := if r.ready then s.guards ++ [newGuard fut.kind fut.owned] else s.guards

/-- After the drop of `f`. -/
def cancelledSys (s : Sys) (f : ℕ) (fut : LockFuture) (state : RwLockState) : Sys where
  state := state
  futures := s.futures.set f { fut with waiter := none, live := false }
  guards := s.guards

/-- **What a step can do.** -/
inductive Moved (s : Sys) : Op → Sys → List Ev → Prop
  | create {kind : RwLockWaiterKind} {owned : Bool} : Moved s (.future kind owned)
      { s with futures := s.futures ++ [⟨kind, owned, none, true⟩] } []
  | poll {f : ℕ} {cx : Waker} {fut : LockFuture} (hf : s.future? f = some fut) :
      Moved s (.poll f cx) (polledSys s f fut (pollLock s.state fut.waiter fut.kind cx))
        (pollLock s.state fut.waiter fut.kind cx).events
  | cancel {f : ℕ} {fut : LockFuture} (hf : s.future? f = some fut) :
      Moved s (.dropFuture f) (cancelledSys s f fut (cancelWaiter s.state fut.waiter).1)
        (cancelWaiter s.state fut.waiter).2
  | refuse {op : Op} : Moved s op s []
  | barge {op : Op} {kind : RwLockWaiterKind} {owned : Bool} (hq : s.state.waiters = [])
      (hw : s.state.writer = false) (hr : kind = .write → s.state.readers = 0)
      (hop : kind = .read → triesRead op = true) (ht : kind = .read → tryRead s.state ≠ none) :
      Moved s op { s with
        state := acquire s.state kind
        guards := s.guards ++ [newGuard kind owned] } [.barged]
  | dropRead {op : Op} {g : ℕ} {gd : Guard} {readers : ℕ} (hg : s.guards[g]? = some gd)
      (hr : gd.release? = some .read) (hop : dropped op = some g)
      (hn : s.state.readers = readers + 1) :
      Moved s op { s with
        state := { s.state with readers := readers }
        guards := s.guards.set g .gone }
        (wake (if readers = 0 then nextWaker { s.state with readers := readers } else none))
  | dropWrite {op : Op} {g : ℕ} {gd : Guard} (hg : s.guards[g]? = some gd)
      (hr : gd.release? = some .write) (hop : dropped op = some g) :
      Moved s op { s with state := (releaseWrite s.state).1, guards := s.guards.set g .gone }
        (releaseWrite s.state).2
  | map {op : Op} {g : ℕ} {gd gd' : Guard} (hg : s.guards[g]? = some gd)
      (hm : gd.mapped = some gd') : Moved s op { s with guards := s.guards.set g gd' } []
  | downgrade {op : Op} {g : ℕ} {gd gd' : Guard} (hg : s.guards[g]? = some gd)
      (hm : gd.downgraded = some gd') :
      Moved s op { s with state := (downgradeWrite s.state).1, guards := s.guards.set g gd' }
        (downgradeWrite s.state).2

variable {s s' : Sys} {op : Op} {es : List Ev} {st' : RwLockState} {g : ℕ}

theorem tryRead_some {st : RwLockState} (h : tryRead st = some st') :
    st.waiters = [] ∧ st.writer = false ∧ st' = acquire st .read := by
  unfold tryRead at h
  split_ifs at h with hc
  simp only [some.injEq] at h
  simp only [Bool.or_eq_true, Bool.not_eq_true', not_or, Bool.not_eq_false, List.isEmpty_iff,
    Bool.not_eq_true] at hc
  exact ⟨hc.2, hc.1, h.symm⟩

theorem tryWrite_some {st : RwLockState} (h : tryWrite st = some st') :
    st.waiters = [] ∧ st.writer = false ∧ st.readers = 0 ∧ st' = acquire st .write := by
  unfold tryWrite at h
  split_ifs at h with hc
  simp only [some.injEq] at h
  simp only [Bool.or_eq_true, decide_eq_true_eq, Bool.not_eq_true', not_or, Bool.not_eq_false,
    List.isEmpty_iff, Bool.not_eq_true, not_not] at hc
  exact ⟨hc.2, hc.1.1, hc.1.2, h.symm⟩

theorem moved_tryRead (owned : Bool) (hop : triesRead op = true)
    (h : s.tried (tryRead s.state) (newGuard .read owned) = (s', es)) : Moved s op s' es := by
  rcases ht : tryRead s.state with _ | st <;> rw [ht] at h <;> cases h
  · exact .refuse
  · obtain ⟨h1, h2, rfl⟩ := tryRead_some ht
    exact .barge h1 h2 (by simp) (fun _ => hop) (fun _ => by simp [ht])

theorem moved_tryWrite (owned : Bool)
    (h : s.tried (tryWrite s.state) (newGuard .write owned) = (s', es)) : Moved s op s' es := by
  rcases ht : tryWrite s.state with _ | st <;> rw [ht] at h <;> cases h
  · exact .refuse
  · obtain ⟨h1, h2, h3, rfl⟩ := tryWrite_some ht
    exact .barge h1 h2 (fun _ => h3) (by simp) (by simp)

theorem moved_drop (hop : dropped op = some g) (h : s.drop g = some (s', es)) :
    Moved s op s' es := by
  simp only [Sys.drop, bind_eq_some_iff] at h
  obtain ⟨rel, ⟨gd, hg, hr⟩, h⟩ := h
  rcases rel with _ | _
  · obtain ⟨r, hread, ⟨⟩⟩ := map_eq_some_iff.mp h
    obtain ⟨n, hn, rfl⟩ := map_eq_some_iff.mp hread
    exact .dropRead hg hr hop (checkedSub_eq_some hn)
  · cases h
    exact .dropWrite hg hr hop

theorem moved_map (h : s.mapTo g = some (s', es)) : Moved s op s' es := by
  simp only [Sys.mapTo, Option.map_eq_some_iff, Option.bind_eq_some_iff, Prod.mk.injEq] at h
  obtain ⟨gd', ⟨gd, hg, hm⟩, rfl, rfl⟩ := h
  exact .map hg hm

theorem moved_downgrade (h : s.downgradeTo g = some (s', es)) : Moved s op s' es := by
  simp only [Sys.downgradeTo, map_eq_some_iff, bind_eq_some_iff, Prod.mk.injEq] at h
  obtain ⟨gd', ⟨gd, hg, hm⟩, rfl, rfl⟩ := h
  exact .downgrade hg hm

theorem moved_refuse {o : Option Guard} (h : (o.map fun _ => (s, ([] : List Ev))) = some (s', es)) :
    Moved s op s' es := by
  obtain ⟨-, -, ⟨⟩⟩ := map_eq_some_iff.mp h
  exact .refuse

theorem step_moved (h : step s op = some (s', es)) : Moved s op s' es := by
  cases op with
  | future =>
    cases h
    exact .create
  | poll =>
    obtain ⟨fut, hf, ⟨⟩⟩ := map_eq_some_iff.mp h
    exact .poll hf
  | dropFuture =>
    obtain ⟨fut, hf, ⟨⟩⟩ := map_eq_some_iff.mp h
    exact .cancel hf
  | tryRead | blockingRead => exact moved_tryRead false rfl (some.inj h)
  | tryReadOwned => exact moved_tryRead true rfl (some.inj h)
  | tryWrite | blockingWrite => exact moved_tryWrite false (some.inj h)
  | tryWriteOwned => exact moved_tryWrite true (some.inj h)
  | dropGuard => exact moved_drop rfl h
  | map g c =>
    cases c with
    | returns => exact moved_map h
    | refuses => simp [step] at h
    | panics =>
      simp only [step, bind_eq_some_iff] at h
      obtain ⟨-, -, h⟩ := h
      exact moved_drop rfl h
  | tryMap g c =>
    cases c with
    | returns => exact moved_map h
    | refuses => exact moved_refuse h
    | panics =>
      simp only [step, bind_eq_some_iff] at h
      obtain ⟨-, -, h⟩ := h
      exact moved_drop rfl h
  | intoMapped =>
    simp only [step, bind_eq_some_iff] at h
    obtain ⟨-, -, h⟩ := h
    exact moved_map h
  | downgrade => exact moved_downgrade h
  | downgradeMap g c =>
    cases c with
    | returns => exact moved_downgrade h
    | refuses => simp [step] at h
    | panics =>
      simp only [step, bind_eq_some_iff] at h
      obtain ⟨-, -, h⟩ := h
      exact moved_drop rfl h
  | tryDowngradeMap g c =>
    cases c with
    | returns => exact moved_downgrade h
    | refuses => exact moved_refuse h
    | panics =>
      simp only [step, bind_eq_some_iff] at h
      obtain ⟨-, -, h⟩ := h
      exact moved_drop rfl h

end OhosFfrt.RwLock.Moves
