import OhosFfrt.Notify.System
import Mathlib.Data.List.Nodup
import Mathlib.Tactic.Common

/-!
# `sync::Notify`: what a step can do

`Wf` is what every section keeps: the queue holds each future at most once, every future in it is
live, waits and has the current generation, and the permit is only stored while the queue is empty
(`wf_run`).
-/

namespace OhosFfrt.Notify.Moves

open Basic Lib.Runs Notify.System List Option

variable {s s' : Sys} {op : Op} {es tr : List Ev} {f i j : ℕ} {fut : FutureState}
  {fs : List FutureState} {flag : Flag}

/-! ## Futures -/

theorem setFlag_of (h : fs[i]? = some fut) :
    setFlag fs i flag = fs.set i { fut with notified := flag } := by
  simp only [setFlag, h]

theorem setFlag_of_none (h : fs[i]? = none) : setFlag fs i flag = fs := by
  simp only [setFlag, h]

theorem release_of (h : fs[i]? = some fut) :
    release fs i = fs.set i { fut with live := false } := by
  simp only [release, h]

theorem getElem?_setFlag_self (h : fs[i]? = some fut) :
    (setFlag fs i flag)[i]? = some { fut with notified := flag } := by
  obtain ⟨hi, -⟩ := List.getElem?_eq_some_iff.mp h
  rw [setFlag_of h, getElem?_set_self hi]

theorem getElem?_setFlag_ne (hij : i ≠ j) : (setFlag fs i flag)[j]? = fs[j]? := by
  rcases h : fs[i]? with _ | fut
  · rw [setFlag_of_none h]
  · rw [setFlag_of h, getElem?_set_ne hij]

theorem getElem?_release_self (h : fs[i]? = some fut) :
    (release fs i)[i]? = some { fut with live := false } := by
  obtain ⟨hi, -⟩ := List.getElem?_eq_some_iff.mp h
  rw [release_of h, getElem?_set_self hi]

theorem getElem?_release_ne (hij : i ≠ j) : (release fs i)[j]? = fs[j]? := by
  rcases h : fs[i]? with _ | fut
  · simp only [release, h]
  · rw [release_of h, getElem?_set_ne hij]

theorem future?_some (h : s.future? f = some fut) :
    s.futures[f]? = some fut ∧ fut.live = true := filter_eq_some_iff.mp h

/-! ## The queue -/

/-- The futures registered. -/
def queued (s : Sys) : List ℕ := s.state.waiters.map Waiter.notified

/-- **The queue and its futures agree.** -/
structure Wf (s : Sys) : Prop where
  nodup : (queued s).Nodup
  entry : ∀ i ∈ queued s, ∃ fut, s.futures[i]? = some fut ∧ fut.live = true ∧
    fut.notified = .waiting ∧ fut.generation = s.state.generation
  permit : s.state.permit = true → s.state.waiters = []

theorem wf_new : Wf new := ⟨by simp [queued, new], by simp [queued, new], by simp [new]⟩

/-- `w` is the waiter at the end of `q` that a notification takes, `q'` is the rest. -/
def Picks (last : Bool) (q : List Waiter) (w : Waiter) (q' : List Waiter) : Prop :=
  q = if last then q' ++ [w] else w :: q'

section picks
variable {last : Bool} {q q' : List Waiter} {w : Waiter}

theorem picks_of_ne_nil (last : Bool) (h : q ≠ []) : ∃ w q', Picks last q w q' := by
  unfold Picks
  rcases last with _ | _
  · obtain ⟨w, q', rfl⟩ := exists_cons_of_ne_nil h
    exact ⟨w, q', rfl⟩
  · exact ⟨q.getLast h, q.dropLast, by simp [dropLast_append_getLast h]⟩

theorem Picks.perm (h : Picks last q w q') : q.Perm (w :: q') := by
  unfold Picks at h
  rw [h]
  rcases last with _ | _
  · exact List.Perm.refl _
  · exact perm_append_singleton _ _

theorem Picks.sublist (h : Picks last q w q') : q'.Sublist q := by
  unfold Picks at h
  rw [h]
  rcases last with _ | _
  · exact sublist_cons_self _ _
  · exact sublist_append_left _ _

theorem Picks.mem (h : Picks last q w q') : w ∈ q := h.perm.mem_iff.mpr mem_cons_self

theorem Picks.not_mem (h : Picks last s.state.waiters w q') (hw : Wf s) :
    w.notified ∉ q'.map Waiter.notified := by
  have hnd := (h.perm.map Waiter.notified).nodup_iff.mp hw.nodup
  rw [map_cons, nodup_cons] at hnd
  exact hnd.1

theorem Wf.entry_of (h : Wf s) (hw : w ∈ s.state.waiters) :
    ∃ fut, s.futures[w.notified]? = some fut ∧ fut.live = true ∧ fut.notified = .waiting ∧
      fut.generation = s.state.generation := h.entry _ (mem_map_of_mem hw)

theorem Wf.alive (h : Wf s) (hw : w ∈ s.state.waiters) : alive s.futures w.notified = true := by
  obtain ⟨fut, hf, hl, -⟩ := h.entry_of hw
  simp [System.alive, hf, hl]

/-- The permit is stored, or it was there already. -/
def storedSys (s : Sys) : Sys := { s with state := { s.state with permit := true, waiters := [] } }

/-- The waiter `w` is selected, `q'` stay in the queue. -/
def selectedSys (s : Sys) (w : Waiter) (q' : List Waiter) : Sys where
  state := { s.state with waiters := q' }
  futures := setFlag s.futures w.notified .one

theorem notifyLocked_nil (h : s.state.waiters = []) :
    notifyLocked s last = (storedSys s, [if s.state.permit then .absorbed else .stored]) := by
  unfold notifyLocked storedSys
  rw [h]
  rcases last with _ | _ <;> rfl

theorem notifyLocked_picks (hw : Wf s) (h : Picks last s.state.waiters w q') :
    notifyLocked s last =
      (selectedSys s w q', .selected w.notified :: wake w.waker) := by
  have ha := hw.alive h.mem
  unfold Picks at h
  unfold notifyLocked selectedSys
  rcases last with _ | _
  · simp only [Bool.false_eq_true, if_false] at h ⊢
    rw [h]
    simp only [pop, ha, if_true]
  · simp only [if_true] at h ⊢
    rw [h, reverse_append]
    simp only [reverse_singleton, singleton_append, pop, ha, if_true,
      reverse_reverse]

theorem notifyLocked_cases (h : Wf s) (last : Bool) :
    (s.state.waiters = [] ∧
      notifyLocked s last = (storedSys s, [if s.state.permit then .absorbed else .stored])) ∨
    ∃ w q', Picks last s.state.waiters w q' ∧
      notifyLocked s last = (selectedSys s w q', .selected w.notified :: wake w.waker) := by
  by_cases hq : s.state.waiters = []
  · exact .inl ⟨hq, notifyLocked_nil hq⟩
  · obtain ⟨w, q', hp⟩ := picks_of_ne_nil last hq
    exact .inr ⟨w, q', hp, notifyLocked_picks h hp⟩

end picks

/-! ## Keeping the queue in order -/

theorem Wf.remove (h : Wf s) (permit : Bool) (fs : List FutureState)
    (hp : permit = true → s.state.permit = true) (hfs : ∀ i, f ≠ i → fs[i]? = s.futures[i]?) :
    Wf ⟨{ removeWaiter s.state f with permit := permit }, fs⟩ := by
  have hq : (s.state.waiters.filter fun w => w.notified ≠ f).map Waiter.notified =
      (queued s).filter fun i => i ≠ f := by
    unfold queued
    rw [List.filter_map]
    rfl
  refine ⟨?_, ?_, fun ht => ?_⟩
  · change ((s.state.waiters.filter _).map Waiter.notified).Nodup
    rw [hq]
    exact h.nodup.filter _
  · intro i hi
    change i ∈ (s.state.waiters.filter _).map Waiter.notified at hi
    rw [hq, mem_filter, decide_eq_true_eq] at hi
    obtain ⟨fut, h1, h2⟩ := h.entry i hi.1
    exact ⟨fut, by rw [hfs i fun hc => hi.2 hc.symm]; exact h1, h2⟩
  · change s.state.waiters.filter _ = []
    rw [h.permit (hp ht)]
    rfl

theorem Wf.not_queued (h : Wf s) (hf : s.futures[f]? = some fut) (hn : fut.notified ≠ .waiting) :
    f ∉ queued s := by
  intro hq
  obtain ⟨fut', h1, -, h3, -⟩ := h.entry f hq
  rw [hf] at h1
  cases h1
  exact hn h3

theorem removeWaiter_of_not_queued (h : f ∉ queued s) : removeWaiter s.state f = s.state := by
  unfold removeWaiter
  rw [filter_eq_self.mpr]
  intro w hw
  rw [decide_eq_true_eq]
  rintro rfl
  exact h (mem_map_of_mem hw)

theorem wf_stored (s : Sys) : Wf (storedSys s) := by
  unfold storedSys
  exact ⟨by simp [queued], by simp [queued], fun _ => rfl⟩

theorem Wf.selected (h : Wf s) {last : Bool} {w : Waiter} {q' : List Waiter}
    (hp : Picks last s.state.waiters w q') : Wf (selectedSys s w q') := by
  refine ⟨h.nodup.sublist (hp.sublist.map _), ?_, fun ht => ?_⟩
  · intro i hi
    have hne : w.notified ≠ i := by
      rintro rfl
      exact hp.not_mem h hi
    obtain ⟨fut, h1, h2⟩ := h.entry i ((hp.sublist.map _).mem hi)
    exact ⟨fut, by rw [← h1]; exact getElem?_setFlag_ne hne, h2⟩
  · have hnil := h.permit ht
    have hmem := hp.mem
    rw [hnil] at hmem
    simp at hmem

theorem Wf.notifyLocked (h : Wf s) (last : Bool) : Wf (notifyLocked s last).1 := by
  rcases notifyLocked_cases h last with ⟨-, he⟩ | ⟨w, q', hp, he⟩ <;> rw [he]
  · exact wf_stored s
  · exact h.selected hp

/-! ## Broadcasts -/

theorem getElem?_notifyAll (i : ℕ) : ∀ (ws : List Waiter) (fs : List FutureState),
    (notifyAll fs ws).1[i]? = fs[i]?.map fun fut =>
      if i ∈ ws.map Waiter.notified ∧ fut.live = true then { fut with notified := .all } else fut
  | [], fs => by simp [notifyAll]
  | w :: ws, fs => by
    unfold notifyAll
    by_cases ha : alive fs w.notified = true
    · rw [if_pos ha]
      simp only [getElem?_notifyAll i ws]
      by_cases hi : w.notified = i
      · subst hi
        obtain ⟨fut, hf, hlive⟩ : ∃ fut, fs[w.notified]? = some fut ∧ fut.live = true := by
          simpa [alive, Option.any_eq_true] using ha
        rw [getElem?_setFlag_self hf, hf]
        simp [hlive]
      · have hi' : ¬ i = w.notified := fun h => hi h.symm
        rw [getElem?_setFlag_ne hi]
        simp only [map_cons, mem_cons, hi', false_or]
    · rw [if_neg ha, getElem?_notifyAll i ws]
      rcases hf : fs[i]? with _ | fut
      · rfl
      · -- a dead future is not in the way, wherever its waiter is
        have hdead : i = w.notified → ¬ fut.live = true := by
          rintro rfl hlive
          exact ha (by simp [alive, hf, hlive])
        simp only [map_some, map_cons, mem_cons]
        by_cases hi : i = w.notified
        · simp [hdead hi]
        · simp [hi]

theorem woke_notifyAll : ∀ (ws : List Waiter) (fs : List FutureState),
    ∀ x ∈ (notifyAll fs ws).2, ∃ w, x = .woke w
  | [], fs => by simp [notifyAll]
  | w :: ws, fs => by
    unfold notifyAll
    split_ifs
    · intro x hx
      rcases mem_append.mp hx with hx | hx
      · obtain ⟨k, -, rfl⟩ := mem_map.mp hx
        exact ⟨k, rfl⟩
      · exact woke_notifyAll ws _ x hx
    · exact woke_notifyAll ws fs

/-! ## Steps -/

/-- **What a step can do** while queue and futures agree. -/
inductive Moved (s : Sys) : Op → Sys → List Ev → Prop
  | create : Moved s .notified
      { s with futures := s.futures ++ [⟨.waiting, s.state.generation, true⟩] }
      [.created s.futures.length]
  | ready {op : Op} {f : ℕ} {fut : FutureState} (hf : s.futures[f]? = some fut)
      (hlive : fut.live = true)
      (hn : fut.notified ≠ .waiting ∨ fut.generation ≠ s.state.generation) :
      Moved s op (complete s f) (if fut.notified = .one then [.tookOne f] else [])
  | permit {op : Op} {f : ℕ} {fut : FutureState} (hf : s.futures[f]? = some fut)
      (hn : fut.notified = .waiting) (hp : s.state.permit = true) :
      Moved s op (complete { s with state := { s.state with permit := false } } f) [.tookPermit f]
  | stay {op : Op} {q' : List Waiter}
      (hq : q'.map Waiter.notified = s.state.waiters.map Waiter.notified)
      (hp : s.state.permit = false) :
      Moved s op { s with state := { s.state with waiters := q' } } []
  | register {op : Op} {f : ℕ} {fut : FutureState} {k : Option Waker}
      (hf : s.futures[f]? = some fut) (hlive : fut.live = true) (hn : fut.notified = .waiting)
      (hg : fut.generation = s.state.generation) (hp : s.state.permit = false)
      (hq : f ∉ queued s) :
      Moved s op { s with state := { s.state with waiters := s.state.waiters ++ [⟨f, k⟩] } }
        [.registered f]
  | drop {f : ℕ} {fut : FutureState} (hf : s.futures[f]? = some fut) (hlive : fut.live = true)
      (hn : fut.notified ≠ .one) :
      Moved s (.dropFuture f) ⟨removeWaiter s.state f, release s.futures f⟩ []
  | forward {f : ℕ} {fut : FutureState} (hf : s.futures[f]? = some fut) (hlive : fut.live = true)
      (hn : fut.notified = .one) :
      Moved s (.dropFuture f)
        { (notifyLocked s false).1 with futures := release (notifyLocked s false).1.futures f }
        (.forwarded f :: (notifyLocked s false).2)
  | notify {op : Op} (last : Bool) :
      Moved s op (notifyLocked s last).1 (.called last :: (notifyLocked s last).2)
  | broadcast : Moved s .notifyWaiters (notifyWaiters s).1 (notifyWaiters s).2

theorem enqueue_cases (st : NotifyState) (f : ℕ) (k : Option Waker) :
    (∃ q', q'.map Waiter.notified = st.waiters.map Waiter.notified ∧
      enqueue st f k = ({ st with waiters := q' }, [])) ∨
    (f ∉ st.waiters.map Waiter.notified ∧
      enqueue st f k = ({ st with waiters := st.waiters ++ [⟨f, k⟩] }, [.registered f])) := by
  rcases hp : st.waiters.findIdx? (fun w => w.notified = f) with _ | p
  · refine .inr ⟨?_, by simp only [enqueue, hp]⟩
    simpa [findIdx?_eq_none_iff] using hp
  · left
    rcases k with _ | cx
    · exact ⟨st.waiters, rfl, by simp only [enqueue, hp]⟩
    · refine ⟨_, ?_, by simp only [enqueue, hp]; rfl⟩
      refine ext_getElem? fun i => ?_
      rw [getElem?_map, getElem?_map, getElem?_modify]
      rcases st.waiters[i]? with _ | w
      · rfl
      · simp only [Option.map_eq_map, Option.map_some]
        split_ifs <;> rfl

theorem moved_poll {k : Option Waker} (h : (s.future? f).map (fun fut =>
    ((pollNotified s f fut k).sys, (pollNotified s f fut k).events)) = some (s', es)) :
    Moved s op s' es := by
  obtain ⟨fut, hfut, ⟨⟩⟩ := map_eq_some_iff.mp h
  obtain ⟨hf, hlive⟩ := future?_some hfut
  unfold pollNotified
  split_ifs with hn hone hp
  · exact (if_pos hone : (if fut.notified = .one then [Ev.tookOne f] else []) = _) ▸
      .ready hf hlive hn
  · exact (if_neg hone : (if fut.notified = .one then [Ev.tookOne f] else []) = _) ▸
      .ready hf hlive hn
  · rw [not_or, not_not, not_not] at hn
    exact .permit hf hn.1 hp
  · rw [not_or, not_not, not_not] at hn
    rw [Bool.not_eq_true] at hp
    rcases enqueue_cases s.state f k with ⟨q', hq, he⟩ | ⟨hq, he⟩ <;> rw [he]
    · exact .stay hq hp
    · exact .register hf hlive hn.1 hn.2 hp hq

theorem step_moved (hw : Wf s) (h : step s op = some (s', es)) : Moved s op s' es := by
  rcases op with _ | ⟨f, cx⟩ | f | f | _ | _ | _
  · cases h
    exact .create
  · exact moved_poll h
  · exact moved_poll h
  · obtain ⟨fut, hfut, ⟨⟩⟩ := map_eq_some_iff.mp h
    obtain ⟨hf, hlive⟩ := future?_some hfut
    unfold cancel
    by_cases hone : fut.notified = .one
    · have hst := removeWaiter_of_not_queued (hw.not_queued hf (by rw [hone]; simp))
      simp only [if_pos hone, hst]
      exact .forward hf hlive hone
    · simp only [if_neg hone]
      exact .drop hf hlive hone
  · cases h
    exact .notify false
  · cases h
    exact .notify true
  · simp only [step, some.injEq] at h
    have hm : Moved s .notifyWaiters (notifyWaiters s).1 (notifyWaiters s).2 := .broadcast
    rw [h] at hm
    exact hm

theorem wf_step (h : Wf s) (hs : step s op = some (s', es)) : Wf s' := by
  cases step_moved h hs with
  | create =>
    refine ⟨h.nodup, fun i hi => ?_, h.permit⟩
    obtain ⟨fut, h1, h2⟩ := h.entry i hi
    obtain ⟨hi', -⟩ := List.getElem?_eq_some_iff.mp h1
    exact ⟨fut, by rw [← h1]; exact getElem?_append_left hi', h2⟩
  | ready => exact h.remove _ _ (fun hp => hp) fun i hi => getElem?_setFlag_ne hi
  | permit =>
    exact h.remove false _ (by simp) fun i hi => getElem?_setFlag_ne hi
  | @stay op q' hq hp =>
    have hqq : queued { s with state := { s.state with waiters := q' } } = queued s := hq
    refine ⟨by rw [hqq]; exact h.nodup, by rw [hqq]; exact h.entry, fun ht => ?_⟩
    rw [show s.state.permit = true from ht] at hp
    simp at hp
  | @register op f fut k hf hlive hn hg hp hq =>
    have hqq : queued { s with state := { s.state with waiters := s.state.waiters ++ [⟨f, k⟩] } } =
        queued s ++ [f] := by simp [queued]
    refine ⟨?_, ?_, fun ht => ?_⟩
    · rw [hqq]
      exact nodup_append.mpr ⟨h.nodup, by simp, by
        rintro a ha b hb rfl
        rw [mem_singleton] at hb
        exact hq (hb ▸ ha)⟩
    · rw [hqq]
      intro i hi
      rcases mem_append.mp hi with hi | hi
      · exact h.entry i hi
      · rw [mem_singleton] at hi
        subst hi
        exact ⟨fut, hf, hlive, hn, hg⟩
    · rw [show s.state.permit = true from ht] at hp
      simp at hp
  | drop => exact h.remove _ _ (fun hp => hp) fun i hi => getElem?_release_ne hi
  | @forward f fut hf hlive hn =>
    have hw := h.notifyLocked false
    have hnq : f ∉ queued (notifyLocked s false).1 := by
      have hnq := h.not_queued hf (by rw [hn]; simp)
      rcases notifyLocked_cases h false with ⟨-, he⟩ | ⟨w, q', hp, he⟩ <;> rw [he]
      · simp [queued, storedSys]
      · exact fun hc => hnq ((hp.sublist.map _).mem hc)
    have hr := hw.remove (f := f) (notifyLocked s false).1.state.permit
      (release (notifyLocked s false).1.futures f) (fun hp => hp)
      fun i hi => getElem?_release_ne hi
    rw [removeWaiter_of_not_queued hnq] at hr
    exact hr
  | notify last => exact h.notifyLocked last
  | broadcast =>
    exact ⟨by simp [queued, notifyWaiters], by simp [queued, notifyWaiters], fun _ => rfl⟩

theorem wf_run {C : List Ev → Sys → Op → Prop} (h : Run step C new tr s) : Wf s :=
  h.inv wf_new fun _ _ _ _ _ hI _ hs => wf_step hI hs

/-! ## The life of a future -/

/-- **What can become of a future's flag** in a step with the events `es`. -/
inductive Flagged (s : Sys) (es : List Ev) (i : ℕ) (fut : FutureState) : Flag → Prop
  | same : Flagged s es i fut fut.notified
  | one (h : .selected i ∈ es) : Flagged s es i fut .one
  | all (h : .broadcast ∈ es) : Flagged s es i fut .all
  | consumed (h : fut.notified ≠ .waiting ∨ fut.generation ≠ s.state.generation) :
      Flagged s es i fut .consumed
  | permit (h : .tookPermit i ∈ es) : Flagged s es i fut .consumed

theorem Flagged.ne_waiting (h : Flagged s es i fut flag) (hn : fut.notified ≠ .waiting) :
    flag ≠ .waiting := by
  cases h with
  | same => exact hn
  | one | all | consumed | permit => simp

/-- The future `fut` has become `fut'` in a step. -/
structure Lives (s : Sys) (es : List Ev) (i : ℕ) (fut fut' : FutureState) : Prop where
  generation : fut'.generation = fut.generation
  live : fut'.live = true → fut.live = true
  flag : Flagged s es i fut fut'.notified

theorem lives_same : Lives s es i fut fut := ⟨rfl, fun h => h, .same⟩

theorem lives_setFlag (hi : s.futures[i]? = some fut) (hflag : i = j → Flagged s es i fut flag) :
    ∃ fut', (setFlag s.futures j flag)[i]? = some fut' ∧ Lives s es i fut fut' := by
  by_cases hij : i = j
  · subst hij
    exact ⟨_, getElem?_setFlag_self hi, rfl, fun h => h, hflag rfl⟩
  · exact ⟨fut, by rw [getElem?_setFlag_ne fun h => hij h.symm]; exact hi, lives_same⟩

theorem lives_release {fut' : FutureState} (hi : fs[i]? = some fut') (h : Lives s es i fut fut') :
    ∃ fut', (release fs j)[i]? = some fut' ∧ Lives s es i fut fut' := by
  by_cases hij : i = j
  · subst hij
    exact ⟨_, getElem?_release_self hi, h.generation, by simp, h.flag⟩
  · exact ⟨fut', by rw [getElem?_release_ne fun h => hij h.symm]; exact hi, h⟩

theorem lives_notifyLocked (h : Wf s) (last : Bool) (hi : s.futures[i]? = some fut)
    (hes : ∀ x ∈ (notifyLocked s last).2, x ∈ es) :
    ∃ fut', (notifyLocked s last).1.futures[i]? = some fut' ∧ Lives s es i fut fut' := by
  rcases notifyLocked_cases h last with ⟨-, he⟩ | ⟨w, q', hp, he⟩ <;> rw [he] at hes ⊢
  · exact ⟨fut, hi, lives_same⟩
  · refine lives_setFlag hi fun hij => ?_
    subst hij
    exact .one (hes _ mem_cons_self)

theorem future_step (h : Wf s) (hs : step s op = some (s', es)) (hi : s.futures[i]? = some fut) :
    ∃ fut', s'.futures[i]? = some fut' ∧ Lives s es i fut fut' := by
  cases step_moved h hs with
  | create =>
    obtain ⟨hlt, -⟩ := List.getElem?_eq_some_iff.mp hi
    exact ⟨fut, by rw [← hi]; exact getElem?_append_left hlt, lives_same⟩
  | ready hf _ hn =>
    refine lives_setFlag hi fun hij => ?_
    subst hij
    rw [hi] at hf
    cases hf
    exact .consumed hn
  | permit =>
    refine lives_setFlag (s := s) hi fun hij => ?_
    subst hij
    exact .permit mem_cons_self
  | stay | register => exact ⟨fut, hi, lives_same⟩
  | drop => exact lives_release hi lives_same
  | forward =>
    obtain ⟨fut', h1, h2⟩ := lives_notifyLocked h false hi fun x hx => mem_cons_of_mem _ hx
    exact lives_release h1 h2
  | notify last => exact lives_notifyLocked h last hi fun x hx => mem_cons_of_mem _ hx
  | broadcast =>
    have hg := getElem?_notifyAll i s.state.waiters s.futures
    rw [hi, map_some] at hg
    refine ⟨_, hg, ?_⟩
    split_ifs
    · exact ⟨rfl, fun h => h, .all mem_cons_self⟩
    · exact lives_same

end OhosFfrt.Notify.Moves
