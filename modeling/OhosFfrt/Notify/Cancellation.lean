import OhosFfrt.Notify.Moves

/-!
# `sync::Notify`: dropping the future that was selected

A selected future that is dropped before its next poll hands its notification on.  `cancel` hands it
to the first waiter, whichever end of the queue the notification had chosen.  `notify_then_drop`
says when this makes no difference.
-/

namespace OhosFfrt.Notify.Cancellation

open Lib.Runs Notify.System Notify.Moves List Option

variable {s : Sys} {tr : List Ev} {last : Bool} {q q' q₁ : List Waiter} {v v' w : Waiter}
  {fut : FutureState} {fs gs : List FutureState} {i j : ℕ}

/-- `notify_one` or `notify_last`. -/
def notifyOp (last : Bool) : Op := if last then .notifyLast else .notifyOne

theorem step_notifyOp (s : Sys) (last : Bool) :
    step s (notifyOp last) =
      some ((notifyLocked s last).1, .called last :: (notifyLocked s last).2) := by
  rcases last with _ | _ <;> rfl

theorem Picks.filter (h : Picks last s.state.waiters w q) (hw : Wf s) :
    s.state.waiters.filter (fun x => x.notified ≠ w.notified) = q := by
  have hq : q.filter (fun x => x.notified ≠ w.notified) = q := by
    refine filter_eq_self.mpr fun x hx => ?_
    rw [decide_eq_true_eq]
    intro hc
    exact h.not_mem hw (hc ▸ mem_map_of_mem hx)
  have hw' : List.filter (fun x => x.notified ≠ w.notified) [w] = [] := by simp
  unfold Moves.Picks at h
  rw [h]
  rcases last with _ | _
  · simp only [Bool.false_eq_true, if_false]
    rw [← singleton_append, filter_append, hw', hq, nil_append]
  · simp only [if_true]
    rw [filter_append, hw', hq, append_nil]

theorem picks_rest_iff (hnd : (q.map Waiter.notified).Nodup) (h : Picks false q v q₁)
    (h' : Picks last q v' q') : q₁ = q' ↔ last = false ∨ q.length ≤ 1 := by
  unfold Picks at h h'
  simp only [Bool.false_eq_true, if_false] at h
  subst h
  rcases last with _ | _
  · simp only [Bool.false_eq_true, if_false, List.cons.injEq] at h'
    simp [h'.2]
  · simp only [if_true] at h'
    constructor
    · rintro rfl
      right
      rcases q₁ with _ | ⟨x, q₁⟩
      · simp
      · -- the first waiter would be queued twice
        simp only [cons_append, List.cons.injEq] at h'
        rw [map_cons, nodup_cons] at hnd
        exact absurd (by simp [h'.1]) hnd.1
    · rintro (hc | hlen)
      · simp at hc
      · simp only [length_cons] at hlen
        have hlen' := congrArg List.length h'
        simp only [length_cons, length_append, length_nil] at hlen'
        rw [length_eq_zero_iff.mp (show q₁.length = 0 by omega),
          length_eq_zero_iff.mp (show q'.length = 0 by omega)]

theorem eq_of_cons_eq_snoc : ∀ {l : List Waiter} {a b : Waiter}, a :: l = l ++ [b] → a = b
  | [], a, b, h => by simpa using h
  | x :: l, a, b, h => by
    rw [cons_append, List.cons.injEq] at h
    rw [h.1]
    exact eq_of_cons_eq_snoc h.2

theorem picks_head_eq (h : Picks false q v q₁) (h' : Picks last q v' q₁) : v = v' := by
  unfold Picks at h h'
  simp only [Bool.false_eq_true, if_false] at h
  rw [h] at h'
  rcases last with _ | _
  · exact (List.cons.inj h').1
  · exact eq_of_cons_eq_snoc h'

theorem getElem?_setFlag_congr (flag : Flag) (h : fs[i]? = gs[i]?) :
    (setFlag fs j flag)[i]? = (setFlag gs j flag)[i]? := by
  by_cases hij : j = i
  · subst hij
    rcases hf : fs[j]? with _ | fut
    · rw [setFlag_of_none hf, setFlag_of_none (h ▸ hf), h]
    · rw [getElem?_setFlag_self hf, getElem?_setFlag_self (h ▸ hf)]
  · rw [getElem?_setFlag_ne hij, getElem?_setFlag_ne hij, h]

/-- The futures other than `f` are the same. -/
def SameOthers (f : ℕ) (fs gs : List FutureState) : Prop := ∀ i, f ≠ i → fs[i]? = gs[i]?

/-- **Handing on and notifying afresh** from the same queue: the same exactly if both take the same
end of it. -/
theorem notifyLocked_agree (last : Bool) {s t : Sys} {f : ℕ} (hs : Wf s) (ht : Wf t)
    (hst : s.state = t.state) (hfs : SameOthers f s.futures t.futures) :
    ((notifyLocked s false).1.state = (notifyLocked t last).1.state ∧
      SameOthers f (notifyLocked s false).1.futures (notifyLocked t last).1.futures) ↔
    last = false ∨ s.state.waiters.length ≤ 1 := by
  rcases notifyLocked_cases hs false with ⟨hq, he⟩ | ⟨v, q₁, hp, he⟩
  · rw [he, notifyLocked_nil (by rw [← hst]; exact hq)]
    refine iff_of_true ⟨?_, hfs⟩ (.inr (by rw [hq]; simp))
    simp only [storedSys, hst]
  · have hne : t.state.waiters ≠ [] := by
      rw [← hst]
      exact ne_nil_of_mem hp.mem
    obtain ⟨v', q', hp'⟩ := picks_of_ne_nil last hne
    rw [he, notifyLocked_picks ht hp']
    rw [← hst] at hp'
    rw [← picks_rest_iff hs.nodup hp hp']
    simp only [selectedSys, hst, NotifyState.mk.injEq, true_and]
    constructor
    · rintro ⟨rfl, -⟩
      rfl
    · rintro rfl
      rw [picks_head_eq hp hp']
      exact ⟨rfl, fun i hi => getElem?_setFlag_congr _ (hfs i hi)⟩

/-- **Notifying and then dropping the selected future** is the same as dropping it and then
notifying, for the `Notify` and for all other futures, exactly if the notification is a `notify_one`
or at most two futures are registered. -/
theorem notify_then_drop (h : Run step Any new tr s) (hq : s.state.waiters ≠ []) (last : Bool) :
    ∃ f s₁ e₁ s₂ e₂ t₁ d₁ t₂ d₂,
      step s (notifyOp last) = some (s₁, e₁) ∧ .selected f ∈ e₁ ∧
      step s₁ (.dropFuture f) = some (s₂, e₂) ∧
      step s (.dropFuture f) = some (t₁, d₁) ∧ step t₁ (notifyOp last) = some (t₂, d₂) ∧
      ((s₂.state = t₂.state ∧ ∀ i, f ≠ i → s₂.futures[i]? = t₂.futures[i]?) ↔
        last = false ∨ s.state.waiters.length ≤ 2) := by
  have hw := wf_run h
  obtain ⟨w, q, hp⟩ := picks_of_ne_nil last hq
  obtain ⟨fut, hf, hlive, hn, -⟩ := hw.entry_of hp.mem
  have hlen : s.state.waiters.length = q.length + 1 := hp.perm.length_eq
  -- the notification selects `w`, and the drop hands it on
  have hs₁ : step s (notifyOp last) = some (selectedSys s w q,
      .called last :: .selected w.notified :: wake w.waker) := by
    rw [step_notifyOp, notifyLocked_picks hw hp]
  have hw₁ := wf_step hw hs₁
  have hf₁ : (selectedSys s w q).futures[w.notified]? = some { fut with notified := .one } :=
    getElem?_setFlag_self hf
  have hfut₁ : (selectedSys s w q).future? w.notified = some { fut with notified := .one } :=
    filter_eq_some_iff.mpr ⟨hf₁, hlive⟩
  have hnq : w.notified ∉ queued (selectedSys s w q) := hw₁.not_queued hf₁ (by simp)
  have hs₂ : step (selectedSys s w q) (.dropFuture w.notified) =
      some ({ (notifyLocked (selectedSys s w q) false).1 with
        futures := release (notifyLocked (selectedSys s w q) false).1.futures w.notified },
        .forwarded w.notified :: (notifyLocked (selectedSys s w q) false).2) := by
    simp only [step, hfut₁, map_some, cancel, if_true, removeWaiter_of_not_queued hnq]
  -- the drop alone takes `w` out of the queue
  have ht₁ : step s (.dropFuture w.notified) =
      some (⟨{ s.state with waiters := q }, release s.futures w.notified⟩, []) := by
    have hfut : s.future? w.notified = some fut := filter_eq_some_iff.mpr ⟨hf, hlive⟩
    have hne : ¬ fut.notified = .one := by rw [hn]; simp
    simp only [step, hfut, map_some, cancel, if_neg hne, removeWaiter]
    rw [Picks.filter hp hw]
  have hwt := wf_step hw ht₁
  have hagree := notifyLocked_agree last (f := w.notified) hw₁ hwt rfl fun i hi => by
    rw [show (selectedSys s w q).futures[i]? = s.futures[i]? from getElem?_setFlag_ne hi]
    exact (getElem?_release_ne hi).symm
  refine ⟨w.notified, _, _, _, _, _, _, _, _, hs₁, by simp, hs₂, ht₁, step_notifyOp _ _, ?_⟩
  have hrest : (selectedSys s w q).state.waiters.length = q.length := rfl
  rw [hlen, show q.length + 1 ≤ 2 ↔ q.length ≤ 1 by omega, ← hrest, ← hagree]
  refine and_congr_right fun _ => forall_congr' fun i => ?_
  refine imp_congr_right fun hi => ?_
  rw [show (release (notifyLocked (selectedSys s w q) false).1.futures w.notified)[i]? =
    (notifyLocked (selectedSys s w q) false).1.futures[i]? from getElem?_release_ne hi]

/-- With two futures registered the newer one is selected and dropped; the older one has the
notification in both orders. -/
theorem notify_then_drop_two : ∃ s tr,
    exec step new [.notified, .notified, .poll 0 7, .poll 1 8] = some (s, tr) ∧
    s.state.waiters.length = 2 ∧
    ∃ f s₁ e₁ s₂ e₂ t₁ d₁ t₂ d₂,
      step s .notifyLast = some (s₁, e₁) ∧ .selected f ∈ e₁ ∧
      step s₁ (.dropFuture f) = some (s₂, e₂) ∧
      step s (.dropFuture f) = some (t₁, d₁) ∧ step t₁ .notifyLast = some (t₂, d₂) ∧
      s₂.state = t₂.state := by
  refine ⟨_, _, rfl, rfl, ?_⟩
  have h := run_exec [.notified, .notified, .poll 0 7, .poll 1 8]
    (show exec step new _ = some _ from rfl)
  obtain ⟨f, s₁, e₁, s₂, e₂, t₁, d₁, t₂, d₂, h1, h2, h3, h4, h5, h6⟩ :=
    notify_then_drop h (cons_ne_nil _ _) true
  exact ⟨f, s₁, e₁, s₂, e₂, t₁, d₁, t₂, d₂, h1, h2, h3, h4, h5, (h6.mpr (.inr (by decide))).1⟩

/-- With three futures registered the newest one is selected by `notify_last` and dropped: its
notification goes to the oldest instead of the newest of the other two. -/
theorem forwarded_to_oldest : ¬ ∀ tr s last f s₁ e₁ s₂ e₂ t₁ d₁ t₂ d₂,
    Run step Any new tr s → step s (notifyOp last) = some (s₁, e₁) → .selected f ∈ e₁ →
    step s₁ (.dropFuture f) = some (s₂, e₂) → step s (.dropFuture f) = some (t₁, d₁) →
    step t₁ (notifyOp last) = some (t₂, d₂) →
    s₂.state = t₂.state ∧ ∀ i, f ≠ i → s₂.futures[i]? = t₂.futures[i]? := by
  intro h
  have hrun := run_exec [.notified, .notified, .notified, .poll 0 7, .poll 1 8, .poll 2 9]
    (show exec step new _ = some _ from rfl)
  have hs := (h _ _ true 2 _ _ _ _ _ _ _ _ hrun rfl (by decide) rfl rfl rfl).1
  exact absurd hs (by decide)

end OhosFfrt.Notify.Cancellation
