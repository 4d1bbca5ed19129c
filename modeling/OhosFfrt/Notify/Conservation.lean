import OhosFfrt.Lib.Arena
import OhosFfrt.Notify.Moves

/-!
# `sync::Notify`: no notification is lost or doubled

A notification sits in one of two places until a poll consumes it: it is the permit, or it belongs
to a selected future (`notify_conserves`).
-/

namespace OhosFfrt.Notify.Conservation

open Basic Lib.Runs Notify.System Notify.Moves List Option
open Lib.Arena (countP_set)

variable {s s' : Sys} {op : Op} {es tr : List Ev} {f i : ℕ} {fut : FutureState}
  {fs : List FutureState} {C : List Ev → Sys → Op → Prop}

/-! ## The account -/

/-- The future is selected and was not polled since. -/
def isSelected (fut : FutureState) : Bool := fut.live && decide (fut.notified = .one)

/-- The futures chosen by `notify_one`. -/
def selected (s : Sys) : ℕ := s.futures.countP isSelected

/-- The calls of `notify_one`. -/
def calls (tr : List Ev) : ℕ := tr.countP fun | .called _ => true | _ => false

/-- The notifications consumed. -/
def consumed (tr : List Ev) : ℕ := tr.countP fun | .tookOne _ | .tookPermit _ => true | _ => false

/-- Notifications that found no waiter and the permit already stored. -/
def absorbed (tr : List Ev) : ℕ := tr.countP fun | .absorbed => true | _ => false

/-- **The account of a step**: what `d` calls bring in goes to a poll, a future, the permit, or is
absorbed. -/
def Balance (s : Sys) (d : ℕ) (es : List Ev) (s' : Sys) : Prop :=
  selected s + s.state.permit.toNat + d =
    selected s' + s'.state.permit.toNat + consumed es + absorbed es

theorem calls_append (tr es : List Ev) : calls (tr ++ es) = calls tr + calls es :=
  countP_append

theorem consumed_append (tr es : List Ev) : consumed (tr ++ es) = consumed tr + consumed es :=
  countP_append

theorem absorbed_append (tr es : List Ev) : absorbed (tr ++ es) = absorbed tr + absorbed es :=
  countP_append

theorem Balance.cons {d : ℕ} {e : Ev} (h : Balance s d es s') (hc : consumed [e] = 0)
    (ha : absorbed [e] = 0) : Balance s d (e :: es) s' := by
  have h1 := consumed_append [e] es
  have h2 := absorbed_append [e] es
  unfold Balance at *
  rw [← singleton_append]
  omega

theorem isSelected_ne (h : fut.notified ≠ .one) : isSelected fut = false := by
  simp [isSelected, h]

theorem countP_setFlag (flag : Flag) (h : fs[i]? = some fut) (hlive : fut.live = true) :
    (setFlag fs i flag).countP isSelected + (decide (fut.notified = .one)).toNat =
      fs.countP isSelected + (decide (flag = .one)).toNat := by
  have hc := countP_set (p := isSelected) (b := { fut with notified := flag }) h
  rw [setFlag_of h]
  simpa only [isSelected, hlive, Bool.true_and] using hc

theorem countP_release (h : fs[i]? = some fut) (hlive : fut.live = true) :
    (release fs i).countP isSelected + (decide (fut.notified = .one)).toNat =
      fs.countP isSelected := by
  have hc := countP_set (p := isSelected) (b := { fut with live := false }) h
  rw [release_of h]
  simpa only [isSelected, hlive, Bool.true_and, Bool.false_and, Bool.toNat_false,
    Nat.add_zero] using hc

theorem counts_wake (o : Option Waker) : consumed (wake o) = 0 ∧ absorbed (wake o) = 0 := by
  rcases o with _ | w
  · exact ⟨rfl, rfl⟩
  · exact ⟨rfl, rfl⟩

theorem balance_notifyLocked (h : Wf s) (last : Bool) :
    Balance s 1 (notifyLocked s last).2 (notifyLocked s last).1 := by
  rcases notifyLocked_cases h last with ⟨-, he⟩ | ⟨w, q', hp, he⟩ <;> rw [he]
  · unfold Balance
    change selected s + _ + 1 = selected s + 1 + _ + _
    rcases s.state.permit with _ | _ <;> simp [consumed, absorbed]
  · obtain ⟨fut, hf, hlive, hn, -⟩ := h.entry_of hp.mem
    have hc := countP_setFlag .one hf hlive
    obtain ⟨h1, h2⟩ := counts_wake w.waker
    refine Balance.cons ?_ rfl rfl
    unfold Balance
    rw [h1, h2]
    simp only [hn, reduceCtorEq, decide_false, decide_true, Bool.toNat_false, Bool.toNat_true] at hc
    change s.futures.countP isSelected + s.state.permit.toNat + 1 =
      (setFlag s.futures w.notified .one).countP isSelected + s.state.permit.toNat + 0 + 0
    omega

theorem calls_notifyLocked (h : Wf s) (last : Bool) : calls (notifyLocked s last).2 = 0 := by
  rcases notifyLocked_cases h last with ⟨-, he⟩ | ⟨w, q', hp, he⟩ <;> rw [he]
  · rcases s.state.permit with _ | _ <;> rfl
  · rcases w.waker with _ | k <;> rfl

/-! ## Polls and drops -/

theorem balance_ready (hf : s.futures[f]? = some fut) (hlive : fut.live = true) :
    Balance s 0 (if fut.notified = .one then [.tookOne f] else []) (complete s f) := by
  have hc := countP_setFlag .consumed hf hlive
  unfold Balance selected
  change s.futures.countP isSelected + s.state.permit.toNat + _ =
    (setFlag s.futures f .consumed).countP isSelected + s.state.permit.toNat + _ + _
  by_cases hone : fut.notified = .one
  · simp only [hone, if_true, decide_true, reduceCtorEq, decide_false, Bool.toNat_true,
      Bool.toNat_false] at hc ⊢
    simp only [consumed, absorbed, countP_singleton, Bool.false_eq_true, if_false, if_true]
    omega
  · simp only [hone, if_false, reduceCtorEq, decide_false, Bool.toNat_false] at hc ⊢
    simp only [consumed, absorbed, countP_nil]
    omega

theorem balance_permit (hf : s.futures[f]? = some fut) (hn : fut.notified = .waiting)
    (hp : s.state.permit = true) : Balance s 0 [.tookPermit f]
      (complete { s with state := { s.state with permit := false } } f) := by
  have hc : (setFlag s.futures f .consumed).countP isSelected = s.futures.countP isSelected := by
    have hc := countP_set (p := isSelected) (b := { fut with notified := .consumed }) hf
    rw [isSelected_ne (by rw [hn]; simp), isSelected_ne (by simp)] at hc
    rw [setFlag_of hf]
    simpa using hc
  unfold Balance selected
  rw [hp]
  change _ = (setFlag s.futures f .consumed).countP isSelected + 0 + 1 + 0
  rw [hc]
  rfl

theorem notifyLocked_kept (h : Wf s) (last : Bool) (hf : s.futures[f]? = some fut)
    (hn : fut.notified = .one) : (notifyLocked s last).1.futures[f]? = some fut := by
  rcases notifyLocked_cases h last with ⟨-, he⟩ | ⟨w, q', hp, he⟩ <;> rw [he]
  · exact hf
  · have hne : w.notified ≠ f := by
      rintro rfl
      exact h.not_queued hf (by rw [hn]; simp) (mem_map_of_mem hp.mem)
    rw [← hf]
    exact getElem?_setFlag_ne hne

theorem balance_forward (h : Wf s) (hf : s.futures[f]? = some fut) (hlive : fut.live = true)
    (hn : fut.notified = .one) : Balance s 0 (.forwarded f :: (notifyLocked s false).2)
      { (notifyLocked s false).1 with futures := release (notifyLocked s false).1.futures f } := by
  refine Balance.cons ?_ rfl rfl
  have hb := balance_notifyLocked h false
  have hc := countP_release (notifyLocked_kept h false hf hn) hlive
  simp only [hn, decide_true, Bool.toNat_true] at hc
  unfold Balance selected at *
  change _ = (release (notifyLocked s false).1.futures f).countP isSelected +
    (notifyLocked s false).1.state.permit.toNat + _ + _
  omega

/-! ## Broadcasts -/

theorem selected_notifyWaiters (h : Wf s) : selected (notifyWaiters s).1 = selected s := by
  have hmap : (notifyAll s.futures s.state.waiters).1.map isSelected =
      s.futures.map isSelected := by
    refine ext_getElem? fun i => ?_
    rw [List.getElem?_map, List.getElem?_map, getElem?_notifyAll, Option.map_map]
    rcases hf : s.futures[i]? with _ | fut
    · rfl
    · simp only [map_some, Function.comp_apply]
      by_cases hc : i ∈ s.state.waiters.map Waiter.notified ∧ fut.live = true
      · obtain ⟨fut', hf', -, hn, -⟩ := h.entry i hc.1
        rw [hf, some.injEq] at hf'
        subst hf'
        rw [if_pos hc, isSelected_ne (by simp), isSelected_ne (by rw [hn]; simp)]
      · rw [if_neg hc]
  have hcount : ∀ l : List FutureState, l.countP isSelected = (l.map isSelected).countP id := by
    intro l
    rw [countP_map]
    rfl
  unfold selected notifyWaiters
  rw [hcount, hcount, hmap]

theorem countP_wokes {p : Ev → Bool} {es : List Ev} (h : ∀ x ∈ es, ∃ w, x = .woke w)
    (hp : ∀ w, p (.woke w) = false) : es.countP p = 0 := by
  rw [countP_eq_zero]
  intro x hx
  obtain ⟨w, rfl⟩ := h x hx
  simp [hp]

theorem balance_notifyWaiters (h : Wf s) :
    calls (notifyWaiters s).2 = 0 ∧ Balance s 0 (notifyWaiters s).2 (notifyWaiters s).1 := by
  have hw := woke_notifyAll s.state.waiters s.futures
  refine ⟨?_, Balance.cons ?_ rfl rfl⟩
  · unfold notifyWaiters calls
    rw [countP_cons_of_neg (by simp), countP_wokes hw (by simp)]
  · unfold Balance
    rw [selected_notifyWaiters h]
    unfold consumed absorbed
    rw [countP_wokes hw (by simp), countP_wokes hw (by simp)]
    rfl

/-! ## Steps and runs -/

theorem balance_step (h : Wf s) (hs : step s op = some (s', es)) : Balance s (calls es) es s' := by
  cases step_moved h hs with
  | create =>
    unfold Balance selected
    rw [countP_append]
    simp [calls, consumed, absorbed, isSelected]
  | @ready op f fut hf hlive =>
    have hcalls : calls (if fut.notified = .one then [.tookOne f] else []) = 0 := by
      split_ifs <;> rfl
    rw [hcalls]
    exact balance_ready hf hlive
  | permit hf hn hp => exact balance_permit hf hn hp
  | stay | register => exact rfl
  | @drop f fut hf hlive hn =>
    have hc := countP_release hf hlive
    simp only [hn, decide_false, Bool.toNat_false, Nat.add_zero] at hc
    unfold Balance selected
    change _ = (release s.futures f).countP isSelected + s.state.permit.toNat + 0 + 0
    rw [hc]
    rfl
  | @forward f fut hf hlive hn =>
    have hcalls := calls_append [.forwarded f] (notifyLocked s false).2
    rw [calls_notifyLocked h, singleton_append] at hcalls
    rw [hcalls]
    exact balance_forward h hf hlive hn
  | notify last =>
    have hcalls := calls_append [.called last] (notifyLocked s last).2
    rw [calls_notifyLocked h, singleton_append] at hcalls
    rw [hcalls]
    exact (balance_notifyLocked h last).cons rfl rfl
  | broadcast =>
    rw [(balance_notifyWaiters h).1]
    exact (balance_notifyWaiters h).2

/-- Every call is accounted for. -/
theorem balance_run (h : Run step C new tr s) :
    calls tr = consumed tr + selected s + s.state.permit.toNat + absorbed tr := by
  have ha := h.along fun _ _ => wf_run
  refine ha.inv (I := fun tr s => calls tr = consumed tr + selected s + s.state.permit.toNat +
    absorbed tr) rfl ?_
  rintro tr s op s' es hI ⟨-, hw⟩ hs
  have hb := balance_step hw hs
  unfold Balance at hb
  rw [calls_append, consumed_append, absorbed_append]
  omega

/-! ## Registrations -/

/-- The futures that registered. -/
def registrations (tr : List Ev) : List ℕ :=
  tr.filterMap fun | .registered f => some f | _ => none

theorem registrations_append (tr es : List Ev) :
    registrations (tr ++ es) = registrations tr ++ registrations es := filterMap_append ..

/-- The future will not register any more: it is gone, or it was notified. -/
def Spent (fs : List FutureState) (i : ℕ) : Prop :=
  ∃ fut, fs[i]? = some fut ∧ (fut.live = true → fut.notified ≠ .waiting)

theorem spent_step (hw : Wf s) (hs : step s op = some (s', es)) (h : Spent s.futures i) :
    Spent s'.futures i := by
  obtain ⟨fut, hi, hsp⟩ := h
  obtain ⟨fut', hi', hl⟩ := future_step hw hs hi
  exact ⟨fut', hi', fun hlive => hl.flag.ne_waiting (hsp (hl.live hlive))⟩

/-- **The queue in a step**: it shrinks, or one future that was not spent joins. -/
theorem queued_step (hw : Wf s) (hs : step s op = some (s', es)) :
    (registrations es = [] ∧ (queued s').Sublist (queued s)) ∨
    ∃ f, es = [.registered f] ∧ queued s' = queued s ++ [f] ∧ f ∉ queued s ∧
      ¬ Spent s.futures f := by
  have hsub : ∀ f, ((removeWaiter s.state f).waiters.map Waiter.notified).Sublist (queued s) :=
    fun f => filter_sublist.map _
  have hlocked : ∀ last, registrations (notifyLocked s last).2 = [] ∧
      (queued (notifyLocked s last).1).Sublist (queued s) := by
    intro last
    rcases notifyLocked_cases hw last with ⟨-, he⟩ | ⟨w, q', hp, he⟩ <;> rw [he]
    · refine ⟨?_, nil_sublist _⟩
      rcases s.state.permit with _ | _ <;> rfl
    · refine ⟨?_, hp.sublist.map _⟩
      rcases w.waker with _ | k <;> rfl
  cases step_moved hw hs with
  | create => exact .inl ⟨rfl, List.Sublist.refl _⟩
  | @ready op f =>
    refine .inl ⟨?_, hsub f⟩
    split_ifs <;> rfl
  | @permit op f | @drop f => exact .inl ⟨rfl, hsub f⟩
  | @stay op q' hq =>
    refine .inl ⟨rfl, ?_⟩
    unfold queued
    rw [show ({ s with state := { s.state with waiters := q' } } : Sys).state.waiters.map _ = _
      from hq]
  | @register op f fut k hf hlive hn hg hp hq =>
    refine .inr ⟨f, rfl, by simp [queued], hq, ?_⟩
    rintro ⟨fut', hf', hsp⟩
    rw [hf, some.injEq] at hf'
    subst hf'
    exact hsp hlive hn
  | forward => exact .inl (hlocked false)
  | notify last => exact .inl (hlocked last)
  | broadcast =>
    refine .inl ⟨?_, nil_sublist _⟩
    refine filterMap_eq_nil_iff.mpr fun x hx => ?_
    rcases mem_cons.mp hx with rfl | hx
    · rfl
    · obtain ⟨w, rfl⟩ := woke_notifyAll _ _ x hx
      rfl

theorem spent_of_left (hw : Wf s) (hs : step s op = some (s', es)) (hi : i ∈ queued s) :
    i ∈ queued s' ∨ Spent s'.futures i := by
  obtain ⟨fut, hfi, hlive, -⟩ := hw.entry i hi
  have hremove : ∀ f, f ≠ i → i ∈ (removeWaiter s.state f).waiters.map Waiter.notified := by
    intro f hne
    obtain ⟨w, hmem, rfl⟩ := mem_map.mp hi
    exact mem_map_of_mem (mem_filter.mpr ⟨hmem, by simpa using fun h => hne h.symm⟩)
  have hlocked : ∀ last, i ∈ queued (notifyLocked s last).1 ∨
      Spent (notifyLocked s last).1.futures i := by
    intro last
    rcases notifyLocked_cases hw last with ⟨hq, he⟩ | ⟨w, q', hp, he⟩ <;> rw [he]
    · simp [queued, hq] at hi
    · have hi' := (hp.perm.map Waiter.notified).mem_iff.mp hi
      rw [map_cons, mem_cons] at hi'
      rcases hi' with rfl | hi'
      · exact .inr ⟨_, getElem?_setFlag_self hfi, by simp⟩
      · exact .inl hi'
  cases step_moved hw hs with
  | create => exact .inl hi
  | @ready op f | @permit op f =>
    by_cases hfe : f = i
    · subst hfe
      exact .inr ⟨_, getElem?_setFlag_self hfi, by simp⟩
    · exact .inl (hremove f hfe)
  | stay hq => exact .inl (by unfold queued at *; rw [← hq] at hi; exact hi)
  | register => exact .inl (by simp [queued] at hi ⊢; exact .inl hi)
  | @drop f =>
    by_cases hfe : f = i
    · subst hfe
      exact .inr ⟨_, getElem?_release_self hfi, by simp⟩
    · exact .inl (hremove f hfe)
  | @forward f =>
    rcases hlocked false with h | ⟨fut', h1, h2⟩
    · exact .inl h
    · by_cases hfe : f = i
      · subst hfe
        exact .inr ⟨_, getElem?_release_self h1, by simp⟩
      · exact .inr ⟨fut', by rw [← h1]; exact getElem?_release_ne hfe, h2⟩
  | notify last => exact hlocked last
  | broadcast =>
    have hg := getElem?_notifyAll i s.state.waiters s.futures
    rw [hfi, map_some, if_pos ⟨hi, hlive⟩] at hg
    exact .inr ⟨_, hg, by simp⟩

/-- **The queue is in the order of registration**, and no future registers twice. -/
structure Logged (tr : List Ev) (s : Sys) : Prop where
  nodup : (registrations tr).Nodup
  order : (queued s).Sublist (registrations tr)
  past : ∀ i ∈ registrations tr, i ∈ queued s ∨ Spent s.futures i

theorem logged_step (hw : Wf s) (h : Logged tr s) (hs : step s op = some (s', es)) :
    Logged (tr ++ es) s' := by
  have hkeep : ∀ i ∈ registrations tr, i ∈ queued s' ∨ Spent s'.futures i := by
    intro i hi
    rcases h.past i hi with hq | hsp
    · exact spent_of_left hw hs hq
    · exact .inr (spent_step hw hs hsp)
  rcases queued_step hw hs with ⟨hr, hsub⟩ | ⟨f, rfl, hq, hnq, hnsp⟩
  · have hreg : registrations (tr ++ es) = registrations tr := by
      rw [registrations_append, hr, append_nil]
    exact ⟨by rw [hreg]; exact h.nodup, by rw [hreg]; exact hsub.trans h.order,
      by rw [hreg]; exact hkeep⟩
  · have hreg : registrations (tr ++ [.registered f]) = registrations tr ++ [f] := by
      rw [registrations_append]
      rfl
    have hnew : f ∉ registrations tr := by
      intro hf
      rcases h.past f hf with hc | hc
      · exact hnq hc
      · exact hnsp hc
    refine ⟨?_, ?_, ?_⟩
    · rw [hreg, nodup_append]
      refine ⟨h.nodup, by simp, ?_⟩
      rintro a ha b hb rfl
      rw [mem_singleton] at hb
      exact hnew (hb ▸ ha)
    · rw [hreg, hq]
      exact h.order.append (List.Sublist.refl _)
    · rw [hreg]
      intro i hi
      rcases mem_append.mp hi with hi | hi
      · exact hkeep i hi
      · rw [hq]
        exact .inl (mem_append_right _ hi)

theorem logged_run (h : Run step C new tr s) : Logged tr s := by
  have ha := h.along fun _ _ => wf_run
  refine ha.inv ⟨by simp [registrations], by simp [queued, new], by
    simp [registrations]⟩ ?_
  rintro tr s op s' es hI ⟨-, hw⟩ hs
  exact logged_step hw hI hs

/-! ## Conservation -/

/-- **A selected future that is dropped hands its notification on** in the same step: to the first
waiter, or to the permit. -/
theorem forward_step (hw : Wf s) (hf : s.future? f = some fut) (hn : fut.notified = .one)
    (hs : step s (.dropFuture f) = some (s', es)) :
    .forwarded f ∈ es ∧ (s.state.waiters = [] → s'.state.permit = true) ∧
    ∀ w q, s.state.waiters = w :: q → s'.state.waiters = q ∧ .selected w.notified ∈ es ∧
      ∃ fut', s'.futures[w.notified]? = some fut' ∧ isSelected fut' = true := by
  obtain ⟨hfut, -⟩ := future?_some hf
  have hnq := hw.not_queued hfut (by rw [hn]; simp)
  simp only [step, hf, map_some, cancel, if_pos hn, removeWaiter_of_not_queued hnq] at hs
  cases hs
  refine ⟨mem_cons_self, fun hq => ?_, fun w q hq => ?_⟩
  · rw [notifyLocked_nil hq]
    rfl
  · have hp : Picks false s.state.waiters w q := hq
    obtain ⟨fut', hw', hlive, -⟩ := hw.entry_of hp.mem
    have hne : f ≠ w.notified := by
      rintro rfl
      exact hnq (mem_map_of_mem hp.mem)
    rw [notifyLocked_picks hw hp]
    refine ⟨rfl, by simp, { fut' with notified := .one }, ?_, by simp [isSelected, hlive]⟩
    rw [← getElem?_setFlag_self hw']
    exact getElem?_release_ne hne

/-- **Notifications are conserved.**  In every run the permit is only stored while nobody is
registered; the queue holds live futures that wait, in the order of their registration; a
notification selects the first of them (`notify_one`) or the last (`notify_last`) and nobody else;
the calls are accounted for by the polls that consumed one, the futures selected now, the permit and
those absorbed by it; and a selected future that is dropped hands its notification on at once. -/
theorem notify_conserves (h : Run step Any new tr s) :
    (s.state.permit = true → s.state.waiters = []) ∧
    ((queued s).Sublist (registrations tr) ∧ (registrations tr).Nodup ∧
      ∀ i ∈ queued s, ∃ fut, s.future? i = some fut ∧ fut.notified = .waiting) ∧
    (∀ last w q, Picks last s.state.waiters w q →
      notify s last = ({ state := { s.state with waiters := q }
                         futures := setFlag s.futures w.notified .one },
        .called last :: .selected w.notified :: wake w.waker)) ∧
    calls tr = consumed tr + selected s + s.state.permit.toNat + absorbed tr ∧
    ∀ f fut s' es, s.future? f = some fut → fut.notified = .one →
      step s (.dropFuture f) = some (s', es) →
      .forwarded f ∈ es ∧ (s.state.waiters = [] → s'.state.permit = true) ∧
      ∀ w q, s.state.waiters = w :: q → s'.state.waiters = q ∧ .selected w.notified ∈ es ∧
        ∃ fut', s'.futures[w.notified]? = some fut' ∧ isSelected fut' = true := by
  have hw := wf_run h
  have hl := logged_run h
  refine ⟨hw.permit, ⟨hl.order, hl.nodup, fun i hi => ?_⟩, fun last w q hp => ?_, balance_run h,
    fun f fut s' es hf hn hs => forward_step hw hf hn hs⟩
  · obtain ⟨fut, hf, hlive, hn, -⟩ := hw.entry i hi
    exact ⟨fut, filter_eq_some_iff.mpr ⟨hf, hlive⟩, hn⟩
  · unfold notify
    rw [notifyLocked_picks hw hp]
    rfl

/-- Two futures wait; the first is selected and dropped, the second consumes its notification; two
more calls find nobody. -/
theorem notify_conserves_forwarded : ∃ s tr,
    exec step new [.notified, .notified, .poll 0 7, .poll 1 8, .notifyOne, .dropFuture 0,
      .poll 1 8, .notifyOne, .notifyLast] = some (s, tr) ∧
    calls tr = consumed tr + selected s + s.state.permit.toNat + absorbed tr ∧
    calls tr = 3 ∧ consumed tr = 1 ∧ absorbed tr = 1 := by
  refine ⟨_, _, rfl, ?_, rfl, rfl, rfl⟩
  exact (notify_conserves (run_exec [.notified, .notified, .poll 0 7, .poll 1 8, .notifyOne,
    .dropFuture 0, .poll 1 8, .notifyOne, .notifyLast] rfl)).2.2.2.1

end OhosFfrt.Notify.Conservation
