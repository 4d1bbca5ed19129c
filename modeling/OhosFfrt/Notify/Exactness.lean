import OhosFfrt.Notify.Moves
import Mathlib.Data.List.TakeWhile

/-!
# `sync::Notify`: `notify_waiters` is exact

`notify_waiters` reaches the registered futures through their flags and the others through the
generation: a future has the number of calls before its creation, modulo `2 ^ 64`, and the state the
number of all calls.  `Dated` ties both to the events since the future was created;
`notify_waiters_exact` follows.
-/

namespace OhosFfrt.Notify.Exactness

open Basic Lib.Runs Notify.System Notify.Moves List Option

variable {s s' : Sys} {op : Op} {es tr : List Ev} {f i : ℕ} {fut fut' : FutureState}
  {fs : List FutureState}

/-! ## Since the creation of a future -/

/-- The events since the future `f` was created. -/
def since (f : ℕ) (tr : List Ev) : List Ev := (tr.dropWhile fun x => x ≠ .created f).tail

theorem since_append (h : .created f ∈ tr) (es : List Ev) :
    since f (tr ++ es) = since f tr ++ es := by
  have hne : tr.dropWhile (fun x => x ≠ .created f) ≠ [] := by
    rw [Ne, dropWhile_eq_nil_iff]
    intro hc
    have := hc _ h
    simp at this
  unfold since
  rw [dropWhile_append, if_neg (by simpa using hne), tail_append_of_ne_nil hne]

theorem since_created (h : .created f ∉ tr) : since f (tr ++ [.created f]) = [] := by
  have hnil : tr.dropWhile (fun x => x ≠ .created f) = [] := by
    rw [dropWhile_eq_nil_iff]
    intro x hx
    rw [decide_eq_true_eq]
    rintro rfl
    exact h hx
  unfold since
  rw [dropWhile_append, hnil]
  simp

theorem count_since_le (f : ℕ) (tr : List Ev) :
    (since f tr).count .broadcast ≤ tr.count .broadcast := by
  refine List.Sublist.count_le _ ?_
  exact ((tail_sublist _).trans (dropWhile_sublist _))

/-! ## Steps -/

theorem length_setFlag (fs : List FutureState) (i : ℕ) (flag : Flag) :
    (setFlag fs i flag).length = fs.length := by
  unfold setFlag
  rcases fs[i]? with _ | fut <;> simp

theorem length_release (fs : List FutureState) (i : ℕ) : (release fs i).length = fs.length := by
  unfold release
  rcases fs[i]? with _ | fut <;> simp

theorem length_notifyAll : ∀ (ws : List Waiter) (fs : List FutureState),
    (notifyAll fs ws).1.length = fs.length
  | [], fs => rfl
  | w :: ws, fs => by
    unfold notifyAll
    split_ifs
    · rw [length_notifyAll ws, length_setFlag]
    · exact length_notifyAll ws fs

/-- A step that neither creates a future nor is a broadcast. -/
structure Plain (s : Sys) (es : List Ev) (s' : Sys) : Prop where
  futures : s'.futures.length = s.futures.length
  generation : s'.state.generation = s.state.generation
  created : ∀ f, .created f ∉ es
  broadcast : .broadcast ∉ es

theorem plain_notifyLocked (h : Wf s) (last : Bool) :
    Plain s (notifyLocked s last).2 (notifyLocked s last).1 := by
  have hwake : ∀ (o : Option Waker) x, x ∈ wake o → ∃ w, x = .woke w := by
    intro o x hx
    obtain ⟨w, -, rfl⟩ := mem_map.mp hx
    exact ⟨w, rfl⟩
  rcases notifyLocked_cases h last with ⟨-, he⟩ | ⟨w, q', -, he⟩ <;> rw [he]
  · refine ⟨rfl, rfl, fun f => ?_, ?_⟩ <;> split_ifs <;> simp
  · refine ⟨length_setFlag _ _ _, rfl, fun f hf => ?_, fun hf => ?_⟩
    all_goals
      rcases mem_cons.mp hf with hf | hf
      · simp at hf
      · obtain ⟨w, hw⟩ := hwake _ _ hf
        simp at hw

theorem Plain.cons {x : Ev} (h : Plain s es s') (hc : ∀ f, x ≠ .created f) (hb : x ≠ .broadcast) :
    Plain s (x :: es) s' := by
  refine ⟨h.futures, h.generation, fun f hf => ?_, fun hf => ?_⟩
  · rcases mem_cons.mp hf with hf | hf
    · exact hc f hf.symm
    · exact h.created f hf
  · rcases mem_cons.mp hf with hf | hf
    · exact hb hf.symm
    · exact h.broadcast hf

theorem step_kinds (h : Wf s) (hs : step s op = some (s', es)) :
    Plain s es s' ∨
    (es = [.created s.futures.length] ∧ s'.state = s.state ∧
      s'.futures = s.futures ++ [⟨.waiting, s.state.generation, true⟩]) ∨
    (s'.futures.length = s.futures.length ∧ (∀ f, .created f ∉ es) ∧ es.count .broadcast = 1 ∧
      s'.state.generation = (s.state.generation + 1) % 2 ^ 64) := by
  cases step_moved h hs with
  | create => exact .inr (.inl ⟨rfl, rfl, rfl⟩)
  | ready =>
    refine .inl ⟨length_setFlag _ _ _, rfl, fun f => ?_, ?_⟩ <;> split_ifs <;> simp
  | permit => exact .inl ⟨length_setFlag _ _ _, rfl, by simp, by simp⟩
  | stay | register => exact .inl ⟨rfl, rfl, by simp, by simp⟩
  | drop => exact .inl ⟨length_release _ _, rfl, by simp, by simp⟩
  | @forward f =>
    have hp := (plain_notifyLocked h false).cons (x := .forwarded f) (by simp) (by simp)
    exact .inl ⟨(length_release _ _).trans hp.futures, hp.generation, hp.created, hp.broadcast⟩
  | notify last => exact .inl ((plain_notifyLocked h last).cons (by simp) (by simp))
  | broadcast =>
    have hw := woke_notifyAll s.state.waiters s.futures
    refine .inr (.inr ⟨length_notifyAll _ _, fun f hf => ?_, ?_, rfl⟩)
    · rcases mem_cons.mp hf with hf | hf
      · simp at hf
      · obtain ⟨w, hw⟩ := hw _ hf
        simp at hw
    · unfold notifyWaiters
      rw [count_cons_self, count_eq_zero.mpr]
      intro hc
      obtain ⟨w, hw⟩ := hw _ hc
      simp at hw

/-! ## Dates -/

/-- **What the flag and the generation of a future say** about the events since its creation. -/
structure Dated (tr : List Ev) (generation f : ℕ) (fut : FutureState) : Prop where
  born : .created f ∈ tr
  bound : fut.generation < 2 ^ 64
  age : (fut.generation + (since f tr).count .broadcast) % 2 ^ 64 = generation
  one : fut.notified = .one → .selected f ∈ since f tr
  all : fut.notified = .all → .broadcast ∈ since f tr
  consumed : fut.notified = .consumed →
    .broadcast ∈ since f tr ∨ .selected f ∈ since f tr ∨ .tookPermit f ∈ since f tr

theorem Dated.cause (h : Dated tr s.state.generation f fut)
    (hn : fut.notified ≠ .waiting ∨ fut.generation ≠ s.state.generation) :
    .broadcast ∈ since f tr ∨ .selected f ∈ since f tr ∨ .tookPermit f ∈ since f tr := by
  rcases hn with hn | hn
  · rcases hfl : fut.notified with _ | _ | _ | _
    · exact absurd hfl hn
    · exact .inr (.inl (h.one hfl))
    · exact .inl (h.all hfl)
    · exact h.consumed hfl
  · left
    by_contra hc
    have hage := h.age
    rw [count_eq_zero.mpr hc, Nat.add_zero, Nat.mod_eq_of_lt h.bound] at hage
    exact hn hage

theorem Dated.lives {g : ℕ} (h : Dated tr s.state.generation f fut) (hl : Lives s es f fut fut')
    (hg : g = (s.state.generation + es.count .broadcast) % 2 ^ 64) :
    Dated (tr ++ es) g f fut' := by
  have hsince := since_append h.born es
  have hgrow : ∀ {x}, x ∈ since f tr → x ∈ since f (tr ++ es) := by
    intro x hx
    rw [hsince]
    exact mem_append_left _ hx
  have hnew : ∀ {x}, x ∈ es → x ∈ since f (tr ++ es) := by
    intro x hx
    rw [hsince]
    exact mem_append_right _ hx
  have hage : (fut'.generation + (since f (tr ++ es)).count .broadcast) % 2 ^ 64 = g := by
    rw [hsince, count_append, hl.generation, hg, ← h.age]
    omega
  have hflag := hl.flag
  obtain ⟨h1, h2, h3⟩ : (fut'.notified = .one → .selected f ∈ since f (tr ++ es)) ∧
      (fut'.notified = .all → .broadcast ∈ since f (tr ++ es)) ∧
      (fut'.notified = .consumed → .broadcast ∈ since f (tr ++ es) ∨
        .selected f ∈ since f (tr ++ es) ∨ .tookPermit f ∈ since f (tr ++ es)) := by
    generalize fut'.notified = flag at hflag
    cases hflag with
    | same =>
      exact ⟨fun hf => hgrow (h.one hf), fun hf => hgrow (h.all hf),
        fun hf => (h.consumed hf).imp hgrow (Or.imp hgrow hgrow)⟩
    | one hx => exact ⟨fun _ => hnew hx, by simp, by simp⟩
    | all hx => exact ⟨by simp, fun _ => hnew hx, by simp⟩
    | consumed hx =>
      exact ⟨by simp, by simp, fun _ => (h.cause hx).imp hgrow (Or.imp hgrow hgrow)⟩
    | permit hx => exact ⟨by simp, by simp, fun _ => .inr (.inr (hnew hx))⟩
  exact ⟨mem_append_left _ h.born, by rw [hl.generation]; exact h.bound, hage, h1, h2, h3⟩

/-- **All futures are dated**, and only futures that exist were created. -/
structure Calendar (tr : List Ev) (s : Sys) : Prop where
  bound : s.state.generation < 2 ^ 64
  dated : ∀ f fut, s.futures[f]? = some fut → Dated tr s.state.generation f fut
  created : ∀ f, .created f ∈ tr → f < s.futures.length

theorem Calendar.old (hw : Wf s) (h : Calendar tr s) (hs : step s op = some (s', es))
    (hlen : s'.futures.length = s.futures.length) (hc : ∀ f, .created f ∉ es)
    (hg : s'.state.generation = (s.state.generation + es.count .broadcast) % 2 ^ 64) :
    Calendar (tr ++ es) s' := by
  refine ⟨by rw [hg]; exact Nat.mod_lt _ (by decide), fun f fut' hf => ?_, fun f hf => ?_⟩
  · obtain ⟨hlt, -⟩ := List.getElem?_eq_some_iff.mp hf
    rw [hlen] at hlt
    have hfut := getElem?_eq_getElem hlt
    obtain ⟨fut1, hf1, hl⟩ := future_step hw hs hfut
    rw [hf] at hf1
    cases hf1
    exact (h.dated f _ hfut).lives hl hg
  · rw [hlen]
    rcases mem_append.mp hf with hf | hf
    · exact h.created f hf
    · exact absurd hf (hc f)

theorem calendar_step (hw : Wf s) (h : Calendar tr s) (hs : step s op = some (s', es)) :
    Calendar (tr ++ es) s' := by
  rcases step_kinds hw hs with hp | ⟨rfl, hst, hfs⟩ | ⟨hlen, hc, hb, hg⟩
  · refine h.old hw hs hp.futures hp.created ?_
    rw [hp.generation, count_eq_zero.mpr hp.broadcast, Nat.add_zero, Nat.mod_eq_of_lt h.bound]
  · have hnew : .created s.futures.length ∉ tr := fun hc =>
      absurd (h.created _ hc) (Nat.lt_irrefl _)
    refine ⟨by rw [hst]; exact h.bound, fun f fut' hf => ?_, fun f hf => ?_⟩
    · by_cases hlt : f < s.futures.length
      · rw [hfs, getElem?_append_left hlt] at hf
        refine (h.dated f fut' hf).lives lives_same ?_
        rw [hst, count_eq_zero.mpr (by simp), Nat.add_zero, Nat.mod_eq_of_lt h.bound]
      · obtain ⟨hlt', -⟩ := List.getElem?_eq_some_iff.mp hf
        rw [hfs, length_append, length_singleton] at hlt'
        have hfe : f = s.futures.length := by omega
        subst hfe
        rw [hfs, getElem?_concat_length] at hf
        cases hf
        refine ⟨by simp, h.bound, ?_, by simp, by simp, by simp⟩
        rw [since_created hnew, hst]
        exact Nat.mod_eq_of_lt h.bound
    · rw [hfs, length_append, length_singleton]
      rcases mem_append.mp hf with hf | hf
      · have := h.created f hf
        omega
      · simp only [mem_singleton, Ev.created.injEq] at hf
        omega
  · exact h.old hw hs hlen hc (by rw [hb]; exact hg)

theorem calendar_run {C : List Ev → Sys → Op → Prop} (h : Run step C new tr s) :
    Calendar tr s := by
  have ha := h.along fun _ _ => wf_run
  refine ha.inv ⟨by decide, by simp [new], by simp⟩ ?_
  rintro tr s op s' es hI ⟨-, hw⟩ hs
  exact calendar_step hw hI hs

/-! ## Exactness -/

theorem ready_of_notified (k : Option Waker)
    (hn : fut.notified ≠ .waiting ∨ fut.generation ≠ s.state.generation) :
    (pollNotified s f fut k).ready = true ∧
      (pollNotified s f fut k).sys.state.permit = s.state.permit := by
  unfold pollNotified
  rw [if_pos hn]
  exact ⟨rfl, rfl⟩

theorem notified_of_ready {k : Option Waker} (h : (pollNotified s f fut k).ready = true) :
    (fut.notified ≠ .waiting ∨ fut.generation ≠ s.state.generation) ∨ s.state.permit = true := by
  by_cases hn : fut.notified ≠ .waiting ∨ fut.generation ≠ s.state.generation
  · exact .inl hn
  · right
    unfold pollNotified at h
    rw [if_neg hn] at h
    split_ifs at h with hp
    exact hp

theorem woke_of_queued : ∀ (ws : List Waiter) (fs : List FutureState) (w : Waiter) (cx : Waker),
    (∀ w ∈ ws, alive fs w.notified = true) → w ∈ ws → w.waker = some cx →
    .woke cx ∈ (notifyAll fs ws).2
  | v :: ws, fs, w, cx, ha, hw, hcx => by
    have halive : ∀ w ∈ ws, alive (setFlag fs v.notified .all) w.notified = true := by
      intro x hx
      have hax := ha x (mem_cons_of_mem _ hx)
      unfold alive at hax ⊢
      by_cases he : v.notified = x.notified
      · obtain ⟨fut, hf⟩ := isSome_iff_exists.mp (isSome_of_any hax)
        rw [he, getElem?_setFlag_self hf]
        rw [hf] at hax
        exact hax
      · rw [getElem?_setFlag_ne he]
        exact hax
    unfold notifyAll
    rw [if_pos (ha v mem_cons_self)]
    rcases mem_cons.mp hw with rfl | hw
    · exact mem_append_left _ (by simp [wake, hcx])
    · exact mem_append_right _ (woke_of_queued ws _ w cx halive hw hcx)

/-- **`notify_waiters` is exact.**  In a run with fewer than `2 ^ 64` calls, a poll of a live future
that was created before some call is ready and leaves the permit alone; a poll of one that was
created after the last call is ready only if since then it was selected by a notification of its
own or had the permit, or if the permit is there.  A call wakes the waker of every registered future
and does not touch the permit. -/
theorem notify_waiters_exact (h : Run step Any new tr s) (hn : tr.count .broadcast < 2 ^ 64) :
    (∀ f fut k, s.future? f = some fut →
      (.broadcast ∈ since f tr → (pollNotified s f fut k).ready = true ∧
        (pollNotified s f fut k).sys.state.permit = s.state.permit) ∧
      (.broadcast ∉ since f tr → (pollNotified s f fut k).ready = true →
        .selected f ∈ since f tr ∨ .tookPermit f ∈ since f tr ∨ s.state.permit = true)) ∧
    ∀ s' es, step s .notifyWaiters = some (s', es) → s'.state.permit = s.state.permit ∧
      s'.state.waiters = [] ∧ ∀ w ∈ s.state.waiters, ∀ cx, w.waker = some cx → .woke cx ∈ es := by
  have hw := wf_run h
  have hcal := calendar_run h
  refine ⟨fun f fut k hf => ⟨fun hb => ?_, fun hb hr => ?_⟩, fun s' es hs => ?_⟩
  · have hd := hcal.dated f fut (future?_some hf).1
    have hpos := count_pos_iff.mpr hb
    have hle := count_since_le f tr
    have hage := hd.age
    have hbound := hd.bound
    exact ready_of_notified k (.inr (by omega))
  · have hd := hcal.dated f fut (future?_some hf).1
    rcases notified_of_ready hr with hnot | hp
    · rcases hd.cause hnot with hc | hc | hc
      · exact absurd hc hb
      · exact .inl hc
      · exact .inr (.inl hc)
    · exact .inr (.inr hp)
  · simp only [step, some.injEq] at hs
    rw [show s' = (notifyWaiters s).1 by rw [hs], show es = (notifyWaiters s).2 by rw [hs]]
    refine ⟨rfl, rfl, fun w hmem cx hcx => ?_⟩
    exact mem_cons_of_mem _
      (woke_of_queued _ _ w cx (fun v hv => hw.alive hv) hmem hcx)

/-- A future that was never polled and one that is registered see the call; one created after it
does not. -/
theorem notify_waiters_exact_three : ∃ s tr,
    exec step new [.notified, .notified, .poll 1 8, .notifyWaiters, .notified] = some (s, tr) ∧
    .broadcast ∈ since 0 tr ∧ .broadcast ∈ since 1 tr ∧ .broadcast ∉ since 2 tr ∧
    (pollNotified s 0 ⟨.waiting, 0, true⟩ (some 7)).ready = true ∧
    (pollNotified s 1 ⟨.all, 0, true⟩ (some 8)).ready = true := by
  refine ⟨_, _, rfl, by decide, by decide, by decide, ?_⟩
  have h := run_exec [.notified, .notified, .poll 1 8, .notifyWaiters, .notified]
    (show exec step new _ = some _ from rfl)
  have hx := (notify_waiters_exact h (by decide)).1
  exact ⟨((hx 0 _ (some 7) rfl).1 (by decide)).1, ((hx 1 _ (some 8) rfl).1 (by decide)).1⟩

end OhosFfrt.Notify.Exactness
