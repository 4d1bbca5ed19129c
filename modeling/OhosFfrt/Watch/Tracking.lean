import OhosFfrt.Lib.Traces
import OhosFfrt.Watch.Moves

/-!
# `sync::watch`: receivers see the changes they have not seen

As long as there were fewer than `2 ^ 64 - 1` updates the version is the number of updates, and a
receiver's `seen` differs from it exactly if the trace has a change it has not seen (`Tracks`,
`watch_tracks`).

A future that returned `Pending` stays unable to finish until its waker is woken (`Parked`).  For
`wait_for` this needs that no closure of `send_if_modified` has changed the value and returned
`false`: nobody is woken then.
-/

namespace OhosFfrt.Watch.Tracking

open Basic Lib.Arena Lib.Runs Watch.State Watch.System List Option
open Watch.Moves

variable {T : Type*} {s s' s₀ : Sys T} {op : Op T} {es tr : List (Ev T)} {r : ℕ}
  {rx rx₀ : Receiver T} {w : Waker} {C : List (Ev T) → Sys T → Op T → Prop} {wait b : Bool}
  {st : WatchState T} {e : Ev T}

/-! ## The trace -/

/-- The events that neither publish nor mark anything. -/
def Ev.quiet : Ev T → Bool
  | .rejected _ | .replaced _ | .notModified _ _ | .borrowed _ _ _ | .hasChanged _ _
  | .changedClosed _ | .changedPending _ _ | .waitClosed _ | .waitPending _ _ | .futureDropped _
  | .woke _ => true
  | _ => false

theorem unseen_append (tr es : List (Ev T)) : unseen (tr ++ es) = es.foldl mark (unseen tr) :=
  foldl_append

theorem updates_append (tr es : List (Ev T)) : updates (tr ++ es) = updates tr + updates es :=
  countP_append

theorem foldl_quiet (h : ∀ x ∈ es, Ev.quiet x = true) (f : ℕ → Bool) : es.foldl mark f = f := by
  induction es with
  | nil => rfl
  | cons x es ih =>
    have hx : mark f x = f := by
      have hq := h x mem_cons_self
      cases x <;> first | rfl | cases hq
    rw [foldl_cons, hx]
    exact ih fun y hy => h y (mem_cons_of_mem x hy)

theorem updates_quiet (h : ∀ x ∈ es, Ev.quiet x = true) : updates es = 0 := by
  refine countP_eq_zero.mpr fun x hx => ?_
  have hq := h x hx
  cases x <;> first | exact Bool.false_ne_true | cases hq

theorem quiet_woke (ws : List Waker) : ∀ x ∈ ws.map (.woke : Waker → Ev T), Ev.quiet x = true := by
  intro x hx
  obtain ⟨w, -, rfl⟩ := mem_map.mp hx
  rfl

theorem quiet_of_aside (h : ∀ x ∈ es, Ev.aside x = true) : ∀ x ∈ es, Ev.quiet x = true := by
  intro x hx
  have ha := h x hx
  cases x <;> first | rfl | cases ha

theorem unseen_publish (tr : List (Ev T)) (st : WatchState T) (v : T) {es : List (Ev T)}
    (hes : es = [] ∨ ∃ old, es = [.replaced old]) :
    unseen (tr ++ ((publish st v).2 ++ es)) = (fun _ => true) ∧
      updates (tr ++ ((publish st v).2 ++ es)) = updates tr + 1 := by
  have hq : ∀ x ∈ st.waiters.map (.woke : Waker → Ev T) ++ es, Ev.quiet x = true := by
    intro x hx
    rcases mem_append.mp hx with hx | hx
    · exact quiet_woke _ x hx
    · rcases hes with rfl | ⟨old, rfl⟩
      · cases hx
      · rw [mem_singleton.mp hx]
        rfl
  constructor
  · rw [unseen_append]
    exact foldl_quiet hq _
  · rw [updates_append]
    change updates tr + updates ([.published] ++ (st.waiters.map .woke ++ es)) = _
    rw [updates_append [.published], updates_quiet hq]
    rfl

/-! ## Versions -/

/-- The versions seen. -/
def seens (s : Sys T) : List ℕ := s.receivers.map Receiver.seen

theorem seens_put (rx : Receiver T) : seens (s.put r rx) = (seens s).set r rx.seen := map_set

theorem seens_put_same (hr : s.receivers[r]? = some rx₀)
    (hseen : rx.seen = rx₀.seen) : seens (s.put r rx) = seens s := by
  have hget : (seens s)[r]? = some rx.seen := by
    rw [seens, getElem?_map, hr, hseen]
    rfl
  rw [seens_put]
  obtain ⟨hlt, hval⟩ := List.getElem?_eq_some_iff.mp hget
  rw [← hval, set_getElem_self]

theorem seens_add (n : ℕ) : seens (s.addReceiver n) = seens s ++ [n] := map_append

theorem length_seens : (seens s).length = s.receivers.length := length_map _

theorem getElem?_seens (hr : s.receivers[r]? = some rx) : (seens s)[r]? = some rx.seen := by
  rw [seens, getElem?_map, hr]
  rfl

/-- **The versions tell what is unseen.** -/
structure Tracks (tr : List (Ev T)) (s : Sys T) : Prop where
  version : s.state.version = updates tr
  /-- What a receiver has seen is an earlier version, or the one before the first. -/
  seen : ∀ r n : ℕ, (seens s)[r]? = some n → n ≤ s.state.version ∨ n = 2 ^ 64 - 1
  unseen : ∀ r n : ℕ, (seens s)[r]? = some n → (unseen tr r = true ↔ s.state.version ≠ n)

theorem Tracks.quiet (h : Tracks tr s) (hes : ∀ x ∈ es, Ev.quiet x = true)
    (hv : s'.state.version = s.state.version) (hseens : seens s' = seens s) :
    Tracks (tr ++ es) s' := by
  refine ⟨?_, fun r n hr => ?_, fun r n hr => ?_⟩
  · rw [hv, h.version, updates_append, updates_quiet hes, Nat.add_zero]
  · rw [hseens] at hr
    rw [hv]
    exact h.seen r n hr
  · rw [hseens] at hr
    rw [hv, unseen_append, foldl_quiet hes]
    exact h.unseen r n hr

theorem Tracks.marks (h : Tracks tr s) {n : ℕ}
    (he : mark (System.unseen tr) e = Function.update (System.unseen tr) r b)
    (hup : updates [e] = 0) (hv : s'.state.version = s.state.version)
    (hself : (seens s')[r]? = some n) (hother : ∀ r' : ℕ, r' ≠ r → (seens s')[r']? = (seens s)[r']?)
    (hn : n ≤ s.state.version ∨ n = 2 ^ 64 - 1) (hb : b = true ↔ s.state.version ≠ n) :
    Tracks (tr ++ [e]) s' := by
  have hunseen : System.unseen (tr ++ [e]) = Function.update (System.unseen tr) r b := by
    rw [unseen_append]
    exact he
  refine ⟨?_, fun r' m hr' => ?_, fun r' m hr' => ?_⟩
  · rw [hv, h.version, updates_append, hup, Nat.add_zero]
  · rw [hv]
    by_cases hrr : r' = r
    · rw [hrr, hself, some.injEq] at hr'
      rw [← hr']
      exact hn
    · rw [hother r' hrr] at hr'
      exact h.seen r' m hr'
  · rw [hv, hunseen]
    by_cases hrr : r' = r
    · rw [hrr, hself, some.injEq] at hr'
      rw [hrr, Function.update_self, ← hr']
      exact hb
    · rw [Function.update_of_ne hrr]
      rw [hother r' hrr] at hr'
      exact h.unseen r' m hr'

theorem Tracks.put (h : Tracks tr s) (hr : s.receivers[r]? = some rx₀)
    (he : mark (System.unseen tr) e = Function.update (System.unseen tr) r b)
    (hup : updates [e] = 0) (hn : rx.seen ≤ s.state.version ∨ rx.seen = 2 ^ 64 - 1)
    (hb : b = true ↔ s.state.version ≠ rx.seen) : Tracks (tr ++ [e]) (s.put r rx) := by
  refine h.marks he hup rfl ?_ (fun r' hr' => ?_) hn hb
  · rw [seens_put]
    exact get_set (getElem?_seens hr)
  · rw [seens_put]
    exact getElem?_set_ne (Ne.symm hr')

theorem Tracks.add (h : Tracks tr s) {n : ℕ}
    (he : mark (System.unseen tr) e = Function.update (System.unseen tr) s.receivers.length b)
    (hup : updates [e] = 0) (hn : n ≤ s.state.version ∨ n = 2 ^ 64 - 1)
    (hb : b = true ↔ s.state.version ≠ n) : Tracks (tr ++ [e]) (s.addReceiver n) := by
  refine h.marks he hup rfl ?_ (fun r' hr' => ?_) hn hb
  · rw [seens_add, ← length_seens]
    exact getElem?_concat_length
  · rw [← length_seens] at hr'
    rw [seens_add, getElem?_append]
    split_ifs with hlt
    · rfl
    · rw [getElem?_eq_none (l := seens s) (by omega)]
      exact getElem?_eq_none (by rw [length_singleton]; omega)

theorem unseenVersion_spec (h : st.version < 2 ^ 64 - 1) :
    (unseenVersion st ≤ st.version ∨ unseenVersion st = 2 ^ 64 - 1) ∧
      st.version ≠ unseenVersion st := by
  unfold unseenVersion
  by_cases h0 : st.version = 0
  · rw [h0]
    omega
  · have hle : st.version + (2 ^ 64 - 1) = (st.version - 1) + 2 ^ 64 := by omega
    rw [hle, Nat.add_mod_right, Nat.mod_eq_of_lt (by omega)]
    omega

theorem Tracks.publish (h : Tracks tr s) (v : T) {es : List (Ev T)}
    (hes : es = [] ∨ ∃ old, es = [.replaced old])
    (hn : updates (tr ++ ((publish s.state v).2 ++ es)) < 2 ^ 64 - 1) :
    Tracks (tr ++ ((State.publish s.state v).2 ++ es))
      { s with state := (State.publish s.state v).1 } := by
  obtain ⟨hu, hup⟩ := unseen_publish tr s.state v hes
  rw [hup] at hn
  have hv := h.version
  have hver : (State.publish s.state v).1.version = s.state.version + 1 :=
    Nat.mod_eq_of_lt (by omega)
  refine ⟨?_, fun r n hr => ?_, fun r n hr => ?_⟩
  · change (State.publish s.state v).1.version = _
    rw [hver, hup, hv]
  · change n ≤ (State.publish s.state v).1.version ∨ _
    rw [hver]
    exact (h.seen r n hr).imp_left Nat.le_succ_of_le
  · change _ ↔ (State.publish s.state v).1.version ≠ n
    have hseen := h.seen r n hr
    rw [hu, hver]
    exact ⟨fun _ => by omega, fun _ => rfl⟩

theorem tracks_moved (h : Tracks tr s) (hn : updates (tr ++ es) < 2 ^ 64 - 1)
    (hm : Moved s s' es) : Tracks (tr ++ es) s' := by
  have hlt : s.state.version < 2 ^ 64 - 1 := by
    rw [updates_append] at hn
    rw [h.version]
    omega
  cases hm with
  | aside ws hes => exact h.quiet (quiet_of_aside hes) rfl rfl
  | publish v hes => exact h.publish v hes hn
  | silent | changedPending | waitPending => exact h.quiet (by simp [Ev.quiet]) rfl rfl
  | cloneSender | dropSender => exact h.quiet (by simp) rfl rfl
  | dropLast => exact h.quiet (quiet_woke _) rfl rfl
  | subscribe => exact h.add (b := false) rfl rfl (.inl (Nat.le_refl _)) (by simp)
  | clone hr =>
    have hget := getElem?_seens hr
    exact h.add rfl rfl (h.seen _ _ hget) (h.unseen _ _ hget)
  | @sees r rx e hr hlive he =>
    have hmark : mark (System.unseen tr) e = Function.update (System.unseen tr) r false := by
      cases e <;> cases he <;> rfl
    have hup : updates [e] = 0 := by
      cases e <;> cases he <;> rfl
    exact h.put hr hmark hup (.inl (Nat.le_refl _)) (by simp)
  | markChanged hr =>
    obtain ⟨hle, hne⟩ := unseenVersion_spec hlt
    exact h.put hr (b := true) rfl rfl hle ⟨fun _ => hne, fun _ => rfl⟩
  | begins b hr => exact h.quiet (by simp) rfl (seens_put_same hr rfl)
  | dropFuture hr => exact h.quiet (by simp [Ev.quiet]) rfl (seens_put_same hr rfl)
  | closed hr he =>
    refine h.quiet (fun x hx => ?_) rfl rfl
    rw [mem_singleton.mp hx]
    rcases he with rfl | rfl <;> rfl
  | dropReceiver hr _ _ _ hes =>
    refine h.quiet (fun x hx => ?_) rfl (seens_put_same hr rfl)
    obtain ⟨w, rfl⟩ := hes x hx
    rfl

/-- The versions tell the changes. -/
theorem tracks_run (h0 : New s₀) (h : Run step C s₀ tr s) :
    updates tr < 2 ^ 64 - 1 → Tracks tr s := by
  refine h.inv (I := fun tr s => updates tr < 2 ^ 64 - 1 → Tracks tr s) ?_ ?_
  · intro _
    obtain ⟨init, rfl | rfl⟩ := h0
    · refine ⟨rfl, fun r n hr => ?_, fun r n hr => ?_⟩
      · rcases r with _ | r <;> cases hr
        exact .inl (Nat.le_refl 0)
      · rcases r with _ | r <;> cases hr
        exact ⟨nofun, fun h => absurd rfl h⟩
    · exact ⟨rfl, nofun, nofun⟩
  · intro tr s op s' es ih _ hs hn
    have hle : updates tr ≤ updates (tr ++ es) := by
      rw [updates_append]
      exact Nat.le_add_right _ _
    exact tracks_moved (ih (by omega)) hn (step_moved hs)

/-! ## Futures that wait -/

/-- The future that borrows a receiver cannot finish: one of `changed`, or of `wait_for` if
`wait`. -/
def Stuck (st : WatchState T) (wait : Bool) (rx : Receiver T) : Prop :=
  match rx.borrow with
  | .free => False
  | .changed => wait = false ∧ st.version = rx.seen
  | .waitFor p => wait = true ∧ p st.value = false

/-- **A future that waits**, with the waker `w` in line. -/
structure Parked (s : Sys T) (r : ℕ) (w : Waker) (wait : Bool) : Prop where
  waker : w ∈ s.state.waiters
  senders : s.state.senders ≠ 0
  stuck : ∃ rx, s.receivers[r]? = some rx ∧ rx.live = true ∧ Stuck s.state wait rx

/-- What may end the waiting of the receiver `r`: its waker is woken, its future is polled again or
dropped, or, for `wait_for`, a closure has changed the value and returned `false`. -/
def Stirs (r : ℕ) (w : Waker) (wait : Bool) (x : Ev T) : Prop :=
  x = .woke w ∨ Ev.ofFuture x = some r ∨ ∃ a b, x = .notModified a b ∧ wait = true ∧ a ≠ b

theorem stuck_free (h : Stuck st wait rx) :
    rx.borrow ≠ .free := by
  intro hb
  rw [Stuck, hb] at h
  exact h

theorem Stuck.same {st' : WatchState T} (h : Stuck st wait rx)
    (hv : st'.version = st.version) (hval : st'.value = st.value) : Stuck st' wait rx := by
  unfold Stuck at h ⊢
  rw [hv, hval]
  exact h

theorem Parked.keep (h : Parked s r w wait) (hw : w ∈ s.state.waiters → w ∈ s'.state.waiters)
    (h0 : s.state.senders ≠ 0 → s'.state.senders ≠ 0)
    (hv : s'.state.version = s.state.version) (hval : s'.state.value = s.state.value)
    (hr : ∀ rx, s.receivers[r]? = some rx → Stuck s.state wait rx → s'.receivers[r]? = some rx) :
    Parked s' r w wait := by
  obtain ⟨hwaker, hsenders, rx, hrx, hlive, hstuck⟩ := h
  exact ⟨hw hwaker, h0 hsenders, rx, hr rx hrx hstuck, hlive, hstuck.same hv hval⟩

theorem getElem?_put {r' : ℕ} {rx₁ : Receiver T}
    (hr' : s.receivers[r']? = some rx₀) (hne : r = r' → ¬ Stuck st wait rx₀) :
    ∀ rx, s.receivers[r]? = some rx → Stuck st wait rx →
      (s.receivers.set r' rx₁)[r]? = some rx := by
  intro rx hr hstuck
  by_cases hrr : r = r'
  · subst hrr
    rw [hr, some.injEq] at hr'
    rw [hr'] at hstuck
    exact absurd hstuck (hne rfl)
  · rw [getElem?_set_ne (Ne.symm hrr)]
    exact hr

theorem getElem?_add (n : ℕ) : s.receivers[r]? = some rx →
    (s.addReceiver n).receivers[r]? = some rx := by
  intro hr
  exact get_append hr _

theorem parked_moved (h : Parked s r w wait) (hm : Moved s s' es)
    (hes : ∀ x ∈ es, ¬ Stirs r w wait x) : Parked s' r w wait := by
  have hwoke : .woke w ∉ es := fun hx => hes _ hx (.inl rfl)
  cases hm with
  | aside | closed => exact h.keep id id rfl rfl fun _ hr _ => hr
  | publish =>
    refine absurd ?_ hwoke
    exact mem_append_left _ (mem_cons_of_mem _ (mem_map_of_mem h.waker))
  | silent v =>
    obtain ⟨hwaker, hsenders, rx, hrx, hlive, hstuck⟩ := h
    refine ⟨hwaker, hsenders, rx, hrx, hlive, ?_⟩
    unfold Stuck at hstuck ⊢
    split at hstuck
    · exact hstuck
    · exact hstuck
    · -- the closure has left the value as it was
      next p hb =>
      refine ⟨hstuck.1, ?_⟩
      have heq : s.state.value = v := by
        by_contra hne
        exact hes _ mem_cons_self (.inr (.inr ⟨_, _, rfl, hstuck.1, hne⟩))
      rw [← heq]
      exact hstuck.2
  | cloneSender | dropSender =>
    exact h.keep id (fun _ => Nat.succ_ne_zero _) rfl rfl fun _ hr _ => hr
  | dropLast => exact absurd (mem_map_of_mem h.waker) hwoke
  | subscribe | clone => exact h.keep id id rfl rfl fun _ hr _ => getElem?_add _ hr
  | sees hr _ _ hb =>
    refine h.keep id id rfl rfl (getElem?_put hr fun hrr hstuck => ?_)
    rcases hb with hb | hb
    · exact stuck_free hstuck hb
    · exact hes _ mem_cons_self (.inr (.inl (by rw [hrr]; exact hb)))
  | markChanged hr hlive hb | begins _ hr hlive hb | dropReceiver hr hlive hb =>
    exact h.keep id id rfl rfl (getElem?_put hr fun _ hstuck => stuck_free hstuck hb)
  | changedPending | waitPending =>
    exact h.keep (mem_append_left _) id rfl rfl fun _ hr _ => hr
  | dropFuture hr =>
    refine h.keep id id rfl rfl (getElem?_put hr fun hrr _ => ?_)
    exact hes _ mem_cons_self (.inr (.inl (by rw [hrr]; rfl)))

/-- The event with which a poll returns `Pending`. -/
def pendingOf (r : ℕ) (w : Waker) (wait : Bool) : Ev T :=
  if wait then .waitPending r w else .changedPending r w

theorem parked_of_pending (hm : Moved s s' es) (h : pendingOf r w wait ∈ es) :
    Parked s' r w wait := by
  have hnot : ∀ {x : Ev T}, x = pendingOf r w wait →
      Ev.aside x = false ∧ Ev.sees x = none ∧ ∀ w', x ≠ .woke w' := by
    rintro x rfl
    rcases wait with _ | _ <;> exact ⟨rfl, rfl, fun w' hw => (nomatch hw)⟩
  cases hm with
  | changedPending w' hr hlive hb hv h0 =>
    rcases wait with _ | _ <;> simp only [pendingOf, mem_singleton, Bool.false_eq_true,
      if_false, if_true, Ev.changedPending.injEq, reduceCtorEq] at h
    obtain ⟨rfl, rfl⟩ := h
    refine ⟨mem_append_right _ (mem_singleton_self _), h0, _, hr, hlive, ?_⟩
    rw [Stuck, hb]
    exact ⟨rfl, hv⟩
  | waitPending w' hr hlive hb hp h0 =>
    rcases wait with _ | _ <;> simp only [pendingOf, mem_singleton, Bool.false_eq_true,
      if_false, if_true, Ev.waitPending.injEq, reduceCtorEq] at h
    obtain ⟨rfl, rfl⟩ := h
    refine ⟨mem_append_right _ (mem_singleton_self _), h0, _, hr, hlive, ?_⟩
    rw [Stuck, hb]
    exact ⟨rfl, hp⟩
  | aside ws hes => exact absurd ((hnot rfl).1.symm.trans (hes _ h)) Bool.false_ne_true
  | sees hr hlive he =>
    rw [mem_singleton] at h
    rw [(hnot h.symm).2.1] at he
    cases he
  | dropReceiver hr hlive hb hn hes =>
    obtain ⟨w', hw'⟩ := hes _ h
    exact absurd hw' ((hnot rfl).2.2 w')
  | publish v hes =>
    rcases hes with rfl | ⟨old, rfl⟩ <;> rcases wait with _ | _ <;>
      simp [pendingOf, publish] at h
  | closed hr he =>
    rcases he with rfl | rfl <;> rcases wait with _ | _ <;> simp [pendingOf] at h
  | _ => rcases wait with _ | _ <;> simp [pendingOf] at h

/-- A parked future cannot finish. -/
theorem parked_run (h : Run step C s₀ tr s) :
    Since (· = pendingOf r w wait) (Stirs r w wait) tr → Parked s r w wait := by
  refine h.since (K := fun s => Parked s r w wait) ?_ ?_
  · rintro tr s op s' es x _ hs hx rfl
    exact parked_of_pending (step_moved hs) hx
  · intro tr s op s' es _ hs hK hes
    exact parked_moved hK (step_moved hs) hes

/-! ## The results -/

section
variable (hr : s.receivers[r]? = some rx) (hlive : rx.live = true)
include hr hlive

theorem receiver?_of : s.receiver? r = some rx := by
  rw [Sys.receiver?, hr]
  exact filter_eq_some_iff.mpr ⟨rfl, hlive⟩

theorem free?_of (hb : rx.borrow = .free) : s.free? r = some rx := by
  rw [Sys.free?, receiver?_of hr hlive, bind_some, hb]

theorem step_pollChanged (hb : rx.borrow = .changed) (cx : Waker) : ∃ s',
    step s (.pollChanged r cx) = some (s', [(pollChanged s.state r rx.seen cx).2.2]) := by
  obtain ⟨seen, b, live⟩ := rx
  obtain rfl : b = _ := hb
  have hrx := receiver?_of hr hlive
  simp only [step, hrx, bind_some]
  exact ⟨_, rfl⟩

theorem step_pollWaitFor {p : T → Bool} (hb : rx.borrow = .waitFor p) (cx : Waker) : ∃ s',
    step s (.pollWaitFor r cx) = some (s', [(pollWaitFor s.state r rx.seen p cx).2.2]) := by
  obtain ⟨seen, b, live⟩ := rx
  obtain rfl : b = _ := hb
  have hrx := receiver?_of hr hlive
  simp only [step, hrx, bind_some]
  exact ⟨_, rfl⟩

end

theorem Parked.pending {wait : Bool} (h : Parked s r w wait) (cx : Waker) : ∃ s',
    step s (if wait then .pollWaitFor r cx else .pollChanged r cx) =
      some (s', [pendingOf r cx wait]) := by
  obtain ⟨-, h0, rx, hr, hlive, hstuck⟩ := h
  unfold Stuck at hstuck
  split at hstuck
  · exact hstuck.elim
  · next hb =>
    obtain ⟨rfl, hv⟩ := hstuck
    obtain ⟨s', hs'⟩ := step_pollChanged hr hlive hb cx
    refine ⟨s', hs'.trans ?_⟩
    simp [pollChanged, hv, h0, pendingOf]
  · next p hb =>
    obtain ⟨rfl, hp⟩ := hstuck
    obtain ⟨s', hs'⟩ := step_pollWaitFor hr hlive hb cx
    refine ⟨s', hs'.trans ?_⟩
    simp [pollWaitFor, hp, h0, pendingOf]

/-- **What the receivers of a channel see.** -/
structure Sees (tr : List (Ev T)) (s : Sys T) : Prop where
  /-- `has_changed` tells whether there is an unseen change, and fails if there is none and no
  sender is left. -/
  hasChanged : ∀ (r : ℕ) (rx : Receiver T), s.receivers[r]? = some rx → rx.live = true →
    rx.borrow = .free → step s (.hasChanged r) = some (s, [.hasChanged r
      (if unseen tr r then some true else if s.liveSenders = 0 then none else some false)])
  /-- `changed` is ready if there is an unseen change, and fails if there is none and no sender is
  left. -/
  changed : ∀ (r : ℕ) (rx : Receiver T), s.receivers[r]? = some rx → rx.live = true →
    rx.borrow = .changed → ∀ cx, ∃ s', step s (.pollChanged r cx) = some (s',
      [if unseen tr r then .changed r
        else if s.liveSenders = 0 then .changedClosed r else .changedPending r cx])

theorem Tracks.sees (h : Tracks tr s) (hc : Counts s) : Sees tr s := by
  have hiff : ∀ {r rx}, s.receivers[r]? = some rx →
      (s.state.version ≠ rx.seen ↔ System.unseen tr r = true) :=
    fun hr => (h.unseen _ _ (getElem?_seens hr)).symm
  refine ⟨fun r rx hr hlive hb => ?_, fun r rx hr hlive hb cx => ?_⟩
  · rw [step, free?_of hr hlive hb, map_some, State.hasChanged, hc.senders,
      if_congr (hiff hr) rfl rfl]
  · obtain ⟨s', hs'⟩ := step_pollChanged hr hlive hb cx
    refine ⟨s', hs'.trans ?_⟩
    rw [pollChanged, hc.senders]
    by_cases hu : System.unseen tr r = true
    · rw [if_pos hu, if_pos ((hiff hr).mpr hu)]
    · rw [if_neg hu, if_neg (fun hv => hu ((hiff hr).mp hv))]
      by_cases h0 : s.liveSenders = 0
      · rw [if_pos h0, if_pos h0]
      · rw [if_neg h0, if_neg h0]

/-- **`watch` tracks changes**: with fewer than `2 ^ 64 - 1` updates the receivers see the changes
they have not seen; a `wait_for` is ready if the value satisfies the predicate, and fails if it does
not and no sender is left; a `send` that fails changes nothing; and a future that returned
`Pending` and was not woken since would return `Pending` again, one of `wait_for` as long as no
closure changed the value and returned `false`. -/
theorem watch_tracks (h0 : New s₀) (h : Run step Any s₀ tr s) :
    (updates tr < 2 ^ 64 - 1 → Sees tr s) ∧
    (∀ (r : ℕ) (rx : Receiver T) (p : T → Bool), s.receivers[r]? = some rx → rx.live = true →
      rx.borrow = .waitFor p → ∀ cx, ∃ s', step s (.pollWaitFor r cx) = some (s',
        [if p s.state.value then .waited r s.state.value (differs s.state rx.seen)
          else if s.liveSenders = 0 then .waitClosed r else .waitPending r cx])) ∧
    (∀ i v s' es, step s (.send i v) = some (s', es) → .rejected v ∈ es → s' = s) ∧
    ∀ r w wait, Since (· = pendingOf r w wait) (Stirs r w wait) tr → ∀ cx, ∃ s',
      step s (if wait then .pollWaitFor r cx else .pollChanged r cx) =
        some (s', [pendingOf r cx wait]) := by
  have hc := counts_run h0 h
  refine ⟨fun hn => (tracks_run h0 h hn).sees hc, ?_, ?_, ?_⟩
  · intro r rx p hr hlive hb cx
    obtain ⟨s', hs'⟩ := step_pollWaitFor hr hlive hb cx
    refine ⟨s', hs'.trans ?_⟩
    rw [pollWaitFor, hc.senders]
    by_cases hp : p s.state.value = true
    · rw [if_pos hp, if_pos hp]
    · rw [if_neg hp, if_neg hp]
      by_cases h0 : s.liveSenders = 0
      · rw [if_pos h0, if_pos h0]
      · rw [if_neg h0, if_neg h0]
  · intro i v s' es hs hrej
    simp only [step] at hs
    obtain ⟨-, rfl, rfl⟩ := sending_some hs
    unfold send at hrej ⊢
    split_ifs at hrej ⊢ with h0
    · rfl
    · simp [publish] at hrej
  · exact fun r w wait hsince cx => (parked_run h hsince).pending cx

theorem watch_tracks_cloned : ∃ s s' tr, Run step Any (channel 0 : Sys ℕ) tr s ∧
    step s (.hasChanged 0) = some (s, [.hasChanged 0 (some true)]) ∧
    step s (.pollChanged 1 9) = some (s', [.changedPending 1 9]) := by
  have hrun : Run step Any (channel (0 : ℕ))
      [.published, .cloned 0 1, .updated 1 1 true, .changedPending 1 7]
      ⟨⟨1, 1, 1, 2, [7], []⟩, [true], [⟨0, .free, true⟩, ⟨1, .changed, true⟩]⟩ :=
    run_exec [.send 0 1, .cloneReceiver 0, .borrowAndUpdate 1, .changed 1, .pollChanged 1 7] rfl
  have h := watch_tracks ⟨0, .inl rfl⟩ hrun
  have hsince : Since (· = pendingOf 1 7 false) (Stirs 1 7 false)
      ([.published, .cloned 0 1, .updated 1 1 true, .changedPending 1 7] : List (Ev ℕ)) :=
    ⟨[.published, .cloned 0 1, .updated 1 1 true], _, [], rfl, rfl, nofun⟩
  obtain ⟨s', hs'⟩ := h.2.2.2 1 7 false hsince 9
  exact ⟨_, s', _, hrun, (h.1 (by decide)).hasChanged 0 _ rfl rfl rfl, hs'⟩

/-- A channel after `mark_changed` at the first version and `n` updates. -/
def marked (n : ℕ) : Sys ℕ := ⟨⟨0, n, 1, 1, [], []⟩, [true], [⟨2 ^ 64 - 1, .free, true⟩]⟩

theorem run_marked : ∀ n, n < 2 ^ 64 → ∃ tr, Run step Any (channel 0) tr (marked n) ∧
    updates tr = n ∧ unseen tr 0 = true := by
  intro n
  induction n with
  | zero =>
    intro _
    exact ⟨[.markedChanged 0], run_exec [.markChanged 0] rfl, rfl, rfl⟩
  | succ n ih =>
    intro hn
    obtain ⟨tr, hrun, hup, -⟩ := ih (by omega)
    have hs : step (marked n) (.broadcast 0 0) = some (marked (n + 1), [.published]) := by
      simp only [step, Sys.sending, marked, broadcast, publish, Nat.mod_eq_of_lt hn]
      rfl
    refine ⟨_, hrun.snoc trivial hs, ?_, ?_⟩
    · rw [updates_append, hup]
      rfl
    · rw [unseen_append]
      rfl

/-- A receiver that called `mark_changed` before the first update does not see `2 ^ 64 - 1` updates;
and a closure of `send_if_modified` makes a `wait_for` able to finish that is not woken. -/
theorem watch_misses :
    (∃ s tr, Run step Any (channel 0 : Sys ℕ) tr s ∧ updates tr = 2 ^ 64 - 1 ∧
      unseen tr 0 = true ∧ step s (.hasChanged 0) = some (s, [.hasChanged 0 (some false)])) ∧
    ∃ s s' tr, Run step Any (channel 0 : Sys ℕ) tr s ∧
      Since (· = .waitPending 0 7) (fun x => x = .woke 7 ∨ Ev.ofFuture x = some 0) tr ∧
      step s (.pollWaitFor 0 7) = some (s', [.waited 0 5 false]) := by
  constructor
  · obtain ⟨tr, hrun, hup, hu⟩ := run_marked (2 ^ 64 - 1) (by decide)
    refine ⟨_, tr, hrun, hup, hu, ?_⟩
    simp [step, Sys.free?, Sys.receiver?, marked, State.hasChanged, Option.filter]
  · have hrun : Run step Any (channel (0 : ℕ)) [.waitPending 0 7, .notModified 0 5]
        ⟨⟨5, 0, 1, 1, [7], []⟩, [true], [⟨0, .waitFor fun v => v = 5, true⟩]⟩ :=
      run_exec
        [.waitFor 0 fun v => v = 5, .pollWaitFor 0 7, .sendIfModified 0 fun _ => (5, false)] rfl
    refine ⟨_, _, _, hrun, ⟨[], _, [.notModified 0 5], rfl, rfl, ?_⟩, rfl⟩
    simp [Ev.ofFuture]

end OhosFfrt.Watch.Tracking
