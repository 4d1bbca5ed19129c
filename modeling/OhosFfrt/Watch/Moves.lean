import OhosFfrt.Watch.System

/-!
# `sync::watch`: what a step can do

The counters of the state are those of the live handles (`counts_run`), so no drop underflows and
`senders == 0` says that no sender is left.
-/

namespace OhosFfrt.Watch.Moves

open Basic Lib.Runs Watch.State Watch.System List Option
open Lib.Arena (count_snoc count_same count_gone)

variable {T : Type*} {s s' : Sys T} {op : Op T} {es tr : List (Ev T)} {i r : ℕ} {rx : Receiver T}

/-- The receiver whose future is polled to an answer, or dropped. -/
def Ev.ofFuture : Ev T → Option ℕ
  | .changed r | .changedClosed r | .changedPending r _ | .waited r _ _ | .waitClosed r
  | .waitPending r _ | .futureDropped r => some r
  | _ => none

/-- The receiver that marks the value as seen. -/
def Ev.sees : Ev T → Option ℕ
  | .updated r _ _ | .markedSeen r | .changed r | .waited r _ _ => some r
  | _ => none

/-- The events of a step that changes nothing: a rejected `send`, `borrow` and `has_changed`. -/
def Ev.aside : Ev T → Bool
  | .rejected _ | .borrowed _ _ _ | .hasChanged _ _ => true
  | _ => false

/-- The sender `i` is dropped. -/
def withoutSender (s : Sys T) (i : ℕ) (state : WatchState T) : Sys T :=
  { s with state := state, senders := s.senders.set i false }

/-- One more waiter. -/
def waiting (s : Sys T) (w : Waker) : Sys T :=
  { s with state := { s.state with waiters := s.state.waiters ++ [w] } }

/-- **What a step can do.** -/
inductive Moved (s : Sys T) : Sys T → List (Ev T) → Prop
  | aside (ws : List Waker) {es : List (Ev T)} (hes : ∀ x ∈ es, Ev.aside x = true) :
      Moved s { s with state := { s.state with closedWaiters := ws } } es
  | publish (v : T) {es : List (Ev T)} (hes : es = [] ∨ ∃ old, es = [.replaced old]) :
      Moved s { s with state := (publish s.state v).1 } ((publish s.state v).2 ++ es)
  | silent (v : T) :
      Moved s { s with state := { s.state with value := v } } [.notModified s.state.value v]
  | cloneSender {i : ℕ} (hi : s.senders[i]? = some true) :
      Moved s { s with
        state := { s.state with senders := s.state.senders + 1 }
        senders := s.senders ++ [true] } []
  | dropSender {i n : ℕ} (hi : s.senders[i]? = some true) (hn : s.state.senders = n + 2) :
      Moved s (withoutSender s i { s.state with senders := n + 1 }) []
  | dropLast {i : ℕ} (hi : s.senders[i]? = some true) (hn : s.state.senders = 1) :
      Moved s (withoutSender s i { s.state with senders := 0, waiters := [] })
        (s.state.waiters.map .woke)
  | subscribe : Moved s (s.addReceiver s.state.version) [.subscribed s.receivers.length]
  | clone {r : ℕ} {rx : Receiver T} (hr : s.receivers[r]? = some rx) (hlive : rx.live = true) :
      Moved s (s.addReceiver rx.seen) [.cloned r s.receivers.length]
  | sees {r : ℕ} {rx : Receiver T} {e : Ev T} (hr : s.receivers[r]? = some rx)
      (hlive : rx.live = true) (he : Ev.sees e = some r)
      (hb : rx.borrow = .free ∨ Ev.ofFuture e = some r) :
      Moved s (s.put r { rx with seen := s.state.version }) [e]
  | markChanged {r : ℕ} {rx : Receiver T} (hr : s.receivers[r]? = some rx)
      (hlive : rx.live = true) (hb : rx.borrow = .free) :
      Moved s (s.put r { rx with seen := unseenVersion s.state }) [.markedChanged r]
  | begins {r : ℕ} {rx : Receiver T} (b : Borrow T) (hr : s.receivers[r]? = some rx)
      (hlive : rx.live = true) (hb : rx.borrow = .free) :
      Moved s (s.put r { rx with borrow := b }) []
  | closed {r : ℕ} {rx : Receiver T} {e : Ev T} (hr : s.receivers[r]? = some rx)
      (he : e = .changedClosed r ∨ e = .waitClosed r) : Moved s s [e]
  | changedPending {r : ℕ} {rx : Receiver T} (w : Waker) (hr : s.receivers[r]? = some rx)
      (hlive : rx.live = true) (hb : rx.borrow = .changed) (hv : s.state.version = rx.seen)
      (h0 : s.state.senders ≠ 0) : Moved s (waiting s w) [.changedPending r w]
  | waitPending {r : ℕ} {rx : Receiver T} {p : T → Bool} (w : Waker)
      (hr : s.receivers[r]? = some rx) (hlive : rx.live = true) (hb : rx.borrow = .waitFor p)
      (hp : p s.state.value = false) (h0 : s.state.senders ≠ 0) :
      Moved s (waiting s w) [.waitPending r w]
  | dropFuture {r : ℕ} {rx : Receiver T} (hr : s.receivers[r]? = some rx)
      (hlive : rx.live = true) :
      Moved s (s.put r { rx with borrow := .free }) [.futureDropped r]
  | dropReceiver {r n : ℕ} {rx : Receiver T} {ws : List Waker} {es : List (Ev T)}
      (hr : s.receivers[r]? = some rx) (hlive : rx.live = true) (hb : rx.borrow = .free)
      (hn : s.state.receivers = n + 1) (hes : ∀ x ∈ es, ∃ w, x = .woke w) :
      Moved s ({ s with state := { s.state with receivers := n, closedWaiters := ws } }.put r
        { rx with live := false }) es

theorem receiver?_some (h : s.receiver? r = some rx) :
    s.receivers[r]? = some rx ∧ rx.live = true := filter_eq_some_iff.mp h

theorem free?_some (h : s.free? r = some rx) :
    s.receivers[r]? = some rx ∧ rx.live = true ∧ rx.borrow = .free := by
  obtain ⟨rx', hrx, h⟩ := bind_eq_some_iff.mp h
  obtain ⟨hr, hlive⟩ := receiver?_some hrx
  split at h
  · next hb =>
    cases h
    exact ⟨hr, hlive, hb⟩
  · cases h

theorem moved_put {t : Sys T} (hr : t.receivers[r]? = some rx) (h : Moved s t es) :
    Moved s (t.put r rx) es := by
  unfold Sys.put
  obtain ⟨hlt, rfl⟩ := List.getElem?_eq_some_iff.mp hr
  rw [set_getElem_self]
  exact h

theorem sending_some {f : WatchState T → WatchState T × List (Ev T)}
    (h : s.sending i f = some (s', es)) :
    s.senders[i]? = some true ∧ s' = { s with state := (f s.state).1 } ∧ es = (f s.state).2 := by
  unfold Sys.sending at h
  split_ifs at h with hi
  cases h
  exact ⟨hi, rfl, rfl⟩

/-! ## One lemma for each kind of operation -/

theorem moved_publish (v : T) :
    Moved s { s with state := (publish s.state v).1 } (publish s.state v).2 := by
  have hm := Moved.publish (s := s) v (.inl rfl)
  rw [append_nil] at hm
  exact hm

theorem moved_send (v : T) : Moved s { s with state := (send s.state v).1 } (send s.state v).2 := by
  unfold send
  split_ifs
  · exact .aside s.state.closedWaiters (by simp [Ev.aside])
  · exact moved_publish v

theorem moved_sendIfModified (f : T → T × Bool) :
    Moved s { s with state := (sendIfModified s.state f).1 } (sendIfModified s.state f).2 := by
  unfold sendIfModified
  dsimp only
  split_ifs
  · exact moved_publish _
  · exact .silent _

theorem moved_pollClosed (cx : Waker) :
    Moved s { s with state := (pollClosed s.state cx).getD s.state } [] := by
  unfold pollClosed
  split_ifs
  · exact .aside s.state.closedWaiters (by simp)
  · exact .aside _ (by simp)

theorem moved_dropSender (hi : s.senders[i]? = some true)
    (h : ((dropSender s.state).map fun x => (withoutSender s i x.1, x.2)) = some (s', es)) :
    Moved s s' es := by
  obtain ⟨x, hx, ⟨⟩⟩ := map_eq_some_iff.mp h
  obtain ⟨n, hn, rfl⟩ := map_eq_some_iff.mp hx
  replace hn := checkedSub_eq_some hn
  rcases n with _ | n
  · exact .dropLast hi hn
  · exact .dropSender hi hn

theorem moved_pollChanged {cx : Waker} (h : step s (.pollChanged r cx) = some (s', es)) :
    Moved s s' es := by
  obtain ⟨rx, hrx, h⟩ := bind_eq_some_iff.mp h
  obtain ⟨hr, hlive⟩ := receiver?_some hrx
  split at h
  · next hb =>
    cases h
    unfold pollChanged
    by_cases hv : s.state.version = rx.seen
    · rw [if_neg (not_not.mpr hv)]
      by_cases h0 : s.state.senders = 0
      · rw [if_pos h0]
        exact moved_put hr (.closed hr (.inl rfl))
      · rw [if_neg h0]
        exact moved_put (t := waiting s cx) hr (.changedPending cx hr hlive hb hv h0)
    · rw [if_pos hv]
      exact .sees hr hlive rfl (.inr rfl)
  · cases h

theorem moved_pollWaitFor {cx : Waker} (h : step s (.pollWaitFor r cx) = some (s', es)) :
    Moved s s' es := by
  obtain ⟨rx, hrx, h⟩ := bind_eq_some_iff.mp h
  obtain ⟨hr, hlive⟩ := receiver?_some hrx
  split at h
  · next p hb =>
    cases h
    unfold pollWaitFor
    by_cases hp : p s.state.value = true
    · rw [if_pos hp]
      exact .sees hr hlive rfl (.inr rfl)
    · rw [if_neg hp]
      by_cases h0 : s.state.senders = 0
      · rw [if_pos h0]
        exact moved_put hr (.closed hr (.inr rfl))
      · rw [if_neg h0]
        have hp' := Bool.eq_false_iff.mpr hp
        exact moved_put (t := waiting s cx) hr (.waitPending cx hr hlive hb hp' h0)
  · cases h

theorem moved_dropFuture (h : step s (.dropFuture r) = some (s', es)) : Moved s s' es := by
  obtain ⟨rx, hrx, h⟩ := bind_eq_some_iff.mp h
  obtain ⟨hr, hlive⟩ := receiver?_some hrx
  split at h
  · cases h
  · cases h
    exact .dropFuture hr hlive

theorem moved_dropReceiver (h : step s (.dropReceiver r) = some (s', es)) : Moved s s' es := by
  obtain ⟨rx, hrx, h⟩ := bind_eq_some_iff.mp h
  obtain ⟨hr, hlive, hb⟩ := free?_some hrx
  obtain ⟨x, hx, ⟨⟩⟩ := map_eq_some_iff.mp h
  obtain ⟨n, hn, rfl⟩ := map_eq_some_iff.mp hx
  rcases n with _ | n <;> exact .dropReceiver hr hlive hb (checkedSub_eq_some hn) (by simp)

theorem step_moved (h : step s op = some (s', es)) : Moved s s' es := by
  cases op with
  | send i v =>
    simp only [step] at h
    obtain ⟨-, rfl, rfl⟩ := sending_some h
    exact moved_send v
  | sendReplace i v =>
    simp only [step] at h
    obtain ⟨-, rfl, rfl⟩ := sending_some h
    exact .publish v (.inr ⟨_, rfl⟩)
  | sendModify =>
    simp only [step] at h
    obtain ⟨-, rfl, rfl⟩ := sending_some h
    exact moved_publish _
  | sendIfModified i f =>
    simp only [step] at h
    obtain ⟨-, rfl, rfl⟩ := sending_some h
    exact moved_sendIfModified f
  | broadcast i v =>
    simp only [step] at h
    obtain ⟨-, rfl, rfl⟩ := sending_some h
    exact moved_publish v
  | subscribe =>
    obtain ⟨-, ⟨⟩⟩ := ite_none_right_eq_some.mp h
    exact .subscribe
  | cloneSender =>
    obtain ⟨hi, ⟨⟩⟩ := ite_none_right_eq_some.mp h
    exact .cloneSender hi
  | dropSender =>
    simp only [step, ite_none_right_eq_some] at h
    exact moved_dropSender h.1 h.2
  | pollClosed i cx =>
    simp only [step] at h
    obtain ⟨-, rfl, rfl⟩ := sending_some h
    exact moved_pollClosed cx
  | borrow | hasChanged =>
    obtain ⟨rx, hrx, h⟩ := map_eq_some_iff.mp h
    cases h
    exact .aside s.state.closedWaiters (by simp [Ev.aside])
  | borrowAndUpdate | markSeen =>
    obtain ⟨rx, hrx, h⟩ := map_eq_some_iff.mp h
    cases h
    obtain ⟨hr, hlive, hb⟩ := free?_some hrx
    exact .sees hr hlive rfl (.inl hb)
  | markChanged =>
    obtain ⟨rx, hrx, h⟩ := map_eq_some_iff.mp h
    cases h
    obtain ⟨hr, hlive, hb⟩ := free?_some hrx
    exact .markChanged hr hlive hb
  | changed | waitFor =>
    obtain ⟨rx, hrx, h⟩ := map_eq_some_iff.mp h
    cases h
    obtain ⟨hr, hlive, hb⟩ := free?_some hrx
    exact .begins _ hr hlive hb
  | pollChanged => exact moved_pollChanged h
  | pollWaitFor => exact moved_pollWaitFor h
  | dropFuture => exact moved_dropFuture h
  | cloneReceiver =>
    obtain ⟨rx, hrx, h⟩ := map_eq_some_iff.mp h
    cases h
    obtain ⟨hr, hlive, -⟩ := free?_some hrx
    exact .clone hr hlive
  | dropReceiver => exact moved_dropReceiver h

/-! ## The counters -/

/-- **The counters are those of the live handles.** -/
structure Counts (s : Sys T) : Prop where
  senders : s.state.senders = s.liveSenders
  receivers : s.state.receivers = s.liveReceivers

theorem counts_step (h : Counts s) (hs : step s op = some (s', es)) : Counts s' := by
  obtain ⟨h1, h2⟩ := h
  cases step_moved hs with
  | aside | publish | silent | closed | changedPending | waitPending => exact ⟨h1, h2⟩
  | cloneSender => exact ⟨count_snoc h1 rfl, h2⟩
  | dropSender hi hn | dropLast hi hn => exact ⟨count_gone h1 hi rfl rfl hn, h2⟩
  | subscribe | clone => exact ⟨h1, count_snoc h2 rfl⟩
  | sees hr | markChanged hr | begins b hr | dropFuture hr => exact ⟨h1, count_same h2 hr rfl⟩
  | dropReceiver hr hlive _ hn => exact ⟨h1, count_gone h2 hr hlive rfl hn⟩

/-- A new channel, with a receiver or none. -/
def New (s₀ : Sys T) : Prop := ∃ init, s₀ = channel init ∨ s₀ = senderNew init

theorem counts_run {s₀ : Sys T} {C : List (Ev T) → Sys T → Op T → Prop} (h0 : New s₀)
    (h : Run step C s₀ tr s) : Counts s := by
  refine h.inv ?_ fun _ _ _ _ _ hI _ hs => counts_step hI hs
  obtain ⟨init, rfl | rfl⟩ := h0 <;> exact ⟨rfl, rfl⟩

end OhosFfrt.Watch.Moves
