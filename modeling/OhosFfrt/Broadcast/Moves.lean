import OhosFfrt.Broadcast.System

/-!
# `sync::broadcast`: what a step can do

The counters of the state are those of the live handles (`counts_run`), so no drop underflows and
the channel is kept exactly by them.
-/

namespace OhosFfrt.Broadcast.Moves

open Basic Lib.Runs Broadcast.State Broadcast.System List Option
open Lib.Arena (count_snoc count_same count_gone)

variable {T : Type*} {s s' : Sys T} {op : Op T} {es tr : List (Ev T)} {i r : ℕ} {rx : Receiver}

/-- The sender `i` is dropped. -/
def withoutSender (s : Sys T) (i : ℕ) (state : BroadcastState T) : Sys T :=
  { s with state := state, senders := s.senders.set i false }

/-- A receiver moves on to `nextSeq`. -/
def moveTo (s : Sys T) (r : ℕ) (rx : Receiver) (nextSeq : ℕ) : List Receiver :=
  s.receivers.set r { rx with nextSeq := nextSeq }

/-- **What a step can do.** -/
inductive Moved (s : Sys T) : Op T → Sys T → List (Ev T) → Prop
  | idle {op : Op T} {s' : Sys T} {es : List (Ev T)}
      (hst : s'.state = { s.state with closeWaiters := s'.state.closeWaiters })
      (hs : s'.senders = s.senders) (hr : s'.receivers = s.receivers)
      (hes : ∀ x ∈ es, (∃ v, x = .rejected v) ∨ x = .notUpgraded) : Moved s op s' es
  | send {op : Op T} {v : T} {i : ℕ} (hi : s.senders[i]? = some true) :
      Moved s op { s with state := (pushLocked s.state v).1 }
        (.accepted v s.state.receivers :: s.state.waiters.map .woke)
  | cloneSender {op : Op T} {i : ℕ} (hi : s.senders[i]? = some true) : Moved s op s.addSender []
  | upgrade (ha : s.alive = true) : Moved s .upgrade s.addSender [.upgraded]
  | dropSender {op : Op T} {i n : ℕ} (hi : s.senders[i]? = some true)
      (hn : s.state.senders = n + 2) :
      Moved s op (withoutSender s i { s.state with senders := n + 1 }) []
  | dropLast {op : Op T} {i : ℕ} (hi : s.senders[i]? = some true) (hn : s.state.senders = 1) :
      Moved s op (withoutSender s i { s.state with senders := 0, waiters := [] })
        (.sendersGone :: s.state.waiters.map .woke)
  | addReceiver {op : Op T} (ha : s.alive = true) : Moved s op s.addReceiver.1 s.addReceiver.2
  | tryRecv {op : Op T} {r : ℕ} {rx : Receiver} (hr : s.receivers[r]? = some rx)
      (hlive : rx.live = true) (hrecv : rx.recv = false) :
      Moved s op
        { s with receivers := moveTo s r rx (tryRecvLocked s.state rx.nextSeq).2 }
        [reportTry r (tryRecvLocked s.state rx.nextSeq).1]
  | poll {op : Op T} {r : ℕ} {rx : Receiver} (cx : Waker) (hr : s.receivers[r]? = some rx)
      (hlive : rx.live = true) (hrecv : rx.recv = true) :
      Moved s op
        { s with
          state := (pollRecv s.state rx.nextSeq cx).2.2
          receivers := moveTo s r rx (pollRecv s.state rx.nextSeq cx).2.1 }
        [reportPoll r cx (pollRecv s.state rx.nextSeq cx).1]
  | recv {op : Op T} {r : ℕ} {rx : Receiver} (hr : s.receivers[r]? = some rx)
      (hlive : rx.live = true) (hrecv : rx.recv = false) :
      Moved s op { s with receivers := s.receivers.set r { rx with recv := true } } []
  | dropRecv {op : Op T} {r : ℕ} {rx : Receiver} (hr : s.receivers[r]? = some rx)
      (hlive : rx.live = true) :
      Moved s op { s with receivers := s.receivers.set r { rx with recv := false } }
        [.recvDropped r]
  | dropReceiver {op : Op T} {r n : ℕ} {rx : Receiver} {ws : List Waker}
      {es : List (Ev T)} (hr : s.receivers[r]? = some rx) (hlive : rx.live = true)
      (hrecv : rx.recv = false) (hn : s.state.receivers = n + 1)
      (hes : ∀ x ∈ es, ∃ w, x = .woke w) :
      Moved s op
        { s with
          state := { s.state with receivers := n, closeWaiters := ws }
          receivers := s.receivers.set r { rx with live := false } } es

theorem receiver?_some {b : Bool} (h : s.receiver? r b = some rx) :
    s.receivers[r]? = some rx ∧ rx.live = true ∧ rx.recv = b := by
  obtain ⟨h1, h2⟩ := filter_eq_some_iff.mp h
  rw [Bool.and_eq_true, decide_eq_true_eq] at h2
  exact ⟨h1, h2⟩

theorem alive_of_sender (h : s.senders[i]? = some true) : s.alive = true := by
  unfold Sys.alive
  rw [Bool.or_eq_true, List.any_eq_true]
  exact Or.inl ⟨true, List.mem_of_getElem? h, rfl⟩

theorem alive_of_receiver (h : s.receivers[r]? = some rx) (hlive : rx.live = true) :
    s.alive = true := by
  unfold Sys.alive
  rw [Bool.or_eq_true, List.any_eq_true, List.any_eq_true]
  exact Or.inr ⟨rx, List.mem_of_getElem? h, hlive⟩

/-! ## One lemma for each kind of operation -/

theorem moved_send {v : T} (hi : s.senders[i]? = some true)
    (h : (({ s with state := (send s.state v).1 }, (send s.state v).2) : Sys T × _) = (s', es)) :
    Moved s op s' es := by
  unfold State.send at h
  split_ifs at h with hr
  · cases h
    exact .idle rfl rfl rfl (by simp)
  · cases h
    exact .send hi

theorem moved_dropSender (hi : s.senders[i]? = some true)
    (h : ((dropSender s.state).map fun r => (withoutSender s i r.1, r.2)) = some (s', es)) :
    Moved s op s' es := by
  obtain ⟨r, hr, ⟨⟩⟩ := map_eq_some_iff.mp h
  obtain ⟨n, hn, rfl⟩ := map_eq_some_iff.mp hr
  replace hn := checkedSub_eq_some hn
  rcases n with _ | n
  · exact .dropLast hi hn
  · exact .dropSender hi hn

theorem moved_pollClosed {cx : Waker} (h : (match pollClosed s.state cx with
    | none => some (s, [])
    | some state => some ({ s with state := state }, [])) = some (s', es)) : Moved s op s' es := by
  unfold State.pollClosed at h
  split_ifs at h <;> cases h
  all_goals exact .idle rfl rfl rfl (by simp)

theorem moved_upgrade (h : step s .upgrade = some (s', es)) : Moved s .upgrade s' es := by
  simp only [step] at h
  split_ifs at h with hw ha <;> cases h
  · exact .upgrade ha
  · exact .idle rfl rfl rfl (by simp)

theorem moved_tryRecv (h : s.tryRecv r = some (s', es)) : Moved s op s' es := by
  obtain ⟨rx, hrx, ⟨⟩⟩ := map_eq_some_iff.mp h
  obtain ⟨h1, h2, h3⟩ := receiver?_some hrx
  exact .tryRecv h1 h2 h3

theorem moved_addReceiver (h : ((s.receiver? r false).map fun _ => s.addReceiver) = some (s', es)) :
    Moved s op s' es := by
  simp only [map_eq_some_iff] at h
  obtain ⟨rx, hrx, h⟩ := h
  obtain ⟨h1, h2, -⟩ := receiver?_some hrx
  have hm : Moved s op s.addReceiver.1 s.addReceiver.2 := .addReceiver (alive_of_receiver h1 h2)
  rw [h] at hm
  exact hm

theorem moved_dropReceiver (h : step s (.dropReceiver r) = some (s', es)) : Moved s op s' es := by
  obtain ⟨rx, hrx, h⟩ := bind_eq_some_iff.mp h
  obtain ⟨h1, h2, h3⟩ := receiver?_some hrx
  obtain ⟨r, hr, ⟨⟩⟩ := map_eq_some_iff.mp h
  obtain ⟨n, hn, rfl⟩ := map_eq_some_iff.mp hr
  rcases n with _ | n <;> exact .dropReceiver h1 h2 h3 (checkedSub_eq_some hn) (by simp)

theorem step_moved (h : step s op = some (s', es)) : Moved s op s' es := by
  have hsender : ∀ {i}, s.hasSender i = true → s.senders[i]? = some true := by
    intro i hi
    simpa [Sys.hasSender] using hi
  rcases op with ⟨i, v⟩ | i | i | i | i | ⟨i, cx⟩ | _ | _ | _ | r | ⟨r, cx⟩ | r | r | r | r | r | r
  · simp only [step, ite_none_right_eq_some, some.injEq] at h
    exact moved_send (hsender h.1) h.2
  · simp only [step, ite_none_right_eq_some, some.injEq] at h
    have hm : Moved s (.subscribe i) s.addReceiver.1 s.addReceiver.2 :=
      .addReceiver (alive_of_sender (hsender h.1))
    rw [h.2] at hm
    exact hm
  · obtain ⟨hi, ⟨⟩⟩ := ite_none_right_eq_some.mp h
    exact .cloneSender (hsender hi)
  · simp only [step, ite_none_right_eq_some] at h
    exact moved_dropSender (hsender h.1) h.2
  · obtain ⟨hi, ⟨⟩⟩ := ite_none_right_eq_some.mp h
    exact .idle rfl rfl rfl (by simp)
  · simp only [step, ite_none_right_eq_some] at h
    exact moved_pollClosed h.2
  · exact moved_upgrade h
  iterate 2
    · obtain ⟨-, ⟨⟩⟩ := ite_none_left_eq_some.mp h
      exact .idle rfl rfl rfl (by simp)
  · obtain ⟨rx, hrx, ⟨⟩⟩ := map_eq_some_iff.mp h
    obtain ⟨h1, h2, h3⟩ := receiver?_some hrx
    exact .recv h1 h2 h3
  · obtain ⟨rx, hrx, ⟨⟩⟩ := map_eq_some_iff.mp h
    obtain ⟨h1, h2, h3⟩ := receiver?_some hrx
    exact .poll cx h1 h2 h3
  · obtain ⟨rx, hrx, ⟨⟩⟩ := map_eq_some_iff.mp h
    obtain ⟨h1, h2, -⟩ := receiver?_some hrx
    exact .dropRecv h1 h2
  · exact moved_tryRecv h
  · exact moved_tryRecv h
  · exact moved_addReceiver h
  · exact moved_addReceiver h
  · exact moved_dropReceiver h

/-! ## The counters -/

/-- **The counters are those of the live handles.** -/
structure Counts (s : Sys T) : Prop where
  senders : s.state.senders = s.liveSenders
  receivers : s.state.receivers = s.liveReceivers

/-- **A poll of a `recv` future** is ready and leaves the state as it was, or it has found nothing
and leaves its waker. -/
theorem pollRecv_cases (st : BroadcastState T) (p : ℕ) (cx : Waker) :
    (∃ x p', pollRecv st p cx = (some x, p', st)) ∨
    (st.queue.find? (fun e => p ≤ e.1) = none ∧ st.senders ≠ 0 ∧
      pollRecv st p cx = (none, p, { st with waiters := st.waiters ++ [cx] })) := by
  rcases hq : st.queue.find? (fun e => p ≤ e.1) with _ | ⟨seq, v⟩
  · by_cases h0 : st.senders = 0
    · refine .inl ⟨.error .closed, p, ?_⟩
      simp only [pollRecv, hq, if_pos h0]
    · refine .inr ⟨hq, h0, ?_⟩
      simp only [pollRecv, hq, if_neg h0]
  · left
    by_cases hlag : seq > p
    · refine ⟨.error (.lagged (seq - p)), seq, ?_⟩
      simp only [pollRecv, hq, if_pos hlag]
    · refine ⟨.ok v, (p + 1) % 2 ^ 64, ?_⟩
      simp only [pollRecv, hq, if_neg hlag]

theorem pollRecv_state (st : BroadcastState T) (p : ℕ) (cx : Waker) :
    ∃ ws, (pollRecv st p cx).2.2 = { st with waiters := ws } ∧ st.waiters ⊆ ws := by
  rcases pollRecv_cases st p cx with ⟨x, p', h⟩ | ⟨-, -, h⟩
  · exact ⟨st.waiters, by rw [h], fun _ hw => hw⟩
  · exact ⟨_, by rw [h], subset_append_left _ _⟩

theorem counts_step (h : Counts s) (hs : step s op = some (s', es)) : Counts s' := by
  obtain ⟨h1, h2⟩ := h
  cases step_moved hs with
  | idle hst hse hre =>
    refine ⟨?_, ?_⟩
    · rw [hst, Sys.liveSenders, hse]
      exact h1
    · rw [hst, Sys.liveReceivers, hre]
      exact h2
  | send => exact ⟨h1, h2⟩
  | cloneSender | upgrade => exact ⟨count_snoc h1 rfl, h2⟩
  | dropSender hi hn | dropLast hi hn => exact ⟨count_gone h1 hi rfl rfl hn, h2⟩
  | addReceiver => exact ⟨h1, count_snoc h2 rfl⟩
  | tryRecv hr | recv hr | dropRecv hr => exact ⟨h1, count_same h2 hr rfl⟩
  | poll cx hr =>
    obtain ⟨ws, hst, -⟩ := pollRecv_state s.state _ cx
    refine ⟨?_, ?_⟩
    · rw [hst]
      exact h1
    · rw [hst]
      exact count_same h2 hr rfl
  | dropReceiver hr hlive _ hn => exact ⟨h1, count_gone h2 hr hlive rfl hn⟩

/-- A new channel, with a receiver or none. -/
def New (c : ℕ) (s₀ : Sys T) : Prop := channel c = some s₀ ∨ senderNew c = some s₀

theorem New.eq {c : ℕ} {s₀ : Sys T} (h : New c s₀) : 0 < c ∧ ∃ rxs,
    (rxs = [⟨0, false, true⟩] ∨ rxs = []) ∧
    s₀ = ⟨⟨[], c, 0, 1, rxs.length, [], []⟩, [true], 0, rxs⟩ := by
  unfold New channel senderNew BroadcastState.new at h
  rcases h with h | h <;> split_ifs at h with hc <;>
    simp only [map_some, map_none, some.injEq, reduceCtorEq] at h <;>
    subst h
  · exact ⟨hc, _, .inl rfl, rfl⟩
  · exact ⟨hc, _, .inr rfl, rfl⟩

/-- The counters count the handles. -/
theorem counts_run {c : ℕ} {s₀ : Sys T} {C : List (Ev T) → Sys T → Op T → Prop} (h0 : New c s₀)
    (h : Run step C s₀ tr s) : Counts s := by
  refine h.inv ?_ fun _ _ _ _ _ hI _ hs => counts_step hI hs
  obtain ⟨-, rxs, hr, rfl⟩ := h0.eq
  rcases hr with rfl | rfl <;> exact ⟨rfl, rfl⟩

end OhosFfrt.Broadcast.Moves
