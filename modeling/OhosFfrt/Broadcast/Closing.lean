import OhosFfrt.Broadcast.Sequence

/-!
# `sync::broadcast`: a closed channel

`WeakSender::upgrade` asks only for the channel to be there, and a receiver keeps it.  The result,
`broadcast_stays_closed`, is about runs in which no weak sender brings back a channel (`NoRevival`).
-/

namespace OhosFfrt.Broadcast.Closing

open Basic Lib.Arena Lib.Runs Broadcast.State Broadcast.System List
open Broadcast.Moves Broadcast.Sequence

variable {T : Type*} {s₀ s s' : Sys T} {op : Op T} {es tr : List (Ev T)} {c i r : ℕ}
  {rx : Receiver} {st : BroadcastState T}

/-- **The condition on a step**: no weak sender is upgraded while the channel has receivers but no
sender. -/
def NoRevival (_ : List (Ev T)) (s : Sys T) (op : Op T) : Prop :=
  op = .upgrade → s.state.senders = 0 → s.liveReceivers = 0

instance [DecidableEq T] (tr : List (Ev T)) (s : Sys T) (op : Op T) :
    Decidable (NoRevival tr s op) := inferInstanceAs (Decidable (_ → _ → _))

/-- The receiver whose receive an event reports, and whether it was told `Closed`. -/
def answer : Ev T → Option (ℕ × Bool)
  | .closed r => some (r, true)
  | .received r _ | .lagged r _ | .empty r | .pending r _ => some (r, false)
  | _ => none

/-! ## Receives -/

/-- The answer is `Closed`. -/
def isClosed : Except TryRecvError T → Bool
  | .error .closed => true
  | _ => false

theorem answer_reportTry (r : ℕ) (x : Except TryRecvError T) :
    answer (reportTry r x) = some (r, isClosed x) := by
  rcases x with (_ | _ | _) | _ <;> rfl

theorem answer_reportPoll (r : ℕ) (cx : Waker) (x : Option (Except RecvError T)) :
    answer (reportPoll r cx x) = some (r, isClosed (asTry x)) := by
  rcases x with _ | (_ | _) | _ <;> rfl

theorem not_answer {x : Ev T} {q : ℕ × Bool} (ha : answer x = some q) {y : Ev T}
    (hy : answer y = none) : y ∉ [x] := by
  intro h
  rw [mem_singleton.mp h, ha] at hy
  cases hy

theorem isClosed_iff {p : ℕ} : isClosed (tryRecvLocked st p).1 = true ↔
    st.queue.find? (fun e => p ≤ e.1) = none ∧ st.senders = 0 := by
  rcases hq : st.queue.find? (fun e => p ≤ e.1) with _ | ⟨seq, v⟩
  · by_cases h0 : st.senders = 0
    · simp [tryRecvLocked, hq, h0, isClosed]
    · simp [tryRecvLocked, hq, h0, isClosed]
  · simp only [tryRecvLocked, hq]
    split_ifs <;> simp [isClosed]

theorem place_of_none {p : ℕ} (h : st.queue.find? (fun e => p ≤ e.1) = none) :
    (tryRecvLocked st p).2 = p := by
  simp only [tryRecvLocked, h]
  split_ifs <;> rfl

theorem receive_or (hs : step s op = some (s', es)) :
    (∃ r rx x, es = [x] ∧ s.receivers[r]? = some rx ∧
      answer x = some (r, isClosed (tryRecvLocked s.state rx.nextSeq).1) ∧
      s'.receivers = moveTo s r rx (tryRecvLocked s.state rx.nextSeq).2 ∧
      s'.state.senders = s.state.senders ∧ s'.state.queue = s.state.queue) ∨
    (SamePlaces s'.receivers s.receivers ∧ ∀ y ∈ es, answer y = none) := by
  have hsame : SamePlaces s.receivers s.receivers := fun r rx hrx => ⟨rx, hrx, rfl⟩
  have hwoke : ∀ (ws : List Waker), ∀ y ∈ ws.map (.woke : Waker → Ev T), answer y = none := by
    intro ws y hy
    obtain ⟨w, -, rfl⟩ := mem_map.mp hy
    rfl
  cases step_moved hs with
  | idle _ _ hr hes =>
    refine .inr ⟨hr ▸ hsame, fun y hy => ?_⟩
    rcases hes y hy with ⟨v, rfl⟩ | rfl <;> rfl
  | send | dropLast =>
    refine .inr ⟨hsame, fun y hy => ?_⟩
    rcases mem_cons.mp hy with rfl | hy
    · rfl
    · exact hwoke _ y hy
  | cloneSender | dropSender => exact .inr ⟨hsame, by simp⟩
  | upgrade => exact .inr ⟨hsame, by simp [answer]⟩
  | addReceiver =>
    refine .inr ⟨fun r rx hrx => ⟨rx, ?_, rfl⟩, by simp [Sys.addReceiver, answer]⟩
    have hlt := lt_length hrx
    exact (getElem?_append_left hlt).trans hrx
  | tryRecv hr => exact .inl ⟨_, _, _, rfl, hr, answer_reportTry _ _, rfl, rfl, rfl⟩
  | @poll op r rx cx hr =>
    obtain ⟨ws, hst, -⟩ := pollRecv_state s.state rx.nextSeq cx
    obtain ⟨h1, h2⟩ := pollRecv_agrees s.state rx.nextSeq cx
    refine .inl ⟨r, rx, _, rfl, hr, ?_, ?_, ?_, ?_⟩
    · rw [answer_reportPoll, h1]
    · rw [h2]
    · rw [hst]
    · rw [hst]
  | recv hr => exact .inr ⟨samePlaces_of_map fun r => (nextSeq_set hr r).symm, by simp⟩
  | dropRecv hr =>
    exact .inr ⟨samePlaces_of_map fun r => (nextSeq_set hr r).symm, by simp [answer]⟩
  | dropReceiver hr _ _ _ hes =>
    refine .inr ⟨samePlaces_of_map fun r => (nextSeq_set hr r).symm, fun y hy => ?_⟩
    obtain ⟨w, rfl⟩ := hes y hy
    rfl

/-! ## A channel without senders -/

theorem no_sender (h : Counts s) (h0 : s.state.senders = 0) : s.senders[i]? ≠ some true := by
  intro hi
  have hpos : 0 < s.senders.countP id :=
    countP_pos_iff.mpr ⟨true, mem_of_getElem? hi, rfl⟩
  have hs : s.state.senders = s.senders.countP id := h.senders
  omega

theorem not_alive (h : Counts s) (h0 : s.state.senders = 0) (hr : s.liveReceivers = 0) :
    s.alive = false := by
  have hs : s.senders.countP id = 0 := h.senders.symm.trans h0
  have hr : s.receivers.countP Receiver.live = 0 := hr
  rw [countP_eq_zero] at hs hr
  unfold Sys.alive
  rw [Bool.or_eq_false_iff, any_eq_false, any_eq_false]
  exact ⟨hs, hr⟩

/-- **What a step does to a channel without senders**: no sender comes back, the queue stays, and
only receives move a receiver. -/
theorem silent_step (h : Counts s) (h0 : s.state.senders = 0) (hC : NoRevival tr s op)
    (hs : step s op = some (s', es)) :
    s'.state.senders = 0 ∧ s'.state.queue = s.state.queue ∧ .upgraded ∉ es := by
  cases step_moved hs with
  | idle hst _ _ hes =>
    rw [hst]
    refine ⟨h0, rfl, fun hx => ?_⟩
    rcases hes _ hx with ⟨v, hv⟩ | hv <;> cases hv
  | send hi | cloneSender hi | dropSender hi | dropLast hi => exact absurd hi (no_sender h h0)
  | upgrade ha =>
    rw [not_alive h h0 (hC rfl h0)] at ha
    cases ha
  | addReceiver => exact ⟨h0, rfl, by simp [Sys.addReceiver]⟩
  | recv | dropRecv => exact ⟨h0, rfl, by simp⟩
  | tryRecv => exact ⟨h0, rfl, not_answer (answer_reportTry _ _) rfl⟩
  | @poll op r rx cx =>
    obtain ⟨ws, hst, -⟩ := pollRecv_state s.state rx.nextSeq cx
    rw [hst]
    exact ⟨h0, rfl, not_answer (answer_reportPoll _ _ _) rfl⟩
  | dropReceiver _ _ _ _ hes =>
    refine ⟨h0, rfl, fun hx => ?_⟩
    obtain ⟨w, hw⟩ := hes _ hx
    cases hw

/-! ## A receiver that was told `Closed` -/

/-- The receiver `r` has seen everything and no sender is left. -/
structure Ended (r : ℕ) (s : Sys T) : Prop where
  senders : s.state.senders = 0
  place : ∃ rx, s.receivers[r]? = some rx ∧
    s.state.queue.find? (fun e => rx.nextSeq ≤ e.1) = none

theorem ended_of_closed (hs : step s op = some (s', es)) (hx : .closed r ∈ es) :
    Ended r s' ∧ ∀ y ∈ es, answer y ≠ some (r, false) := by
  rcases receive_or hs with ⟨r', rx, x, rfl, hrx, ha, hr, hsend, hq⟩ | ⟨-, hes⟩
  · rw [mem_singleton] at hx
    subst hx
    simp only [answer, Option.some.injEq, Prod.mk.injEq] at ha
    obtain ⟨rfl, ha⟩ := ha
    obtain ⟨hf, h0⟩ := isClosed_iff.mp ha.symm
    have hlt := lt_length hrx
    refine ⟨⟨hsend.trans h0, rx, ?_, hq ▸ hf⟩, by simp [answer]⟩
    rw [hr, place_of_none hf]
    exact getElem?_set_self hlt
  · cases hes _ hx

theorem ended_step (h : Counts s) (hE : Ended r s) (hC : NoRevival tr s op)
    (hs : step s op = some (s', es)) : Ended r s' ∧ ∀ y ∈ es, answer y ≠ some (r, false) := by
  obtain ⟨h0, hq, -⟩ := silent_step h hE.senders hC hs
  obtain ⟨rx, hrx, hf⟩ := hE.place
  rcases receive_or hs with ⟨r', rx', x, rfl, hrx', ha, hr, -, -⟩ | ⟨hsame, hes⟩
  · by_cases hrr : r' = r
    · subst hrr
      rw [hrx, Option.some.injEq] at hrx'
      subst hrx'
      have hlt := lt_length hrx
      rw [isClosed_iff.mpr ⟨hf, hE.senders⟩] at ha
      rw [place_of_none hf] at hr
      refine ⟨⟨h0, rx, ?_, hq ▸ hf⟩, ?_⟩
      · rw [hr]
        exact getElem?_set_self hlt
      · intro y hy
        rw [mem_singleton.mp hy, ha]
        simp
    · refine ⟨⟨h0, rx, ?_, hq ▸ hf⟩, ?_⟩
      · rw [hr, moveTo, getElem?_set_ne hrr]
        exact hrx
      · intro y hy
        rw [mem_singleton.mp hy, ha]
        simp [hrr]
  · obtain ⟨rx', hrx', heq⟩ := hsame r rx hrx
    refine ⟨⟨h0, rx', hrx', ?_⟩, fun y hy => ?_⟩
    · rw [hq, ← heq]
      exact hf
    · rw [hes y hy]
      simp

/-! ## The result -/

theorem senders_of_gone (hs : step s op = some (s', es)) (hx : .sendersGone ∈ es) :
    s'.state.senders = 0 ∧ .upgraded ∉ es := by
  cases step_moved hs with
  | dropLast => exact ⟨rfl, by simp⟩
  | idle _ _ _ hes =>
    rcases hes _ hx with ⟨v, hv⟩ | hv <;> cases hv
  | send | cloneSender | upgrade | dropSender | recv | dropRecv => simp at hx
  | addReceiver => simp [Sys.addReceiver] at hx
  | tryRecv => exact absurd hx (not_answer (answer_reportTry _ _) rfl)
  | poll => exact absurd hx (not_answer (answer_reportPoll _ _ _) rfl)
  | dropReceiver _ _ _ _ hes =>
    obtain ⟨w, hw⟩ := hes _ hx
    cases hw

/-- **A closed channel stays closed** in every run without revivals: after the last sender was
dropped no weak sender is upgraded, and a receiver that was told `Closed` is told so at every later
receive. -/
theorem broadcast_stays_closed (h0 : New c s₀) (h : Run step NoRevival s₀ tr s) :
    Bars (· = .sendersGone) (· = .upgraded) tr ∧
      ∀ r, Bars (· = .closed r) (fun x => answer x = some (r, false)) tr := by
  have hal := h.along fun _ _ => counts_run h0
  refine ⟨(hal.bars (K := fun s => s.state.senders = 0) ?_ ?_).2, fun r =>
    (hal.bars (K := Ended r) ?_ ?_).2⟩
  · rintro tr s op s' es x - hs hx rfl
    obtain ⟨h1, h2⟩ := senders_of_gone hs hx
    exact ⟨h1, fun y hy hyu => h2 (hyu ▸ hy)⟩
  · rintro tr s op s' es ⟨hC, hI⟩ hs - h0
    obtain ⟨h1, -, h2⟩ := silent_step hI h0 hC hs
    exact ⟨h1, fun y hy hyu => h2 (hyu ▸ hy)⟩
  · rintro tr s op s' es x - hs hx rfl
    exact ended_of_closed hs hx
  · rintro tr s op s' es ⟨hC, hI⟩ hs - hE
    exact ended_step hI hE hC hs

/-- The sender of a channel and its receiver are gone: the weak sender cannot be upgraded. -/
theorem broadcast_stays_closed_weak : ∃ s₀ s : Sys ℕ, ∃ tr, channel 1 = some s₀ ∧
    exec step s₀ [.downgrade 0, .dropSender 0, .tryRecv 0, .tryRecv 0, .dropReceiver 0, .upgrade] =
      some (s, tr) ∧
    tr = [.sendersGone, .closed 0, .closed 0, .notUpgraded] ∧
    Bars (· = .sendersGone) (· = .upgraded) tr := by
  refine ⟨_, _, _, rfl, rfl, rfl, ?_⟩
  have h0 : New 1 (⟨⟨[], 1, 0, 1, 1, [], []⟩, [true], 0, [⟨0, false, true⟩]⟩ : Sys ℕ) := .inl rfl
  exact (broadcast_stays_closed h0 (run_execIf [.downgrade 0, .dropSender 0, .tryRecv 0, .tryRecv 0,
    .dropReceiver 0, .upgrade] .nil rfl)).1

/-- The only sender is dropped and the receiver is told `Closed`; the weak sender is upgraded, and a
value that it sends is received. -/
theorem revived_by_weak : ∃ s₀ s : Sys ℕ, ∃ tr, channel 1 = some s₀ ∧
    exec step s₀ [.downgrade 0, .dropSender 0, .tryRecv 0, .upgrade, .send 1 7, .tryRecv 0] =
      some (s, tr) ∧
    tr = [.sendersGone, .closed 0, .upgraded, .accepted 7 1, .received 0 7] ∧
    ¬ Bars (· = .sendersGone) (· = .upgraded) tr ∧
    ¬ Bars (· = .closed 0) (fun x => answer x = some (0, false)) tr := by
  refine ⟨_, _, _, rfl, rfl, rfl, fun h => ?_, fun h => ?_⟩
  · exact h [.sendersGone] [.closed 0, .upgraded, .accepted 7 1, .received 0 7] rfl
      ⟨.sendersGone, by simp, rfl⟩ .upgraded (by simp) rfl
  · exact h [.sendersGone, .closed 0] [.upgraded, .accepted 7 1, .received 0 7] rfl
      ⟨.closed 0, by simp, rfl⟩ (.received 0 7) (by simp) rfl

end OhosFfrt.Broadcast.Closing
