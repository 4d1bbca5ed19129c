import OhosFfrt.Lib.Traces
import OhosFfrt.Mpsc.Permits

/-!
# `signal::mpsc`: nobody waits who could go on

Senders wait with a waker in `send_wakers` or in `cond_wait`, the receiver in `recv_waker` or in
`cond_wait`, and `closed` futures in `close_waiters`.  None of them could go on (`mpsc_waiters`).
-/

namespace OhosFfrt.Mpsc.Waiters

open Lib.Runs List
open Mpsc.Shared Mpsc.System Mpsc.Moves Mpsc.Steps
open Mpsc.Permits

variable {T : Type*} {s s₀ s' : Sys T} {i i' : Inner T} {op : Op T} {es tr : List (Ev T)}

/-! ## Wakers of senders -/

/-- **Whose waker is in `send_wakers` cannot go on**, and only a live receiver is waited for. -/
structure Stuck (i : Inner T) : Prop where
  senders : ∀ w ∈ i.sendWakers, i.receiverAlive = true ∧ i.free < w.slots
  closers : i.closeWaiters ≠ [] → i.receiverAlive = true

theorem Stuck.shrink (h : Stuck i) (hw : i'.sendWakers = i.sendWakers)
    (hcl : i'.closeWaiters = i.closeWaiters) (hal : i'.receiverAlive = i.receiverAlive)
    (hf : i'.free ≤ i.free) : Stuck i' := by
  refine ⟨fun w hw' => ?_, ?_⟩
  · have := h.senders w (hw ▸ hw')
    rw [hal]
    exact ⟨this.1, by omega⟩
  · rw [hcl, hal]
    exact h.closers

theorem Stuck.woken (h : Stuck i) (hw : i'.sendWakers = [])
    (hcl : i'.closeWaiters = i.closeWaiters) (hal : i'.receiverAlive = i.receiverAlive) :
    Stuck i' := by
  refine ⟨fun w hw' => ?_, ?_⟩
  · rw [hw] at hw'
    cases hw'
  · rw [hcl, hal]
    exact h.closers

theorem push_free_le (i : Inner T) (v : T) : (push i v).1.free ≤ i.free := by
  unfold push Inner.free
  simp only [length_append, length_singleton]
  omega

theorem stuck_step (hc : s.inner.capacity ≠ none) (h : Stuck s.inner)
    (hs : step s op = some (s', es)) : Stuck s'.inner := by
  cases step_moved hs with
  | keep hi | refuse hi | begin hi | settle hi | parkSend hi | ended hi | parkRecv hi =>
    rw [hi]
    exact h
  | pushNew hi | pushPending hi =>
    rw [hi]
    exact h.shrink rfl rfl rfl (push_free_le _ _)
  | pushReserved _ hi =>
    rw [hi]
    refine h.shrink rfl rfl rfl ?_
    unfold push Inner.free
    simp only [length_append, length_singleton]
    omega
  | waitSend hi _ _ _ _ hal hn =>
    rw [hi]
    refine ⟨fun w hw => ?_, h.closers⟩
    rcases mem_append.mp hw with hw | hw
    · exact h.senders w hw
    · rw [mem_singleton.mp hw]
      exact ⟨hal, hn⟩
  | reserve hi =>
    rw [hi]
    refine h.shrink rfl rfl rfl ?_
    unfold Inner.free
    simp only
    omega
  | release hn hi =>
    obtain ⟨r, w, -, hi, -⟩ := releaseReserved_some hn hi
    rw [hi]
    exact h.woken rfl rfl rfl
  | addSender hi | waitRecv hi =>
    rw [hi]
    exact h.shrink rfl rfl rfl (Nat.le_refl _)
  | dropSender hi =>
    obtain ⟨n, w, -, hi, -⟩ := dropSender_some hi
    rw [hi]
    exact h.shrink rfl rfl rfl (Nat.le_refl _)
  | waitClose hi _ _ hal =>
    rw [hi]
    exact ⟨h.senders, fun _ => hal⟩
  | pop vs _ _ hi hws =>
    rw [hi]
    exact h.woken (hws hc) rfl rfl
  | shut _ hi =>
    obtain ⟨ws, hsh, hws, -⟩ := shut_eq s.inner
    rw [hi, hsh]
    refine ⟨fun w hw => ?_, fun hne => absurd rfl hne⟩
    rw [hws hc] at hw
    cases hw

/-! ## The events of waiting -/

/-- Somebody begins to wait. -/
def begins : Ev T → Bool
  | .recvRegistered | .parked _ => true
  | _ => false

theorem free_wakes (h : Wakes es) : Free begins es := h.free rfl fun _ => rfl

theorem free_push (i : Inner T) {k : ℕ} {v : T} {f : Fate} :
    Free begins (.settled k v f :: (push i v).2) := free_cons rfl (free_wakes (wakes_push i v))

theorem free_popped {vs : List T} (hes : ∀ x ∈ es, ∃ w, x = .woke w) :
    Free begins (vs.map .received ++ es ++ [.broadcast]) := by
  have hw : Wakes (es ++ [.broadcast]) := .append (fun x hx => .inr (hes x hx)) wakes_broadcast
  rw [append_assoc]
  induction vs with
  | nil => exact free_wakes hw
  | cons v vs ih => exact free_cons rfl ih

theorem free_shut {x : Ev T} (hx : x = .closeCalled ∨ x = .receiverDropped) (i : Inner T) :
    Free begins (x :: (shut i).2) := by
  obtain ⟨-, -, -, hw, -⟩ := shut_eq i
  refine free_cons ?_ (free_wakes hw)
  rcases hx with rfl | rfl <;> rfl

theorem free_not_mem {x : Ev T} (h : Free begins es) (hx : begins x = true) : x ∉ es := by
  intro hmem
  rw [h x hmem] at hx
  cases hx

/-! ## Threads that wait for room -/

/-- **Waiting for room, through a step.** -/
structure SendStep (i i' : Inner T) (es : List (Ev T)) : Prop where
  parks : ∀ j, .parked (.sender j) ∈ es → NoRoom i'
  stays : NoRoom i → NoRoom i' ∨ .broadcast ∈ es

theorem sendStep_same (hes : Free begins es) (hal : i'.receiverAlive = i.receiverAlive)
    (hf : i.full = true → i'.full = true) : SendStep i i' es :=
  ⟨fun _ hj => absurd hj (free_not_mem hes rfl), fun h => .inl ⟨hal.trans h.1, hf h.2⟩⟩

theorem sendStep_broadcast (hes : Free begins es) (hb : .broadcast ∈ es) : SendStep i i' es :=
  ⟨fun _ hj => absurd hj (free_not_mem hes rfl), fun _ => .inr hb⟩

theorem send_step (hs : step s op = some (s', es)) : SendStep s.inner s'.inner es := by
  cases step_moved hs with
  | keep hi | waitSend hi | addSender hi | waitClose hi =>
    rw [hi]
    exact sendStep_same free_nil rfl id
  | refuse hi | settle hi | ended hi =>
    rw [hi]
    exact sendStep_same (by simp [Free, begins]) rfl id
  | begin hi _ _ _ _ hes =>
    rw [hi]
    rcases hes with rfl | ⟨j, rfl, hno⟩
    · exact sendStep_same (by simp [Free, begins]) rfl id
    · exact ⟨fun _ _ => hno, fun _ => .inl hno⟩
  | pushNew | pushReserved _ hi =>
    exact sendStep_broadcast (free_cons rfl (free_push _))
      (mem_cons_of_mem _ (mem_cons_of_mem _ (broadcast_push _ _)))
  | pushPending =>
    exact sendStep_broadcast (free_push _) (mem_cons_of_mem _ (broadcast_push _ _))
  | parkSend hi _ _ hno =>
    rw [hi]
    exact ⟨fun _ _ => hno, fun _ => Or.inl hno⟩
  | reserve hi =>
    rw [hi]
    refine sendStep_same free_nil rfl fun hf => ?_
    unfold Inner.full at hf ⊢
    simp only [Option.any_eq_true, decide_eq_true_eq] at hf ⊢
    obtain ⟨c, hc, hle⟩ := hf
    exact ⟨c, hc, by omega⟩
  | release hn hi =>
    obtain ⟨r, w, -, -, -, hw, hb⟩ := releaseReserved_some hn hi
    exact sendStep_broadcast (free_wakes hw) hb
  | dropSender hi =>
    obtain ⟨n, w, -, hi, -, hw⟩ := dropSender_some hi
    rw [hi]
    exact sendStep_same (free_wakes hw) rfl id
  | pop vs _ _ _ _ hes => exact sendStep_broadcast (free_popped hes) (by simp)
  | waitRecv hi | parkRecv hi =>
    rw [hi]
    exact ⟨fun j hj => by simp at hj, fun h => .inl h⟩
  | shut hx =>
    obtain ⟨ws, -, -, -, hb⟩ := shut_eq s.inner
    exact sendStep_broadcast (free_shut hx _) (mem_cons_of_mem _ hb)

/-! ## The receiver -/

/-- **Waiting for a value, through a step.** -/
structure RecvStep (i i' : Inner T) (es : List (Ev T)) : Prop where
  begins : .recvRegistered ∈ es ∨ .parked .receiver ∈ es → Waits i'
  waker : i'.recvWaker ≠ none → i.recvWaker ≠ none ∨ Waits i'
  stays : Waits i → Waits i' ∨ (.broadcast ∈ es ∧
    (i'.recvWaker = none ∨ .closeCalled ∈ es ∨ .receiverDropped ∈ es))

theorem free_no_recv (h : Free begins es) : ¬ (.recvRegistered ∈ es ∨ .parked .receiver ∈ es) :=
  not_or.mpr ⟨free_not_mem h rfl, free_not_mem h rfl⟩

theorem recvStep_same (hes : Free begins es) (hw : i'.recvWaker = i.recvWaker)
    (h : Waits i → Waits i') : RecvStep i i' es :=
  ⟨fun hx => absurd hx (free_no_recv hes), fun hne => .inl (hw ▸ hne), fun hw => .inl (h hw)⟩

theorem recvStep_woken (hes : Free begins es) (hw : i'.recvWaker = none) (hb : .broadcast ∈ es) :
    RecvStep i i' es :=
  ⟨fun hx => absurd hx (free_no_recv hes), fun hne => absurd hw hne,
    fun _ => .inr ⟨hb, .inl hw⟩⟩

theorem recv_step (hs : step s op = some (s', es)) : RecvStep s.inner s'.inner es := by
  cases step_moved hs with
  | keep hi | waitSend hi | waitClose hi =>
    rw [hi]
    exact recvStep_same free_nil rfl id
  | refuse hi | settle hi | ended hi =>
    rw [hi]
    exact recvStep_same (by simp [Free, begins]) rfl id
  | @begin v b es hi _ _ _ _ hes =>
    rw [hi]
    have hnot : .recvRegistered ∉ .started s.sends v :: es ∧
        .parked .receiver ∉ .started s.sends v :: es := by
      rcases hes with rfl | ⟨j, rfl, -⟩ <;> simp
    exact ⟨fun h => absurd h (not_or.mpr hnot), .inl, .inl⟩
  | pushNew hi | pushReserved _ hi =>
    rw [hi]
    exact recvStep_woken (free_cons rfl (free_push _)) rfl
      (mem_cons_of_mem _ (mem_cons_of_mem _ (broadcast_push _ _)))
  | pushPending hi =>
    rw [hi]
    exact recvStep_woken (free_push _) rfl (mem_cons_of_mem _ (broadcast_push _ _))
  | parkSend hi =>
    rw [hi]
    exact ⟨fun h => by simp at h, .inl, .inl⟩
  | reserve hi =>
    rw [hi]
    refine recvStep_same free_nil rfl fun ⟨hq, hf⟩ => ⟨hq, ?_⟩
    rw [finished_eq_false] at hf ⊢
    exact ⟨hf.1, hf.2.imp_right fun h => by simp only; omega⟩
  | release hn hi =>
    obtain ⟨r, w, -, hi, hw, hwk, hb⟩ := releaseReserved_some hn hi
    rw [hi]
    rcases hw with rfl | ⟨rfl, hr⟩
    · exact recvStep_woken (free_wakes hwk) rfl hb
    · refine recvStep_same (free_wakes hwk) rfl fun ⟨hq, hf⟩ => ⟨hq, ?_⟩
      rw [finished_eq_false] at hf ⊢
      exact ⟨hf.1, hr⟩
  | addSender hi =>
    rw [hi]
    refine recvStep_same free_nil rfl fun ⟨hq, hf⟩ => ⟨hq, ?_⟩
    rw [finished_eq_false] at hf ⊢
    exact ⟨Nat.succ_ne_zero _, hf.2⟩
  | dropSender hi =>
    obtain ⟨n, w, -, hi, hw, hwk⟩ := dropSender_some hi
    rcases hw with ⟨rfl, hb⟩ | ⟨rfl, hf⟩
    · rw [hi]
      exact recvStep_woken (free_wakes hwk) rfl hb
    · refine recvStep_same (free_wakes hwk) (by rw [hi]) fun ⟨hq, _⟩ => ⟨?_, hf⟩
      rw [hi]
      exact hq
  | pop vs hq hvs hi _ hes =>
    rw [hi]
    refine recvStep_same (free_popped hes) rfl fun ⟨hnil, _⟩ => ?_
    rw [hq, append_eq_nil_iff] at hnil
    exact absurd hnil.1 hvs
  | waitRecv hi _ _ hw | parkRecv hi _ _ hw =>
    rw [hi]
    exact ⟨fun _ => hw, fun _ => .inr hw, fun _ => .inl hw⟩
  | shut hx hi =>
    obtain ⟨ws, hsh, -, -, hb⟩ := shut_eq s.inner
    have hno := free_shut hx s.inner
    rw [hi]
    refine ⟨fun h => absurd h (free_no_recv hno), fun hne => .inl (by rwa [hsh] at hne),
      fun _ => .inr ⟨mem_cons_of_mem _ hb, .inr ?_⟩⟩
    rcases hx with rfl | rfl <;> simp

/-! ## Whole runs -/

/-- The receiver closes the channel. -/
def Shuts (x : Ev T) : Prop := x = .closeCalled ∨ x = .receiverDropped

theorem stuck_run {n : ℕ} (h0 : s₀ = Sys.new (some n)) (h : Run step Any s₀ tr s) :
    Stuck s.inner := by
  have hal := h.along fun tr s hrun => accounts_run h0 hrun
  refine hal.inv (I := fun _ s => Stuck s.inner) ?_ fun tr s op s' es hI hC hs => ?_
  · rw [h0]
    exact ⟨nofun, fun _ => rfl⟩
  · exact stuck_step (by rw [hC.2.capacity]; simp) hI hs

theorem recv_run (h : Run step Any s₀ tr s) (hsince : Since (· = .recvRegistered) Shuts tr)
    (hw : s.inner.recvWaker ≠ none) : Waits s.inner := by
  refine h.since (K := fun s => s.inner.recvWaker ≠ none → Waits s.inner) ?_ ?_ hsince hw
  · rintro tr s op s' es x - hs hx rfl -
    exact (recv_step hs).begins (.inl hx)
  · intro tr s op s' es _ hs hK hno hw
    have hst := recv_step hs
    rcases hst.waker hw with hold | hnow
    · rcases hst.stays (hK hold) with h | ⟨-, hnone | hcl | hdr⟩
      · exact h
      · exact absurd hnone hw
      · exact absurd (.inl rfl) (hno _ hcl)
      · exact absurd (.inr rfl) (hno _ hdr)
    · exact hnow

theorem recv_parked_run (h : Run step Any s₀ tr s)
    (hsince : Since (· = .parked .receiver) (· = .broadcast) tr) : Waits s.inner := by
  refine h.since (K := fun s => Waits s.inner) ?_ ?_ hsince
  · rintro tr s op s' es x - hs hx rfl
    exact (recv_step hs).begins (.inr hx)
  · intro tr s op s' es _ hs hK hno
    rcases (recv_step hs).stays hK with h | ⟨hb, -⟩
    · exact h
    · exact absurd rfl (hno _ hb)

theorem send_parked_run {j : ℕ} (h : Run step Any s₀ tr s)
    (hsince : Since (· = .parked (.sender j)) (· = .broadcast) tr) : NoRoom s.inner := by
  refine h.since (K := fun s => NoRoom s.inner) ?_ ?_ hsince
  · rintro tr s op s' es x - hs hx rfl
    exact (send_step hs).parks j hx
  · intro tr s op s' es _ hs hK hno
    rcases (send_step hs).stays hK with h | hb
    · exact h
    · exact absurd rfl (hno _ hb)

theorem nothing_to_receive (h : Waits i) : i.queue = [] ∧ 0 < i.senderCount ∧
    ¬ (i.receiverAlive = false ∧ i.reserved = 0) := by
  obtain ⟨hq, hf⟩ := h
  rw [finished_eq_false] at hf
  refine ⟨hq, Nat.pos_of_ne_zero hf.1, fun ⟨h1, h2⟩ => ?_⟩
  rcases hf.2 with h | h
  · rw [h1] at h
    cases h
  · exact h h2

/-- **No waiter of a bounded channel is stranded.**  The wakers of senders belong to requests that
still cannot be granted; the waker of a receiver that neither closed the channel nor was dropped
since it was left belongs to one that has nothing to receive; a thread that parked, with no
broadcast since, still cannot go on; and `closed` futures wait for a live receiver only. -/
theorem mpsc_waiters {n : ℕ} (h0 : channel n = some s₀) (h : Run step Any s₀ tr s) :
    (∀ w ∈ s.inner.sendWakers, s.inner.receiverAlive = true ∧
      n - (s.inner.queue.length + s.inner.reserved) < w.slots) ∧
    (Since (· = .recvRegistered) Shuts tr → s.inner.recvWaker ≠ none →
      s.inner.queue = [] ∧ 0 < s.inner.senderCount ∧
      ¬ (s.inner.receiverAlive = false ∧ s.inner.reserved = 0)) ∧
    (∀ j, Since (· = .parked (.sender j)) (· = .broadcast) tr →
      s.inner.receiverAlive = true ∧ n ≤ s.inner.queue.length + s.inner.reserved) ∧
    (Since (· = .parked .receiver) (· = .broadcast) tr →
      s.inner.queue = [] ∧ 0 < s.inner.senderCount ∧
      ¬ (s.inner.receiverAlive = false ∧ s.inner.reserved = 0)) ∧
    (s.inner.closeWaiters ≠ [] → s.inner.receiverAlive = true) := by
  have hnew := channel_some h0
  have hst := stuck_run hnew h
  have hcap := (accounts_run hnew h).capacity
  refine ⟨fun w hw => ?_, fun h1 h2 => nothing_to_receive (recv_run h h1 h2), fun j h1 => ?_,
    fun h1 => nothing_to_receive (recv_parked_run h h1), hst.closers⟩
  · have := hst.senders w hw
    rwa [free_eq hcap] at this
  · obtain ⟨hal, hf⟩ := send_parked_run h h1
    unfold Inner.full at hf
    rw [hcap] at hf
    exact ⟨hal, by simpa using hf⟩

/-- A send future and a thread wait in a full channel. -/
theorem mpsc_waiters_full : ∃ (s₀ s : Sys ℕ) (tr : List (Ev ℕ)), channel 1 = some s₀ ∧
    exec step s₀ [.trySend 0 5, .send 0 6, .pollSend 1 3, .blockingSend 0 7] = some (s, tr) ∧
    s.inner.sendWakers = [⟨3, 1⟩] ∧ Since (· = .parked (.sender 2)) (· = .broadcast) tr ∧
    s.inner.receiverAlive = true ∧ 1 ≤ s.inner.queue.length + s.inner.reserved := by
  have hsince : Since (· = .parked (.sender 2)) (· = (.broadcast : Ev ℕ))
      [.started 0 5, .settled 0 5 .accepted, .broadcast, .started 1 6, .started 2 7,
        .parked (.sender 2)] :=
    ⟨[.started 0 5, .settled 0 5 .accepted, .broadcast, .started 1 6, .started 2 7], _, [], rfl,
      rfl, by simp⟩
  refine ⟨_, _, _, rfl, rfl, rfl, hsince, ?_⟩
  exact (mpsc_waiters (T := ℕ) (n := 1) rfl (run_exec [.trySend 0 5, .send 0 6, .pollSend 1 3,
    .blockingSend 0 7] rfl)).2.2.1 2 hsince

/-- The receiver is dropped after a `poll_recv` that found nothing: its waker stays, though it never
closed the channel and the channel is finished. -/
theorem recv_waker_left : ¬ ∀ (n : ℕ) (s₀ s : Sys ℕ) (tr : List (Ev ℕ)), channel n = some s₀ →
    Run step Any s₀ tr s → Since (· = .recvRegistered) (· = .closeCalled) tr →
    s.inner.recvWaker ≠ none →
    s.inner.queue = [] ∧ 0 < s.inner.senderCount ∧
      ¬ (s.inner.receiverAlive = false ∧ s.inner.reserved = 0) := by
  intro h
  have hsince : Since (· = .recvRegistered) (· = .closeCalled)
      [(.recvRegistered : Ev ℕ), .receiverDropped, .broadcast] := ⟨[], _, _, rfl, rfl, by simp⟩
  have := h 1 _ _ _ rfl (run_exec [.pollRecv 0, .dropReceiver] rfl) hsince (by decide)
  exact this.2.2 ⟨rfl, rfl⟩

end OhosFfrt.Mpsc.Waiters
