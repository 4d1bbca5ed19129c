import OhosFfrt.Lib.Traces
import OhosFfrt.Lib.Window
import OhosFfrt.Broadcast.Moves

/-!
# `sync::broadcast`: each receiver gets the sequence

The accepted values are numbered `0, 1, 2, …`; the queue is the window of the last `capacity` of
them (`Exact`), and a receiver has a place in the sequence that the trace determines (`place`).
Each gets what is due there (`broadcast_exact`).
-/

namespace OhosFfrt.Broadcast.Sequence

open Basic Lib.Runs Lib.Window Broadcast.State List Option
open Broadcast.System Broadcast.Moves
open Lib.Arena

variable {T : Type*} {s s' s₀ : Sys T} {op : Op T} {es tr : List (Ev T)} {c r : ℕ} {rx : Receiver}
  {vs : List T} {st : BroadcastState T} {C : List (Ev T) → Sys T → Op T → Prop} {w : Waker}

/-! ## The place of a receiver -/

/-- What an event does to the number of values sent and the place of the receiver `r`. -/
def advance (r : ℕ) (q : ℕ × ℕ) : Ev T → ℕ × ℕ
  | .accepted _ _ => (q.1 + 1, q.2)
  | .subscribed r' => (q.1, if r' = r then q.1 else q.2)
  | .received r' _ => (q.1, if r' = r then q.2 + 1 else q.2)
  | .lagged r' n => (q.1, if r' = r then q.2 + n else q.2)
  | _ => q

/-- The number of values sent and the place of the receiver `r`. -/
def track (r : ℕ) (tr : List (Ev T)) : ℕ × ℕ := tr.foldl (advance r) (0, 0)

/-- **The place of the receiver `r`** in the sequence, read off the trace. -/
def place (r : ℕ) (tr : List (Ev T)) : ℕ := (track r tr).2

theorem track_append (r : ℕ) (tr es : List (Ev T)) :
    track r (tr ++ es) = es.foldl (advance r) (track r tr) := foldl_append

@[simp] theorem accepted_append (tr es : List (Ev T)) :
    accepted (tr ++ es) = accepted tr ++ accepted es := filterMap_append ..

theorem foldl_advance_fst (r : ℕ) : ∀ (es : List (Ev T)) (q : ℕ × ℕ),
    (es.foldl (advance r) q).1 = q.1 + (accepted es).length
  | [], q => rfl
  | x :: es, q => by
    rw [foldl_cons, foldl_advance_fst r es]
    rcases x with _ | _ | _ | _ | _ | _ | _ | _ | _ | _ | _ | _ | _ <;> simp [advance, accepted]
    omega

theorem track_fst (r : ℕ) (tr : List (Ev T)) : (track r tr).1 = (accepted tr).length := by
  unfold track
  rw [foldl_advance_fst]
  simp

/-- An event that concerns neither the sequence nor the place of anybody. -/
def Aside (x : Ev T) : Prop := ∀ r q, advance r q x = q

theorem place_aside (r : ℕ) (tr : List (Ev T)) (h : ∀ x ∈ es, Aside x) :
    place r (tr ++ es) = place r tr := by
  have hfold : ∀ (es : List (Ev T)) (q : ℕ × ℕ), (∀ x ∈ es, Aside x) →
      es.foldl (advance r) q = q := by
    intro es
    induction es with
    | nil => intro q _; rfl
    | cons x es ih =>
      intro q hx
      rw [foldl_cons, hx x mem_cons_self r q]
      exact ih q fun y hy => hx y (mem_cons_of_mem _ hy)
  unfold place
  rw [track_append, hfold es _ h]

theorem place_snoc (r : ℕ) (tr : List (Ev T)) (x : Ev T) :
    place r (tr ++ [x]) = (advance r (track r tr) x).2 := by
  unfold place
  rw [track_append]
  rfl

theorem aside_woke (ws : List Waker) : ∀ x ∈ ws.map (.woke : Waker → Ev T), Aside x := by
  intro x hx
  obtain ⟨w, -, rfl⟩ := mem_map.mp hx
  exact fun _ _ => rfl

/-! ## The queue -/

theorem evict_eq_drop : ∀ q : List (ℕ × T), evict c q = q.drop (q.length - c)
  | [] => by simp [evict]
  | e :: q => by
    unfold evict
    split_ifs with h
    · rw [evict_eq_drop q, length_cons,
        show q.length + 1 - c = (q.length - c) + 1 by simp only [length_cons] at h; omega,
        drop_succ_cons]
    · rw [show (e :: q).length - c = 0 by omega, drop_zero]

/-- **The sequence, the queue and the places agree.** -/
structure Exact (c : ℕ) (tr : List (Ev T)) (s : Sys T) : Prop where
  capacity : s.state.capacity = c
  next : s.state.nextSeq = (accepted tr).length
  queue : s.state.queue = window c (accepted tr)
  places : ∀ r rx, s.receivers[r]? = some rx →
    rx.nextSeq = place r tr ∧ place r tr ≤ (accepted tr).length

/-- **What a receiver finds** at its place: its value, the oldest one if that is further on, or
nothing if it has seen everything. -/
theorem find_cases (hc : 0 < c) (hq : st.queue = window c vs) {p : ℕ} (hp : p ≤ vs.length) :
    (∃ v, vs[p]? = some v ∧ vs.length - c ≤ p ∧
      st.queue.find? (fun e => p ≤ e.1) = some (p, v)) ∨
    (∃ v, p < vs.length - c ∧ st.queue.find? (fun e => p ≤ e.1) = some (vs.length - c, v)) ∨
    (p = vs.length ∧ st.queue.find? (fun e => p ≤ e.1) = none) := by
  rw [hq, find?_window]
  by_cases hend : p = vs.length
  · refine .inr (.inr ⟨hend, ?_⟩)
    rw [getElem?_eq_none (by omega)]
    rfl
  · by_cases hlag : p < vs.length - c
    · have hmax : max (vs.length - c) p = vs.length - c := by omega
      have hlt : vs.length - c < vs.length := by omega
      refine .inr (.inl ⟨vs[vs.length - c], hlag, ?_⟩)
      rw [hmax, getElem?_eq_getElem hlt]
      rfl
    · have hmax : max (vs.length - c) p = p := by omega
      have hlt : p < vs.length := by omega
      refine .inl ⟨vs[p], getElem?_eq_getElem hlt, by omega, ?_⟩
      rw [hmax, getElem?_eq_getElem hlt]
      rfl

/-- What a `recv` future reports, as an answer of `try_recv`: `Pending` is `Empty`. -/
def asTry : Option (Except RecvError T) → Except TryRecvError T
  | none => .error .empty
  | some (.ok v) => .ok v
  | some (.error .closed) => .error .closed
  | some (.error (.lagged n)) => .error (.lagged n)

theorem pollRecv_agrees (st : BroadcastState T) (p : ℕ) (cx : Waker) :
    asTry (pollRecv st p cx).1 = (tryRecvLocked st p).1 ∧
      (pollRecv st p cx).2.1 = (tryRecvLocked st p).2 := by
  rcases hq : st.queue.find? (fun e => p ≤ e.1) with _ | ⟨seq, v⟩
  iterate 2
    · simp only [pollRecv, tryRecvLocked, hq]
      split_ifs <;> exact ⟨rfl, rfl⟩

/-- **What a receive returns**: the next place, and what the report does to the place. -/
theorem tryRecv_cases (hc : 0 < c) (hq : st.queue = window c vs) {p : ℕ} (hp : p ≤ vs.length)
    (hn : vs.length < 2 ^ 64) :
    (∃ v, vs[p]? = some v ∧ tryRecvLocked st p = (.ok v, p + 1)) ∨
    (∃ n, 1 ≤ n ∧ p + n = vs.length - c ∧ tryRecvLocked st p = (.error (.lagged n), p + n)) ∨
    (p = vs.length ∧ st.senders = 0 ∧ tryRecvLocked st p = (.error .closed, p)) ∨
    (p = vs.length ∧ st.senders ≠ 0 ∧ tryRecvLocked st p = (.error .empty, p)) := by
  rcases find_cases hc hq hp with ⟨v, hv, hle, hf⟩ | ⟨v, hlt, hf⟩ | ⟨hend, hf⟩
  · have hlt := lt_length hv
    refine .inl ⟨v, hv, ?_⟩
    simp only [tryRecvLocked, hf]
    rw [if_neg (by omega), Nat.mod_eq_of_lt (by omega)]
  · refine .inr (.inl ⟨vs.length - c - p, by omega, by omega, ?_⟩)
    simp only [tryRecvLocked, hf]
    rw [if_pos hlt, show p + (vs.length - c - p) = vs.length - c by omega]
  · right; right
    by_cases h0 : st.senders = 0
    · refine .inl ⟨hend, h0, ?_⟩
      simp only [tryRecvLocked, hf, if_pos h0]
    · refine .inr ⟨hend, h0, ?_⟩
      simp only [tryRecvLocked, hf, if_neg h0]

theorem advance_reportPoll (r r' : ℕ) (cx : Waker) (x : Option (Except RecvError T))
    (q : ℕ × ℕ) : advance r q (reportPoll r' cx x) = advance r q (reportTry r' (asTry x)) := by
  rcases x with _ | (_ | _) | _ <;> rfl

theorem accepted_reportTry (r : ℕ) (x : Except TryRecvError T) : accepted [reportTry r x] = [] := by
  rcases x with (_ | _ | _) | _ <;> rfl

theorem accepted_reportPoll (r : ℕ) (cx : Waker) (x : Option (Except RecvError T)) :
    accepted [reportPoll r cx x] = [] := by
  rcases x with _ | (_ | _) | _ <;> rfl

/-! ## Steps -/

/-- No receiver has moved. -/
def SamePlaces (rxs rxs' : List Receiver) : Prop :=
  ∀ (r : ℕ) (rx : Receiver), rxs'[r]? = some rx → ∃ rx', rxs[r]? = some rx' ∧
    rx.nextSeq = rx'.nextSeq

theorem Exact.aside (h : Exact c tr s) (hst : s'.state.capacity = s.state.capacity ∧
    s'.state.nextSeq = s.state.nextSeq ∧ s'.state.queue = s.state.queue)
    (hr : SamePlaces s.receivers s'.receivers) (hes : ∀ x ∈ es, Aside x) :
    Exact c (tr ++ es) s' := by
  have hacc : accepted (tr ++ es) = accepted tr := by
    have hnil : accepted es = [] := by
      refine filterMap_eq_nil_iff.mpr fun x hx => ?_
      have hx := congrArg Prod.fst (hes x hx 0 (0, 0))
      rcases x with _ | _ | _ | _ | _ | _ | _ | _ | _ | _ | _ | _ | _ <;>
        first | rfl | simp [advance] at hx
    rw [accepted_append, hnil, append_nil]
  refine ⟨hst.1.trans h.capacity, ?_, ?_, fun r rx hrx => ?_⟩
  · rw [hacc, hst.2.1]
    exact h.next
  · rw [hacc, hst.2.2]
    exact h.queue
  · obtain ⟨rx', hrx', heq⟩ := hr r rx hrx
    rw [hacc, place_aside r tr hes, heq]
    exact h.places r rx' hrx'

theorem Exact.receive (hc : 0 < c) (h : Exact c tr s) (hn : (accepted tr).length < 2 ^ 64)
    (hrx : s.receivers[r]? = some rx) {x : Ev T} (hacc : accepted [x] = [])
    (hx : ∀ r' q, advance r' q x =
      advance r' q (reportTry r (tryRecvLocked s.state rx.nextSeq).1))
    (hst : s'.state.capacity = s.state.capacity ∧ s'.state.nextSeq = s.state.nextSeq ∧
      s'.state.queue = s.state.queue)
    (hr : s'.receivers = moveTo s r rx (tryRecvLocked s.state rx.nextSeq).2) :
    Exact c (tr ++ [x]) s' := by
  obtain ⟨hp, hple⟩ := h.places r rx hrx
  have hacc' : accepted (tr ++ [x]) = accepted tr := by
    rw [accepted_append, hacc, append_nil]
  have hmove : place r (tr ++ [x]) = (tryRecvLocked s.state rx.nextSeq).2 ∧
      (tryRecvLocked s.state rx.nextSeq).2 ≤ (accepted tr).length := by
    have hpl : (track r tr).2 = rx.nextSeq := hp.symm
    rw [place_snoc, hx]
    rcases tryRecv_cases hc h.queue (hp ▸ hple) hn with
      ⟨v, hv, he⟩ | ⟨n, h1, h2, he⟩ | ⟨hend, -, he⟩ | ⟨hend, -, he⟩ <;> rw [he]
    · have hlt := lt_length hv
      refine ⟨?_, hlt⟩
      simp only [reportTry, advance, if_true, hpl]
    · refine ⟨?_, by omega⟩
      simp only [reportTry, advance, if_true, hpl]
    · exact ⟨hpl, by omega⟩
    · exact ⟨hpl, by omega⟩
  have hstay : ∀ r', r ≠ r' → place r' (tr ++ [x]) = place r' tr := by
    intro r' hne
    rw [place_snoc, hx]
    rcases (tryRecvLocked s.state rx.nextSeq).1 with (_ | _ | _) | _ <;>
      simp [reportTry, advance, hne, place]
  refine ⟨hst.1.trans h.capacity, by rw [hacc', hst.2.1]; exact h.next,
    by rw [hacc', hst.2.2]; exact h.queue, fun r' rx' hrx' => ?_⟩
  rw [hacc']
  rw [hr, moveTo] at hrx'
  rcases of_set hrx hrx' with ⟨rfl, rfl⟩ | ⟨hrr, hold⟩
  · rw [hmove.1]
    exact ⟨rfl, hmove.2⟩
  · rw [hstay r' (Ne.symm hrr)]
    exact h.places r' rx' hold

theorem samePlaces_of_map {rxs rxs' : List Receiver}
    (h : ∀ r : ℕ, rxs'[r]?.map Receiver.nextSeq = rxs[r]?.map Receiver.nextSeq) :
    SamePlaces rxs rxs' := by
  intro r rx hrx
  have hr := h r
  rw [hrx, map_some] at hr
  obtain ⟨rx', hrx', heq⟩ := map_eq_some_iff.mp hr.symm
  exact ⟨rx', hrx', heq.symm⟩

theorem nextSeq_set {b l : Bool} (hrx : s.receivers[r]? = some rx) (r' : ℕ) :
    (s.receivers.set r { rx with recv := b, live := l })[r']?.map Receiver.nextSeq =
      s.receivers[r']?.map Receiver.nextSeq := by
  have hlt := lt_length hrx
  by_cases hrr : r = r'
  · subst hrr
    rw [getElem?_set_self hlt, hrx]
    rfl
  · rw [getElem?_set_ne hrr]

theorem exact_step (hc : 0 < c) (h : Exact c tr s) (hs : step s op = some (s', es))
    (hn : (accepted (tr ++ es)).length < 2 ^ 64) : Exact c (tr ++ es) s' := by
  have hn0 : (accepted tr).length < 2 ^ 64 := by
    rw [accepted_append, length_append] at hn
    omega
  have hsame : SamePlaces s.receivers s.receivers := fun r rx hrx => ⟨rx, hrx, rfl⟩
  cases step_moved hs with
  | idle hst hse hre hes =>
    refine h.aside (by rw [hst]; exact ⟨rfl, rfl, rfl⟩) (by rw [hre]; exact hsame) fun x hx => ?_
    rcases hes x hx with ⟨v, rfl⟩ | rfl <;> exact fun _ _ => rfl
  | @send op v =>
    have hacc : accepted (tr ++ (.accepted v s.state.receivers :: s.state.waiters.map .woke)) =
        accepted tr ++ [v] := by
      rw [accepted_append]
      simp [accepted]
    have hpl : ∀ r, place r (tr ++ (.accepted v s.state.receivers :: s.state.waiters.map .woke)) =
        place r tr := by
      intro r
      rw [← singleton_append, ← append_assoc, place_aside _ _ (aside_woke _), place_snoc]
      rfl
    rw [hacc, length_append, length_singleton] at hn
    refine ⟨h.capacity, ?_, ?_, fun r rx hrx => ?_⟩
    · rw [hacc, length_append, length_singleton]
      change (s.state.nextSeq + 1) % 2 ^ 64 = _
      rw [h.next, Nat.mod_eq_of_lt hn]
    · change evict s.state.capacity (s.state.queue ++ [(s.state.nextSeq, v)]) = _
      rw [hacc, evict_eq_drop, h.capacity, h.next, h.queue, length_append,
        length_singleton, window_snoc]
    · obtain ⟨h1, h2⟩ := h.places r rx hrx
      rw [hacc, hpl, length_append, length_singleton]
      exact ⟨h1, by omega⟩
  | cloneSender | dropSender => exact h.aside ⟨rfl, rfl, rfl⟩ hsame (by simp)
  | upgrade =>
    refine h.aside ⟨rfl, rfl, rfl⟩ hsame fun x hx => ?_
    rw [mem_singleton] at hx
    subst hx
    exact fun _ _ => rfl
  | dropLast =>
    refine h.aside ⟨rfl, rfl, rfl⟩ hsame fun x hx => ?_
    rcases mem_cons.mp hx with rfl | hx
    · exact fun _ _ => rfl
    · exact aside_woke _ x hx
  | addReceiver =>
    have hacc : accepted (tr ++ s.addReceiver.2) = accepted tr := by
      rw [accepted_append]
      exact append_nil _
    refine ⟨h.capacity, by rw [hacc]; exact h.next, by rw [hacc]; exact h.queue,
      fun r rx hrx => ?_⟩
    rw [hacc]
    have hpl : place r (tr ++ s.addReceiver.2) =
        if s.receivers.length = r then (accepted tr).length else place r tr := by
      rw [← track_fst r tr]
      exact place_snoc r tr _
    rw [hpl]
    change (s.receivers ++ [_])[r]? = some rx at hrx
    by_cases hr : s.receivers.length = r
    · subst hr
      rw [getElem?_concat_length] at hrx
      cases hrx
      rw [if_pos rfl]
      exact ⟨h.next, Nat.le_refl _⟩
    · have hlt := lt_length hrx
      rw [length_append, length_singleton] at hlt
      rw [getElem?_append_left (by omega)] at hrx
      rw [if_neg hr]
      exact h.places r rx hrx
  | tryRecv hr =>
    exact h.receive hc hn0 hr (accepted_reportTry _ _) (fun _ _ => rfl) ⟨rfl, rfl, rfl⟩ rfl
  | @poll op r rx cx hr =>
    obtain ⟨ws, hst, -⟩ := pollRecv_state s.state rx.nextSeq cx
    obtain ⟨h1, h2⟩ := pollRecv_agrees s.state rx.nextSeq cx
    refine h.receive hc hn0 hr (accepted_reportPoll _ _ _) (fun r' q => ?_) ?_ ?_
    · rw [advance_reportPoll, h1]
    · rw [hst]
      exact ⟨rfl, rfl, rfl⟩
    · rw [h2]
  | recv hr => exact h.aside ⟨rfl, rfl, rfl⟩ (samePlaces_of_map (nextSeq_set hr)) (by simp)
  | dropRecv hr =>
    refine h.aside ⟨rfl, rfl, rfl⟩ (samePlaces_of_map (nextSeq_set hr)) fun x hx => ?_
    rw [mem_singleton] at hx
    subst hx
    exact fun _ _ => rfl
  | dropReceiver hr hlive hrecv hn hes =>
    refine h.aside ⟨rfl, rfl, rfl⟩ (samePlaces_of_map (nextSeq_set hr)) fun x hx => ?_
    obtain ⟨w, rfl⟩ := hes x hx
    exact fun _ _ => rfl

theorem exact_run (h0 : New c s₀)
    (h : Run step C s₀ tr s) (hn : (accepted tr).length < 2 ^ 64) : Exact c tr s := by
  obtain ⟨hc, rxs, hr, rfl⟩ := h0.eq
  refine h.inv (I := fun tr s => (accepted tr).length < 2 ^ 64 → Exact c tr s) ?_ ?_ hn
  · intro _
    refine ⟨rfl, rfl, by simp [window, accepted, numbered], fun r rx hrx => ?_⟩
    have hpl : place r ([] : List (Ev T)) = 0 := rfl
    rw [hpl]
    rcases hr with rfl | rfl
    · rcases r with _ | r
      · simp only [getElem?_cons_zero, some.injEq] at hrx
        subst hrx
        exact ⟨rfl, Nat.zero_le _⟩
      · simp at hrx
    · simp at hrx
  · intro tr s op s' es hI _ hs hn'
    have hn0 : (accepted tr).length < 2 ^ 64 := by
      rw [accepted_append, length_append] at hn'
      omega
    exact exact_step hc (hI hn0) hs hn'

/-! ## Pending receives -/

/-- A `recv` future of the receiver `r` waits with the waker `w`. -/
structure Parked (s : Sys T) (r : ℕ) (w : Waker) : Prop where
  waiter : w ∈ s.state.waiters
  sender : s.state.senders ≠ 0
  place : ∃ rx, s.receivers[r]? = some rx ∧ rx.recv = true ∧ rx.live = true ∧
    rx.nextSeq = s.state.nextSeq

theorem Exact.pending (hc : 0 < c) (h : Exact c tr s) (h0 : s.state.senders ≠ 0) (cx : Waker) :
    pollRecv s.state s.state.nextSeq cx =
      (none, s.state.nextSeq, { s.state with waiters := s.state.waiters ++ [cx] }) := by
  have hfind : s.state.queue.find? (fun e => s.state.nextSeq ≤ e.1) = none := by
    rcases find_cases hc h.queue (Nat.le_of_eq h.next) with ⟨v, hv, -⟩ | ⟨v, hlt, -⟩ | ⟨-, hf⟩
    · have hlt := lt_length hv
      have := h.next
      omega
    · have := h.next
      omega
    · exact hf
  simp only [pollRecv, hfind, if_neg h0]

theorem Parked.keep (h : Parked s r w) (hw : w ∈ s'.state.waiters)
    (hs : s'.state.senders ≠ 0) (hn : s'.state.nextSeq = s.state.nextSeq)
    (hr : s'.receivers[r]? = s.receivers[r]?) : Parked s' r w := by
  obtain ⟨rx, hrx, hrecv, hlive, hp⟩ := h.place
  exact ⟨hw, hs, rx, hr.trans hrx, hrecv, hlive, hp.trans hn.symm⟩

theorem Parked.ne {r' : ℕ} (h : Parked s r w) (hr : s.receivers[r']? = some rx)
    (hrecv : rx.recv = false) : r' ≠ r := by
  rintro rfl
  obtain ⟨rx', hrx', hrecv', -⟩ := h.place
  rw [hr, some.injEq] at hrx'
  rw [hrx', hrecv'] at hrecv
  cases hrecv

theorem parked_of_pending (hc : 0 < c) (h : Exact c tr s)
    (hs : step s op = some (s', es)) (hx : Ev.pending r w ∈ es) : Parked s' r w := by
  cases step_moved hs with
  | idle _ _ _ hes =>
    rcases hes _ hx with ⟨v, hv⟩ | hv <;> cases hv
  | addReceiver => simp [Sys.addReceiver] at hx
  | @tryRecv op r' rx =>
    rw [mem_singleton] at hx
    rcases hp : (tryRecvLocked s.state rx.nextSeq).1 with (_ | _ | _) | _ <;> rw [hp] at hx <;>
      cases hx
  | @poll op r' rx cx hr hlive hrecv =>
    rw [mem_singleton] at hx
    rcases pollRecv_cases s.state rx.nextSeq cx with ⟨x, p', he⟩ | ⟨hf, h0, he⟩
    · rw [he] at hx
      rcases x with (_ | _) | _ <;> cases hx
    rw [he] at hx
    cases hx
    obtain ⟨hpl, hple⟩ := h.places r rx hr
    have hend : rx.nextSeq = s.state.nextSeq := by
      rw [h.next]
      rcases find_cases hc h.queue (hpl ▸ hple) with ⟨v, -, -, hv⟩ | ⟨v, -, hv⟩ | ⟨he, -⟩
      · rw [hf] at hv; cases hv
      · rw [hf] at hv; cases hv
      · exact he
    have hlt := lt_length hr
    rw [he]
    refine ⟨mem_append_right _ (mem_singleton_self _), h0, rx, ?_, hrecv, hlive, hend⟩
    exact getElem?_set_self hlt
  | dropReceiver _ _ _ _ hes =>
    obtain ⟨w', hw'⟩ := hes _ hx
    cases hw'
  | _ => simp at hx

theorem parked_step (hc : 0 < c) (h : Exact c tr s) (hp : Parked s r w)
    (hs : step s op = some (s', es)) (hw : ∀ y ∈ es, ¬ (y = .woke w ∨ y = .recvDropped r)) :
    Parked s' r w := by
  have hset : ∀ {r' : ℕ} {rx' : Receiver}, r' ≠ r →
      (s.receivers.set r' rx')[r]? = s.receivers[r]? := fun hne => getElem?_set_ne hne
  have hwoke : Ev.woke w ∈ s.state.waiters.map (Ev.woke : Waker → Ev T) :=
    mem_map_of_mem hp.waiter
  cases step_moved hs with
  | idle hst _ hre =>
    refine hp.keep ?_ ?_ ?_ (by rw [hre]) <;> rw [hst]
    · exact hp.waiter
    · exact hp.sender
  | send | dropLast => exact absurd (.inl rfl) (hw _ (mem_cons_of_mem _ hwoke))
  | cloneSender | upgrade | dropSender => exact hp.keep hp.waiter (Nat.succ_ne_zero _) rfl rfl
  | addReceiver =>
    obtain ⟨rx, hrx, -⟩ := hp.place
    have hlt := lt_length hrx
    exact hp.keep hp.waiter hp.sender rfl (getElem?_append_left hlt)
  | tryRecv hr _ hrecv | recv hr _ hrecv | dropReceiver hr _ hrecv =>
    exact hp.keep hp.waiter hp.sender rfl (hset (hp.ne hr hrecv))
  | @poll op r' rx cx hr =>
    obtain ⟨ws, hst, hsub⟩ := pollRecv_state s.state rx.nextSeq cx
    refine hp.keep ?_ ?_ ?_ ?_
    · rw [hst]
      exact hsub hp.waiter
    · rw [hst]
      exact hp.sender
    · rw [hst]
    · by_cases hne : r' = r
      · subst hne
        obtain ⟨rx', hrx', -, -, hpl⟩ := hp.place
        rw [hr, some.injEq] at hrx'
        subst hrx'
        have hlt := lt_length hr
        rw [hpl, h.pending hc hp.sender cx, hr, ← hpl]
        exact getElem?_set_self hlt
      · exact hset hne
  | dropRecv =>
    refine hp.keep hp.waiter hp.sender rfl (hset ?_)
    rintro rfl
    exact hw _ (mem_singleton_self _) (.inr rfl)

theorem run_below {n : ℕ} (h : Run step C s₀ tr s) (hn : (accepted tr).length < n) :
    Run step (fun tr _ _ => (accepted tr).length < n) s₀ tr s := by
  induction h with
  | nil => exact .nil
  | snoc _ _ hs ih =>
    rw [accepted_append, length_append] at hn
    exact (ih (by omega)).snoc (by omega) hs

/-- A parked receiver has nothing to get. -/
theorem parked_run (h0 : New c s₀) (h : Run step C s₀ tr s) (hn : (accepted tr).length < 2 ^ 64)
    (hsince : Since (· = .pending r w) (fun y => y = .woke w ∨ y = .recvDropped r) tr) :
    Parked s r w := by
  have hc := h0.eq.1
  have hal := (run_below h hn).along fun tr s hrun hn => exact_run h0 hrun hn
  refine hal.since (K := fun s => Parked s r w) ?_ ?_ hsince
  · rintro tr s op s' es x ⟨hn, hE⟩ hs hx rfl
    exact parked_of_pending hc (hE hn) hs hx
  · rintro tr s op s' es ⟨hn, hE⟩ hs hp hw
    exact parked_step hc (hE hn) hp hs hw

/-! ## The result -/

/-- **What a receive at the place `p` may return**, and the place after it, when `vs` was sent. -/
def Delivers (s : Sys T) (vs : List T) (p : ℕ) : Except TryRecvError T × ℕ → Prop
  | (.ok v, p') => vs[p]? = some v ∧ p' = p + 1
  | (.error (.lagged n), p') =>
    1 ≤ n ∧ s.state.queue.head?.map Prod.fst = some (p + n) ∧ p' = p + n
  | (.error .empty, p') => p = vs.length ∧ 0 < s.liveSenders ∧ p' = p
  | (.error .closed, p') => p = vs.length ∧ s.liveSenders = 0 ∧ p' = p

theorem Exact.delivers (hc : 0 < c) (h : Exact c tr s) (hcounts : Counts s)
    (hn : (accepted tr).length < 2 ^ 64) (hrx : s.receivers[r]? = some rx) :
    Delivers s (accepted tr) (place r tr) (tryRecvLocked s.state rx.nextSeq) := by
  obtain ⟨hp, hple⟩ := h.places r rx hrx
  have hs := hcounts.senders
  rw [← hp] at hple ⊢
  rcases tryRecv_cases hc h.queue hple hn with
    ⟨v, hv, he⟩ | ⟨n, h1, h2, he⟩ | ⟨hend, hs0, he⟩ | ⟨hend, hs0, he⟩ <;> rw [he]
  · exact ⟨hv, rfl⟩
  · refine ⟨h1, ?_, rfl⟩
    rw [h.queue, h2]
    exact head?_window hc (by omega)
  · exact ⟨hend, by omega, rfl⟩
  · exact ⟨hend, by omega, rfl⟩

/-- **Each receiver gets the sequence.**  In every run with fewer than `2 ^ 64` accepted values the
queue is the window of the last `c` of them, every receive of a receiver returns what is due at its
place and moves it accordingly, whichever of the two receive functions it uses, and a `recv` that
returned `Pending` and was not woken since would still return `Pending`. -/
theorem broadcast_exact {s₀ : Sys T} (h0 : New c s₀) (h : Run step Any s₀ tr s)
    (hn : (accepted tr).length < 2 ^ 64) :
    s.state.queue = window c (accepted tr) ∧
    (∀ r rx, s.receivers[r]? = some rx →
      rx.nextSeq = place r tr ∧
      Delivers s (accepted tr) (place r tr) (tryRecvLocked s.state rx.nextSeq) ∧
      ∀ cx, asTry (pollRecv s.state rx.nextSeq cx).1 = (tryRecvLocked s.state rx.nextSeq).1 ∧
        (pollRecv s.state rx.nextSeq cx).2.1 = (tryRecvLocked s.state rx.nextSeq).2) ∧
    ∀ r w, Since (· = .pending r w) (fun y => y = .woke w ∨ y = .recvDropped r) tr →
      ∃ rx, s.receiver? r true = some rx ∧
        ∀ cx, (pollRecv s.state rx.nextSeq cx).1 = none := by
  have hc := h0.eq.1
  have hE := exact_run h0 h hn
  refine ⟨hE.queue, fun r rx hrx => ?_, fun r w hsince => ?_⟩
  · have hD := hE.delivers hc (counts_run h0 h) hn hrx
    exact ⟨(hE.places r rx hrx).1, hD, pollRecv_agrees s.state rx.nextSeq⟩
  · have hpark := parked_run h0 h hn hsince
    obtain ⟨rx, hrx, hrecv, hlive, hp⟩ := hpark.place
    refine ⟨rx, ?_, fun cx => ?_⟩
    · unfold Sys.receiver?
      rw [hrx, filter_some_pos (by simp [hlive, hrecv])]
    · rw [hp, hE.pending hc hpark.sender cx]

/-- Two values are sent to a channel of capacity one: its receiver is told that it missed one, gets
the other, and waits. -/
theorem broadcast_exact_lagged : ∃ s₀ s : Sys ℕ, ∃ tr, channel 1 = some s₀ ∧
    exec step s₀ [.send 0 10, .send 0 11, .tryRecv 0, .blockingRecv 0, .recv 0, .pollRecv 0 7] =
      some (s, tr) ∧
    tr = [.accepted 10 1, .accepted 11 1, .lagged 0 1, .received 0 11, .pending 0 7] ∧
    s.state.queue = window 1 [10, 11] ∧ place 0 tr = 2 ∧
    ∃ rx, s.receiver? 0 true = some rx ∧ ∀ cx, (pollRecv s.state rx.nextSeq cx).1 = none := by
  refine ⟨_, _, _, rfl, rfl, rfl, ?_⟩
  have h0 : New 1 (⟨⟨[], 1, 0, 1, 1, [], []⟩, [true], 0, [⟨0, false, true⟩]⟩ : Sys ℕ) := .inl rfl
  obtain ⟨hq, -, hw⟩ := broadcast_exact h0 (run_exec
    [.send 0 10, .send 0 11, .tryRecv 0, .blockingRecv 0, .recv 0, .pollRecv 0 7] rfl) (by decide)
  refine ⟨hq, rfl, hw 0 7 ?_⟩
  exact ⟨[.accepted 10 1, .accepted 11 1, .lagged 0 1, .received 0 11], _, [], rfl, rfl, by simp⟩

end OhosFfrt.Broadcast.Sequence
