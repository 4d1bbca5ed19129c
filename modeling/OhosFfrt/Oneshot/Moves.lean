import OhosFfrt.Oneshot.System

/-!
# `signal::oneshot`: what a step can do

A receive takes the value, reports the end, or waits; with the value or the end the receiving side
gives up the channel (`holds`).  A step is a move (`step_moved`).
-/

namespace OhosFfrt.Oneshot.Moves

open Basic Lib.Runs Oneshot.Shared Oneshot.System List Option

variable {T : Type*} {s s' : Sys T} {op : Op T} {es tr : List (Ev T)}

/-- The receiving side still has the channel. -/
def holds (s : Sys T) : Bool := decide (s.receiver = some ⟨true⟩) || s.blocking

/-- A sender has the channel, and a `blocking_recv` has consumed the receiver. -/
structure Wf (s : Sys T) : Prop where
  sender : ∀ tx, s.sender = some tx → tx.shared = true
  blocking : s.blocking = true → s.receiver = none

/-- A receive waits with `x`, and the place of the receiver's waker is `rw` from then on. -/
def Waits (rw : Option Waker) (rw' : Option Waker) (x : Ev T) : Prop :=
  (rw' = rw ∧ (x = .empty ∨ x = .parked)) ∨ ∃ cx, rw' = some cx ∧ x = .pending cx

/-- **What a step can do.** -/
inductive Moved (s : Sys T) : Sys T → List (Ev T) → Prop
  | sent {v : T} (hs : s.sender = some ⟨true⟩) (hr : s.inner.receiverAlive = true) :
      Moved s
        { s with
          inner := { s.inner with value := some v, senderAlive := false, recvWaker := none }
          sender := none }
        (.sent v :: wake s.inner.recvWaker ++ [.broadcast])
  | refused {v : T} (hs : s.sender ≠ none) (hr : s.inner.receiverAlive = false) :
      Moved s { s with sender := none } [.refused v]
  | dropSender (hs : s.sender ≠ none) :
      Moved s
        { s with
          inner := { s.inner with senderAlive := false, recvWaker := none }
          sender := none }
        (wake s.inner.recvWaker ++ [.broadcast])
  | pollClosed {cw : Option Waker} :
      Moved s { s with inner := { s.inner with closeWaker := cw } } []
  | took {v : T} {rx : Option Receiver} {b : Bool} (hh : holds s = true)
      (hv : s.inner.value = some v) (hh' : holds ⟨s.inner, s.sender, rx, b⟩ = false) :
      Moved s ⟨{ s.inner with value := none }, s.sender, rx, b⟩ [.received v]
  | ended {rx : Option Receiver} {b : Bool}
      (hd : s.receiver = some ⟨false⟩ ∨ (s.inner.value = none ∧
        (s.inner.senderAlive = false ∨ s.inner.receiverAlive = false)))
      (hh' : holds ⟨s.inner, s.sender, rx, b⟩ = false) :
      Moved s ⟨s.inner, s.sender, rx, b⟩ [.closed]
  | wait {rx : Option Receiver} {b : Bool} {rw : Option Waker} {x : Ev T} (hh : holds s = true)
      (hv : s.inner.value = none) (hs : s.inner.senderAlive = true)
      (hr : s.inner.receiverAlive = true) (hh' : holds ⟨s.inner, s.sender, rx, b⟩ = true)
      (hx : Waits s.inner.recvWaker rw x) :
      Moved s ⟨{ s.inner with recvWaker := rw }, s.sender, rx, b⟩ [x]
  | wakeWaiter :
      Moved s { s with inner := { s.inner with recvWaker := none } }
        (wake s.inner.recvWaker ++ [.broadcast])
  /-- `close`, and the drop of a receiver, which has the channel or has it no more. -/
  | shut {rx : Option Receiver} {x : Ev T} {es : List (Ev T)} {i : Inner T}
      (hi : i = s.inner ∨ ∃ cw, i = { s.inner with receiverAlive := false, closeWaker := cw })
      (hx : (x = .closeCalled ∧ rx = s.receiver) ∨ (x = .receiverDropped ∧ rx = none))
      (hes : ∀ y ∈ es, (∃ w, y = .woke w) ∨ y = .broadcast) :
      Moved s { s with inner := i, receiver := rx } (x :: es)
  | idle : Moved s s []

theorem mem_wake {x : Ev T} {o : Option Waker} : x ∈ wake o ↔ ∃ w, o = some w ∧ x = .woke w := by
  rcases o with _ | w
  · simp [wake]
  · simp [wake]

theorem holds_of_receiver (h : s.receiver = some ⟨true⟩) : holds s = true := by
  simp [holds, h]

theorem holds_of_blocking (h : s.blocking = true) : holds s = true := by
  simp [holds, h]

theorem not_holds (h : s.receiver ≠ some ⟨true⟩) (hb : s.blocking = false) : holds s = false := by
  simp [holds, h, hb]

theorem moved_round {rx : Option Receiver} (hh : holds s = true) (hrx : rx ≠ some ⟨true⟩)
    (h : Sys.round { s with receiver := rx } = (s', es)) : Moved s s' es := by
  have hno : holds ⟨s.inner, s.sender, rx, false⟩ = false := not_holds hrx rfl
  unfold Sys.round blockingRound at h
  rcases hv : s.inner.value with _ | v
  · simp only [hv] at h
    split_ifs at h with hd
    · cases h
      exact .ended (.inr ⟨hv, by simpa using hd⟩) hno
    · cases h
      simp only [Bool.or_eq_true, Bool.not_eq_true', not_or, Bool.not_eq_false] at hd
      exact .wait hh hv hd.1 hd.2 (holds_of_blocking rfl) (.inl ⟨rfl, .inr rfl⟩)
  · simp only [hv] at h
    cases h
    exact .took hh hv hno

theorem moved_terminated (hrx : s.receiver = some ⟨false⟩) (hb : s.blocking = false) :
    Moved s { s with receiver := some ⟨false⟩ } [.closed] :=
  .ended (.inl hrx) (not_holds (by simp) hb)

theorem moved_tryRecv {rx : Receiver} (hrx : s.receiver = some rx) (hb : s.blocking = false)
    (h : (({ s with
      inner := (tryRecv rx s.inner).2.2
      receiver := some (tryRecv rx s.inner).2.1 }, [reportTry (tryRecv rx s.inner).1]) :
        Sys T × List (Ev T)) = (s', es)) : Moved s s' es := by
  cases h
  rcases rx with ⟨_ | _⟩
  · exact moved_terminated hrx hb
  · have hh := holds_of_receiver hrx
    have hno : holds ⟨s.inner, s.sender, some ⟨false⟩, s.blocking⟩ = false :=
      not_holds (by simp) hb
    rcases hv : s.inner.value with _ | v
    · simp only [Shared.tryRecv, hv, if_true]
      split_ifs with hd
      · rw [Bool.and_eq_true] at hd
        exact .wait hh hv hd.1 hd.2 (holds_of_receiver rfl) (.inl ⟨rfl, .inl rfl⟩)
      · rw [Bool.and_eq_true, not_and_or, Bool.not_eq_true, Bool.not_eq_true] at hd
        exact .ended (.inr ⟨hv, hd⟩) hno
    · simp only [Shared.tryRecv, hv, if_true]
      exact .took hh hv hno

theorem moved_poll {rx : Receiver} {cx : Waker} (hrx : s.receiver = some rx)
    (hb : s.blocking = false)
    (h : (({ s with
      inner := (poll rx s.inner cx).2.2
      receiver := some (poll rx s.inner cx).2.1 }, [report (.pending cx) (poll rx s.inner cx).1]) :
        Sys T × List (Ev T)) = (s', es)) : Moved s s' es := by
  cases h
  rcases rx with ⟨_ | _⟩
  · exact moved_terminated hrx hb
  · have hh := holds_of_receiver hrx
    have hno : holds ⟨s.inner, s.sender, some ⟨false⟩, s.blocking⟩ = false :=
      not_holds (by simp) hb
    rcases hv : s.inner.value with _ | v
    · by_cases hd : s.inner.senderAlive = true ∧ s.inner.receiverAlive = true
      · have he : poll ⟨true⟩ s.inner cx =
            (none, ⟨true⟩, { s.inner with recvWaker := some cx }) := by
          simp [Shared.poll, hv, hd.1, hd.2]
        rw [he]
        exact .wait hh hv hd.1 hd.2 (holds_of_receiver rfl) (.inr ⟨cx, rfl, rfl⟩)
      · rw [not_and_or, Bool.not_eq_true, Bool.not_eq_true] at hd
        have he : poll ⟨true⟩ s.inner cx = (some (.error .closed), ⟨false⟩, s.inner) := by
          simp [Shared.poll, hv, hd]
        rw [he]
        exact .ended (.inr ⟨hv, hd⟩) hno
    · simp only [Shared.poll, hv, if_true]
      exact .took hh hv hno

theorem shut_inner (rx : Receiver) (i : Inner T) : (shut rx i).1 = i ∨
    ∃ cw, (shut rx i).1 = { i with receiverAlive := false, closeWaker := cw } := by
  unfold shut
  split_ifs
  · exact .inr ⟨none, rfl⟩
  · exact .inl rfl

theorem shut_events (rx : Receiver) (i : Inner T) :
    ∀ y ∈ (shut rx i).2, (∃ w, y = .woke w) ∨ y = .broadcast := by
  intro y hy
  unfold shut at hy
  split_ifs at hy
  · rcases mem_append.mp hy with hy | hy
    · obtain ⟨w, -, rfl⟩ := mem_wake.mp hy
      exact .inl ⟨w, rfl⟩
    · exact .inr (mem_singleton.mp hy)
  · cases hy

theorem step_moved (hw : Wf s) (h : step s op = some (s', es)) : Moved s s' es := by
  have hshared : ∀ {tx}, s.sender = some tx → s.sender = some ⟨true⟩ := by
    intro tx htx
    have hsh := hw.sender tx htx
    rcases tx with ⟨b⟩
    simp only at hsh
    rw [htx, hsh]
  -- a receiver that is there excludes a `blocking_recv`
  have hfree : ∀ {rx}, s.receiver = some rx → s.blocking = false := by
    intro rx hrx
    rcases hb : s.blocking with _ | _
    · rfl
    · rw [hw.blocking hb] at hrx
      cases hrx
  cases op with
  | send =>
    simp only [step, map_eq_some_iff] at h
    obtain ⟨tx, htx, h⟩ := h
    have htx' := hshared htx
    rw [htx, some.injEq] at htx'
    subst htx'
    simp only [Shared.send, if_true] at h
    split_ifs at h with hr
    · cases h
      exact .refused (by rw [htx]; simp) (by simpa using hr)
    · cases h
      exact .sent htx (by simpa using hr)
  | pollClosed =>
    obtain ⟨tx, -, ⟨⟩⟩ := map_eq_some_iff.mp h
    unfold Shared.pollClosed
    split_ifs
    · exact .pollClosed
    · exact .idle
  | dropSender =>
    simp only [step, map_eq_some_iff] at h
    obtain ⟨tx, htx, h⟩ := h
    simp only [Shared.dropSender, hw.sender tx htx, if_true] at h
    cases h
    exact .dropSender (by rw [htx]; simp)
  | tryRecv =>
    simp only [step, map_eq_some_iff] at h
    obtain ⟨rx, hrx, h⟩ := h
    exact moved_tryRecv hrx (hfree hrx) h
  | poll =>
    simp only [step, map_eq_some_iff] at h
    obtain ⟨rx, hrx, h⟩ := h
    exact moved_poll hrx (hfree hrx) h
  | blockingRecv =>
    simp only [step, map_eq_some_iff] at h
    obtain ⟨⟨b⟩, hrx, h⟩ := h
    rcases b with _ | _
    · simp only [Bool.false_eq_true, if_false] at h
      cases h
      exact .ended (.inl hrx) (not_holds (by simp) (hfree hrx))
    · simp only [if_true] at h
      exact moved_round (holds_of_receiver hrx) (by simp) h
  | resumeRecv =>
    simp only [step, ite_none_right_eq_some, some.injEq] at h
    have hrx := hw.blocking h.1
    exact moved_round (holds_of_blocking h.1) (by rw [hrx]; simp) h.2
  | wakeWaiter =>
    simp only [step, map_eq_some_iff] at h
    obtain ⟨rx, -, h⟩ := h
    unfold Shared.wakeWaiter at h
    split_ifs at h
    · cases h
      exact .wakeWaiter
    · cases h
      exact .idle
  | close =>
    obtain ⟨rx, hrx, ⟨⟩⟩ := map_eq_some_iff.mp h
    exact .shut (shut_inner rx s.inner) (.inl ⟨rfl, rfl⟩) (shut_events rx s.inner)
  | dropReceiver =>
    obtain ⟨rx, hrx, ⟨⟩⟩ := map_eq_some_iff.mp h
    exact .shut (shut_inner rx s.inner) (.inr ⟨rfl, rfl⟩) (shut_events rx s.inner)

theorem wf_step (hw : Wf s) (h : step s op = some (s', es)) : Wf s' := by
  obtain ⟨h1, h2⟩ := hw
  cases op with
  | send v | dropSender =>
    obtain ⟨tx, -, ⟨⟩⟩ := map_eq_some_iff.mp h
    exact ⟨nofun, h2⟩
  | pollClosed =>
    obtain ⟨tx, -, ⟨⟩⟩ := map_eq_some_iff.mp h
    exact ⟨h1, h2⟩
  | tryRecv | poll cx =>
    obtain ⟨rx, hrx, ⟨⟩⟩ := map_eq_some_iff.mp h
    refine ⟨h1, fun hb => ?_⟩
    rw [h2 hb] at hrx
    cases hrx
  | blockingRecv =>
    simp only [step, map_eq_some_iff] at h
    obtain ⟨rx, hrx, h⟩ := h
    split_ifs at h
    · cases h
      exact ⟨h1, fun _ => rfl⟩
    · cases h
      exact ⟨h1, fun _ => rfl⟩
  | resumeRecv =>
    obtain ⟨hb, ⟨⟩⟩ := ite_none_right_eq_some.mp h
    exact ⟨h1, fun _ => h2 hb⟩
  | wakeWaiter | close =>
    obtain ⟨rx, -, ⟨⟩⟩ := map_eq_some_iff.mp h
    exact ⟨h1, h2⟩
  | dropReceiver =>
    obtain ⟨rx, -, ⟨⟩⟩ := map_eq_some_iff.mp h
    exact ⟨h1, fun _ => rfl⟩

theorem wf_run {C : List (Ev T) → Sys T → Op T → Prop} (h : Run step C channel tr s) : Wf s := by
  refine h.inv ⟨?_, ?_⟩ fun _ _ _ _ _ hI _ hs => wf_step hI hs
  · intro tx htx
    simp only [channel, some.injEq] at htx
    rw [← htx]
  · intro hb
    cases hb

end OhosFfrt.Oneshot.Moves
