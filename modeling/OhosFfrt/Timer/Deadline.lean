import OhosFfrt.Timer.Interval

/-!
# Durations that become deadlines

`sleep`, `timeout`, `Interval::reset_after` and the timeouts of `mpsc` add a `Duration` to the
current instant.  `Instant + Duration` panics where the sum is not representable, and there alone
the duration is not accepted (`durations_accepted`).
-/

namespace OhosFfrt.Timer

open Option

/-- `sleep`, with a new `TimerState`; `none` is a panic, here and below. -/
def sleep (state : ℕ) (now : Instant) (duration : Duration) : Option Sleep :=
  (now.checkedAdd duration).map (Sleep.new state)

/-- `Timeout`: the future, and the `Sleep` that ends it. -/
structure Timeout (F : Type*) where
  value : F
  delay : Sleep

/-- `timeout_at`. -/
def timeoutAt {F : Type*} (state : ℕ) (deadline : Instant) (future : F) : Timeout F :=
  ⟨future, .new state deadline⟩

/-- `timeout`. -/
def timeout {F : Type*} (state : ℕ) (now : Instant) (duration : Duration) (future : F) :
    Option (Timeout F) :=
  (now.checkedAdd duration).map fun deadline => timeoutAt state deadline future

/-- `Interval::reset_after`. -/
def Interval.resetAfter (i : Interval) (state : ℕ) (now : Instant) (after : Duration) :
    Option Interval :=
  (now.checkedAdd after).map (i.resetAt state)

/-- `Interval::reset`. -/
def Interval.reset (i : Interval) (state : ℕ) (now : Instant) : Option Interval :=
  (now.checkedAdd i.period).map (i.resetAt state)

/-- `SendFuture`; the value is taken when it is sent. -/
structure SendFuture (Shared T : Type*) where
  shared : Shared
  value : Option T

/-- `SendTimeoutFuture`. -/
structure SendTimeoutFuture (Shared T : Type*) where
  send : SendFuture Shared T
  sleep : Sleep

/-- `Sender::send_timeout`. -/
def sendTimeout {Shared T : Type*} (state : ℕ) (now : Instant) (shared : Shared) (value : T)
    (timeout : Duration) : Option (SendTimeoutFuture Shared T) :=
  (sleep state now timeout).map fun sleep => ⟨⟨shared, some value⟩, sleep⟩

/-- `RecvTimeoutFuture` and `UnboundedRecvTimeoutFuture`. -/
structure RecvTimeoutFuture (Receiver : Type*) where
  receiver : Receiver
  sleep : Sleep

/-- `Receiver::recv_timeout` and `UnboundedReceiver::recv_timeout`. -/
def recvTimeout {Receiver : Type*} (state : ℕ) (now : Instant) (receiver : Receiver)
    (timeout : Duration) : Option (RecvTimeoutFuture Receiver) :=
  (sleep state now timeout).map fun sleep => ⟨receiver, sleep⟩

/-- The call returns, and the deadline that it sets is the sum or, where that is not representable,
an instant after `now`. -/
def Accepts {α : Type*} (deadline : α → Instant) (now : Instant) (d : Duration)
    (call : Option α) : Prop :=
  ∃ a, call = some a ∧ ((deadline a).nanos = now.nanos + d.nanos ∨
    2 ^ 63 * 10 ^ 9 ≤ now.nanos + d.nanos ∧ now < deadline a)

theorem accepts_map {α : Type*} {deadline : α → Instant} {f : Instant → α} {now : Instant}
    {d : Duration} (hf : ∀ t, deadline (f t) = t) :
    Accepts deadline now d ((now.checkedAdd d).map f) ↔
      now.nanos + d.nanos < 2 ^ 63 * 10 ^ 9 := by
  constructor
  · rintro ⟨a, ha, -⟩
    obtain ⟨t, ht, -⟩ := map_eq_some_iff.mp ha
    exact Instant.checkedAdd_eq_some.mp ht ▸ t.lt
  · intro h
    obtain ⟨t, ht⟩ := Instant.exists_checkedAdd h
    refine ⟨f t, by rw [ht, map_some], .inl ?_⟩
    rw [hf, Instant.checkedAdd_eq_some.mp ht]

/-- **A duration is accepted if and only if the sum is representable**, in every entry point. -/
theorem durations_accepted {F Shared Receiver T : Type*} (state : ℕ) (now : Instant)
    (d : Duration) :
    (Accepts Sleep.deadline now d (sleep state now d) ↔
      now.nanos + d.nanos < 2 ^ 63 * 10 ^ 9) ∧
    (∀ future : F, Accepts (fun r => r.delay.deadline) now d (timeout state now d future) ↔
      now.nanos + d.nanos < 2 ^ 63 * 10 ^ 9) ∧
    (∀ i : Interval, Accepts (fun i => i.delay.deadline) now d (i.resetAfter state now d) ↔
      now.nanos + d.nanos < 2 ^ 63 * 10 ^ 9) ∧
    (∀ i : Interval, Accepts (fun i => i.delay.deadline) now i.period (i.reset state now) ↔
      now.nanos + i.period.nanos < 2 ^ 63 * 10 ^ 9) ∧
    (∀ (shared : Shared) (value : T),
      Accepts (fun r => r.sleep.deadline) now d (sendTimeout state now shared value d) ↔
        now.nanos + d.nanos < 2 ^ 63 * 10 ^ 9) ∧
    ∀ receiver : Receiver,
      Accepts (fun r => r.sleep.deadline) now d (recvTimeout state now receiver d) ↔
        now.nanos + d.nanos < 2 ^ 63 * 10 ^ 9 := by
  refine ⟨accepts_map fun _ => rfl, fun _ => accepts_map fun _ => rfl,
    fun _ => accepts_map fun _ => rfl, fun _ => accepts_map fun _ => rfl, ?_, ?_⟩
  · intro shared value
    unfold sendTimeout sleep
    rw [map_map]
    exact accepts_map fun _ => rfl
  · intro receiver
    unfold recvTimeout sleep
    rw [map_map]
    exact accepts_map fun _ => rfl

/-- A second from the instant 0. -/
theorem durations_accepted_second :
    Accepts Sleep.deadline (.ofMillis 0 (by decide)) (.fromMillis 1000 (by decide))
      (sleep 0 (.ofMillis 0 (by decide)) (.fromMillis 1000 (by decide))) :=
  (@durations_accepted Unit Unit Unit Unit 0 (.ofMillis 0 (by decide))
    (.fromMillis 1000 (by decide))).1.mpr (by decide)

/-- **`Duration::MAX` panics**, in every entry point. -/
theorem duration_max_panics :
    sleep 0 (.ofMillis 0 (by decide)) .max = none ∧
    timeout 0 (.ofMillis 0 (by decide)) .max () = none ∧
    (∀ i : Interval, i.resetAfter 0 (.ofMillis 0 (by decide)) .max = none) ∧
    sendTimeout 0 (.ofMillis 0 (by decide)) () () .max = none ∧
    recvTimeout 0 (.ofMillis 0 (by decide)) () .max = none := by
  have hnone : (Instant.ofMillis 0 (by decide)).checkedAdd .max = none := dif_neg (by decide)
  simp only [sleep, timeout, Interval.resetAfter, sendTimeout, recvTimeout, hnone, map_none,
    and_self, implies_true]

end OhosFfrt.Timer
