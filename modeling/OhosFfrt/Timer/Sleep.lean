import OhosFfrt.Basic
import OhosFfrt.Lib.Arena
import OhosFfrt.Lib.Traces
import OhosFfrt.Timer.Instant

/-!
# `timer::sleep`: `Sleep` and its timers, step by step

A `Sleep` shares a `TimerState` with the callback of its timer.  A poll checks the flag `fired` and
the clock, stores its waker in the `TimerState`, starts a timer of the loop if there is none, and
checks again; the callback sets the flag, and then takes the waker and wakes it.  The steps of a
poll and of any number of callbacks interleave.

A `reset` gives up the timer and makes a new `TimerState`.  A timer that is given up is stopped, if
the loop can still do this; if not, its callback comes late, and finds the old `TimerState`.  The
clock may be set to any instant, and a callback may come at any time.
-/

namespace OhosFfrt.Timer

open Basic Lib.Arena List Option

structure TimerState where
  fired : Bool
  waker : Option Waker
  deriving DecidableEq, Repr

/-- `TimerState::default`. -/
def TimerState.new : TimerState := ⟨false, none⟩

/-- `TimerState::register`. -/
def TimerState.register (t : TimerState) (w : Waker) : TimerState :=
  if t.waker = some w then t else { t with waker := some w }

/-- `Sleep`.  The `TimerState` and the timer are given by their indices. -/
structure Sleep where
  deadline : Instant
  state : ℕ
  registration : Option ℕ
  deriving DecidableEq, Repr

/-- `Sleep::new`, with a new `TimerState`. -/
def Sleep.new (state : ℕ) (deadline : Instant) : Sleep := ⟨deadline, state, none⟩

/-- `Sleep::reset`, with a new `TimerState`. -/
def Sleep.reset (sleep : Sleep) (state : ℕ) (deadline : Instant) : Sleep :=
  { sleep with registration := none, deadline := deadline, state := state }

/-- `u64::MAX`. -/
def u64Max : ℕ := 2 ^ 64 - 1

/-- The timeout of `register_timer`, in milliseconds: rounded up, at least one, at most a `u64`. -/
def timerMillis (timeout : Duration) : ℕ :=
  min (max ((timeout.nanos + 999999) / 1000000) 1) u64Max

/-- Where a timer is. -/
inductive Phase
  /-- The loop may call the callback. -/
  | armed
  /-- The callback is called; it has done nothing yet. -/
  | begun
  /-- The callback has set `fired`. -/
  | stored
  /-- The callback has taken the waker. -/
  | done
  | stopped
  deriving DecidableEq, Repr

/-- A timer of the loop, with a callback that fires a `TimerState`. -/
structure LoopTimer where
  state : ℕ
  /-- The deadline the timeout is for. -/
  deadline : Instant
  /-- When it was started. -/
  started : Instant
  millis : ℕ
  phase : Phase
  deriving DecidableEq, Repr

/-- The instant before which the loop does not call the callback. -/
def LoopTimer.due (t : LoopTimer) : ℤ := t.started.nanos + 1000000 * t.millis

/-- It may still be called. -/
def LoopTimer.Live (t : LoopTimer) : Prop := t.phase ≠ .done ∧ t.phase ≠ .stopped

/-- The `LooperTimer` is dropped: the timer is stopped if the loop does so (`ffrt`). -/
def LoopTimer.stop (t : LoopTimer) (ffrt : Bool) : LoopTimer :=
  if ffrt ∧ t.phase = .armed then { t with phase := .stopped } else t

/-- Where a poll is. -/
inductive Pc
  | idle
  /-- It loads `fired`. -/
  | load (w : Waker)
  /-- It reads the clock. -/
  | now (w : Waker)
  /-- It stores its waker. -/
  | register (w : Waker)
  /-- It has no timer, and reads the clock for the time that remains. -/
  | measure (w : Waker)
  | start (w : Waker) (remaining : Duration)
  /-- It loads `fired` again. -/
  | reload (w : Waker)
  /-- It reads the clock again. -/
  | renow (w : Waker)
  /-- It gives up the timer, and returns `Ready`. -/
  | finish (w : Waker)
  deriving DecidableEq, Repr

/-- The time that remains, as the poll has read it. -/
def Pc.remaining : Pc → Option Duration
  | .start _ remaining => some remaining
  | _ => none

inductive Ev
  | began (w : Waker)
  | pending (w : Waker)
  | ready (w : Waker)
  /-- The timer could not be started. -/
  | panicked (w : Waker)
  | reset (deadline : Instant)
  | woken (w : Waker)
  deriving DecidableEq, Repr

inductive Op
  | clock (t : Instant)
  | poll (w : Waker)
  /-- The poll goes on; `ffrt` is whether the loop starts, or stops, the timer. -/
  | go (ffrt : Bool)
  | reset (deadline : Instant) (ffrt : Bool)
  | callback (k : ℕ)
  deriving DecidableEq, Repr

/-- The clock, the `Sleep`, its `TimerState`s and timers, and the poll. -/
structure Sys where
  clock : Instant
  sleep : Sleep
  /-- The number of `TimerState`s. -/
  next : ℕ
  states : ℕ → TimerState
  timers : List LoopTimer
  pc : Pc

def sleepUntil (clock deadline : Instant) : Sys where
  clock := clock
  sleep := .new 0 deadline
  next := 1
  states := fun _ => .new
  timers := []
  pc := .idle

/-- The state of its timer. -/
def Sys.state (s : Sys) : TimerState := s.states s.sleep.state

/-- `registration.take()`. -/
def Sys.dropped (s : Sys) (ffrt : Bool) : List LoopTimer :=
  match s.sleep.registration with
  | none => s.timers
  | some k => s.timers.modify k (·.stop ffrt)

/-- `register_timer`, started by the loop. -/
def Sys.timer (s : Sys) (remaining : Duration) : LoopTimer where
  state := s.sleep.state
  deadline := s.sleep.deadline
  started := s.clock
  millis := timerMillis remaining
  phase := .armed

/-- **The next step of a poll.** -/
def Sys.go (s : Sys) (ffrt : Bool) : Option (Sys × List Ev) :=
  match s.pc with
  | .idle => none
  | .load w => some ({ s with pc := if s.state.fired then .finish w else .now w }, [])
  | .now w =>
    some ({ s with pc := if s.sleep.deadline ≤ s.clock then .finish w else .register w }, [])
  | .register w =>
    some
      ({ s with
          states := Function.update s.states s.sleep.state (s.state.register w)
          pc := if s.sleep.registration.isNone then .measure w else .reload w }, [])
  | .measure w =>
    some ({ s with pc := .start w (s.sleep.deadline.saturatingDurationSince s.clock) }, [])
  | .start w remaining =>
    if ffrt then
      some
        ({ s with
            sleep := { s.sleep with registration := some s.timers.length }
            timers := s.timers ++ [s.timer remaining]
            pc := .reload w }, [])
    else some ({ s with pc := .idle }, [.panicked w])
  | .reload w => some ({ s with pc := if s.state.fired then .finish w else .renow w }, [])
  | .renow w =>
    if s.sleep.deadline ≤ s.clock then some ({ s with pc := .finish w }, [])
    else some ({ s with pc := .idle }, [.pending w])
  | .finish w =>
    some
      ({ s with
          sleep := { s.sleep with registration := none }
          timers := s.dropped ffrt
          pc := .idle }, [.ready w])

/-- **The next step of a callback**, the first of which is its call; the others are
`TimerState::fire`. -/
def Sys.callback (s : Sys) (k : ℕ) (t : LoopTimer) : Option (Sys × List Ev) :=
  let state := s.states t.state
  match t.phase with
  | .armed => some ({ s with timers := s.timers.set k { t with phase := .begun } }, [])
  | .begun =>
    some
      ({ s with
          states := Function.update s.states t.state { state with fired := true }
          timers := s.timers.set k { t with phase := .stored } }, [])
  | .stored =>
    some
      ({ s with
          states := Function.update s.states t.state { state with waker := none }
          timers := s.timers.set k { t with phase := .done } },
        (state.waker.map Ev.woken).toList)
  | .done | .stopped => none

def step (s : Sys) : Op → Option (Sys × List Ev)
  | .clock t => some ({ s with clock := t }, [])
  | .poll w => if s.pc = .idle then some ({ s with pc := .load w }, [.began w]) else none
  | .go ffrt => s.go ffrt
  | .reset deadline ffrt =>
    if s.pc = .idle then
      some
        ({ s with
            sleep := s.sleep.reset s.next deadline
            next := s.next + 1
            states := Function.update s.states s.next .new
            timers := s.dropped ffrt }, [.reset deadline])
    else none
  | .callback k => s.timers[k]?.bind (s.callback k)

/-! ## What a step can do -/

/-- It fired, or its time is over. -/
def Sys.Elapsed (s : Sys) : Prop := s.state.fired = true ∨ s.sleep.deadline ≤ s.clock

/-- **What a step can do.** -/
inductive Moved (s : Sys) : Op → Sys → List Ev → Prop
  | clock (t : Instant) : Moved s (.clock t) { s with clock := t } []
  | poll (w : Waker) (idle : s.pc = .idle) :
      Moved s (.poll w) { s with pc := .load w } [.began w]
  /-- The first check has failed, or a part of it. -/
  | check {ffrt : Bool} {w : Waker} {pc : Pc}
      (next : s.pc = .load w ∧ pc = .now w ∨ s.pc = .now w ∧ pc = .register w) :
      Moved s (.go ffrt) { s with pc := pc } []
  | register {ffrt : Bool} {w : Waker} {pc : Pc} (here : s.pc = .register w)
      (next : s.sleep.registration = none ∧ pc = .measure w ∨
        s.sleep.registration.isSome ∧ pc = .reload w) :
      Moved s (.go ffrt)
        { s with states := Function.update s.states s.sleep.state (s.state.register w), pc := pc }
        []
  | measure {ffrt : Bool} {w : Waker} (here : s.pc = .measure w) :
      Moved s (.go ffrt)
        { s with pc := .start w (s.sleep.deadline.saturatingDurationSince s.clock) } []
  | start {w : Waker} {remaining : Duration} (here : s.pc = .start w remaining) :
      Moved s (.go true)
        { s with
          sleep := { s.sleep with registration := some s.timers.length }
          timers := s.timers ++ [s.timer remaining]
          pc := .reload w } []
  | panic {w : Waker} {remaining : Duration} (here : s.pc = .start w remaining) :
      Moved s (.go false) { s with pc := .idle } [.panicked w]
  | reload {ffrt : Bool} {w : Waker} (here : s.pc = .reload w) (unset : s.state.fired = false) :
      Moved s (.go ffrt) { s with pc := .renow w } []
  | pending {ffrt : Bool} {w : Waker} (here : s.pc = .renow w) :
      Moved s (.go ffrt) { s with pc := .idle } [.pending w]
  | elapsed {ffrt : Bool} {w : Waker} (elapsed : s.Elapsed) :
      Moved s (.go ffrt) { s with pc := .finish w } []
  | ready {ffrt : Bool} {w : Waker} (here : s.pc = .finish w) :
      Moved s (.go ffrt)
        { s with
          sleep := { s.sleep with registration := none }
          timers := s.dropped ffrt
          pc := .idle } [.ready w]
  | reset {ffrt : Bool} (deadline : Instant) (idle : s.pc = .idle) :
      Moved s (.reset deadline ffrt)
        { s with
          sleep := s.sleep.reset s.next deadline
          next := s.next + 1
          states := Function.update s.states s.next .new
          timers := s.dropped ffrt } [.reset deadline]
  | call {k : ℕ} {t : LoopTimer} (here : s.timers[k]? = some t) (armed : t.phase = .armed) :
      Moved s (.callback k) { s with timers := s.timers.set k { t with phase := .begun } } []
  | store {k : ℕ} {t : LoopTimer} (here : s.timers[k]? = some t) (begun : t.phase = .begun) :
      Moved s (.callback k)
        { s with
          states := Function.update s.states t.state { s.states t.state with fired := true }
          timers := s.timers.set k { t with phase := .stored } } []
  | take {k : ℕ} {t : LoopTimer} (here : s.timers[k]? = some t) (stored : t.phase = .stored) :
      Moved s (.callback k)
        { s with
          states := Function.update s.states t.state { s.states t.state with waker := none }
          timers := s.timers.set k { t with phase := .done } }
        ((s.states t.state).waker.map Ev.woken).toList

variable {s s' : Sys} {op : Op} {es : List Ev} {t : LoopTimer}

theorem go_moved {ffrt : Bool} (h : s.go ffrt = some (s', es)) : Moved s (.go ffrt) s' es := by
  unfold Sys.go at h
  split at h
  · cases h
  · next w hpc =>
    cases h
    split_ifs with hf
    · exact .elapsed (.inl hf)
    · exact .check (.inl ⟨hpc, rfl⟩)
  · next w hpc =>
    cases h
    split_ifs with hle
    · exact .elapsed (.inr hle)
    · exact .check (.inr ⟨hpc, rfl⟩)
  · next w hpc =>
    cases h
    refine .register hpc ?_
    split_ifs with hn
    · exact .inl ⟨isNone_iff_eq_none.mp hn, rfl⟩
    · exact .inr ⟨by rwa [isNone_eq_false_iff.symm, Bool.eq_false_iff], rfl⟩
  · next w hpc =>
    cases h
    exact .measure hpc
  · next w remaining hpc =>
    split_ifs at h with hf
    · cases h
      rw [hf]
      exact .start hpc
    · cases h
      rw [Bool.eq_false_of_not_eq_true hf]
      exact .panic hpc
  · next w hpc =>
    cases h
    split_ifs with hf
    · exact .elapsed (.inl hf)
    · exact .reload hpc (Bool.eq_false_of_not_eq_true hf)
  · next w hpc =>
    split_ifs at h with hle
    · cases h
      exact .elapsed (.inr hle)
    · cases h
      exact .pending hpc
  · next w hpc =>
    cases h
    exact .ready hpc

theorem callback_moved {k : ℕ} (ht : s.timers[k]? = some t)
    (h : s.callback k t = some (s', es)) : Moved s (.callback k) s' es := by
  unfold Sys.callback at h
  split at h
  · next hp => cases h; exact .call ht hp
  · next hp => cases h; exact .store ht hp
  · next hp => cases h; exact .take ht hp
  · cases h
  · cases h

theorem step_moved (h : step s op = some (s', es)) : Moved s op s' es := by
  cases op with
  | clock t =>
    cases h
    exact .clock t
  | poll w =>
    unfold step at h
    split_ifs at h with hidle
    cases h
    exact .poll w hidle
  | go => exact go_moved h
  | reset deadline =>
    unfold step at h
    split_ifs at h with hidle
    cases h
    exact .reset deadline hidle
  | callback =>
    obtain ⟨t, ht, h⟩ := bind_eq_some_iff.mp h
    exact callback_moved ht h

/-! ## The timers -/

theorem stop_spec (t : LoopTimer) (ffrt : Bool) : t.stop ffrt = t ∨
    t.phase = .armed ∧ t.stop ffrt = { t with phase := .stopped } := by
  unfold LoopTimer.stop
  split_ifs with h
  · exact .inr ⟨h.2, rfl⟩
  · exact .inl rfl

theorem of_dropped {ffrt : Bool} (ht : t ∈ s.dropped ffrt) :
    t ∈ s.timers ∨ ∃ t₀ ∈ s.timers, t = { t₀ with phase := .stopped } := by
  unfold Sys.dropped at ht
  split at ht
  · exact .inl ht
  · next k hk =>
    obtain ⟨j, hj⟩ := mem_iff_getElem?.mp ht
    rw [getElem?_modify] at hj
    obtain ⟨t₀, h₀, rfl⟩ := map_eq_some_iff.mp hj
    have hmem : t₀ ∈ s.timers := mem_of_getElem? h₀
    split_ifs
    · rcases stop_spec t₀ ffrt with heq | ⟨-, heq⟩
      · rw [heq]
        exact .inl hmem
      · exact .inr ⟨t₀, hmem, heq⟩
    · exact .inl hmem

/-- **The indices of the `TimerState`s are used up to the next one.** -/
structure Known (s : Sys) : Prop where
  current : s.sleep.state < s.next
  timers : ∀ t ∈ s.timers, t.state < s.next

theorem known_sleepUntil {clock deadline : Instant} : Known (sleepUntil clock deadline) := by
  refine ⟨Nat.zero_lt_one, ?_⟩
  intro t ht
  cases ht

theorem known_dropped (h : Known s) (ffrt : Bool) : ∀ t ∈ s.dropped ffrt, t.state < s.next := by
  intro t ht
  rcases of_dropped ht with hold | ⟨t₀, hold, rfl⟩
  · exact h.timers t hold
  · exact h.timers t₀ hold

theorem known_set (h : Known s) {k : ℕ} (ht : s.timers[k]? = some t) (p : Phase) :
    ∀ t' ∈ s.timers.set k { t with phase := p }, t'.state < s.next := by
  intro t' ht'
  rcases mem_or_eq_of_mem_set ht' with hold | rfl
  · exact h.timers t' hold
  · exact h.timers t (mem_of_getElem? ht)

theorem Known.step (h : Known s) (hs : step s op = some (s', es)) : Known s' := by
  cases step_moved hs with
  | start =>
    refine ⟨h.current, ?_⟩
    intro t ht
    rcases mem_append.mp ht with hold | hnew
    · exact h.timers t hold
    · obtain rfl := mem_singleton.mp hnew
      exact h.current
  | ready => exact ⟨h.current, known_dropped h _⟩
  | reset =>
    refine ⟨Nat.lt_succ_self _, ?_⟩
    intro t ht
    exact Nat.lt_succ_of_lt (known_dropped h _ t ht)
  | call here | store here | take here => exact ⟨h.current, known_set h here _⟩
  | _ => exact ⟨h.current, h.timers⟩

end OhosFfrt.Timer
