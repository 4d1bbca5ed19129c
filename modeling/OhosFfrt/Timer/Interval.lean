import Mathlib.Order.Bounds.Basic
import Mathlib.Data.List.Chain
import OhosFfrt.Timer.Sleep

/-!
# `timer::interval`: the schedule of the ticks

A tick returns the deadline of its `Sleep` and sets the next one: a period later if the poll is at
most 5 ms late, and what `MissedTickBehavior` says if it is later (`interval_schedule`).
-/

namespace OhosFfrt.Timer

open Lib.Runs List Option

inductive MissedTickBehavior
  | burst
  | delay
  | skip
  deriving DecidableEq, Repr

/-- `MissedTickBehavior::next_timeout`; `none` is a panic. -/
def MissedTickBehavior.nextTimeout (behavior : MissedTickBehavior) (timeout now : Instant)
    (period : Duration) : Option Instant :=
  match behavior with
  | .burst => timeout.checkedAdd period
  | .delay => now.checkedAdd period
  | .skip =>
    let remainder := (now.saturatingDurationSince timeout).nanos % period.nanos
    (now.checkedAdd period).bind fun t => (Duration.fromNanos remainder).bind t.checkedSub

/-- `Interval`.  The period is not zero: `new` asserts it, and nothing changes it. -/
structure Interval where
  delay : Sleep
  period : Duration
  pos : 0 < period.nanos
  missedTickBehavior : MissedTickBehavior

namespace Interval

/-- `Interval::new`, with a new `TimerState`; `none` is a panic. -/
def new (state : ℕ) (start : Instant) (period : Duration) : Option Interval :=
  if h : 0 < period.nanos then some ⟨.new state start, period, h, .burst⟩ else none

/-- How late a tick may be without being missed. -/
def tolerance : Duration := .fromMillis 5 (by decide)

/-- The deadline that `poll_tick` sets; `none` is a panic. -/
def next (i : Interval) (now : Instant) : Option Instant :=
  let timeout := i.delay.deadline
  (timeout.checkedAdd tolerance).bind fun limit =>
    if limit < now then i.missedTickBehavior.nextTimeout timeout now i.period
    else timeout.checkedAdd i.period

/-- `Interval::reset_at`, with a new `TimerState`. -/
def resetAt (i : Interval) (state : ℕ) (deadline : Instant) : Interval :=
  { i with delay := i.delay.reset state deadline }

/-- `Interval::poll_tick`, where `ready` is what the poll of the `Sleep` returns. -/
def pollTick (i : Interval) (state : ℕ) (ready : Bool) (now : Instant) :
    Option (Option Instant × Interval) :=
  if ready then (i.next now).map fun next => (some i.delay.deadline, i.resetAt state next)
  else some (none, i)

def setMissedTickBehavior (i : Interval) (behavior : MissedTickBehavior) : Interval :=
  { i with missedTickBehavior := behavior }

end Interval

namespace Schedule

/-- A tick: the instant it returns, the time of its poll, and the behaviour that is set. -/
structure Tick where
  instant : Instant
  now : Instant
  behavior : MissedTickBehavior
  deriving DecidableEq, Repr

inductive Ev
  | pending
  | tick (t : Tick)
  deriving DecidableEq, Repr

inductive Op
  | clock (t : Instant)
  | poll (ready : Bool)
  | setMissedTickBehavior (behavior : MissedTickBehavior)
  deriving DecidableEq, Repr

/-- The clock, the `Interval`, and the number of `TimerState`s. -/
structure Sys where
  clock : Instant
  interval : Interval
  states : ℕ

/-- **One step**; a poll that panics is none. -/
def step (s : Sys) : Op → Option (Sys × List Ev)
  | .clock t => some ({ s with clock := t }, [])
  | .poll ready =>
    (s.interval.pollTick s.states ready s.clock).map fun r =>
      match r.1 with
      | none => ({ s with interval := r.2 }, [.pending])
      | some t =>
        ({ s with interval := r.2, states := s.states + 1 },
          [.tick ⟨t, s.clock, s.interval.missedTickBehavior⟩])
  | .setMissedTickBehavior behavior =>
    some ({ s with interval := s.interval.setMissedTickBehavior behavior }, [])

/-- **What is assumed**: the clock is monotonic, and the `Sleep` is never early. -/
def Timely (_ : List Ev) (s : Sys) : Op → Prop
  | .clock t => s.clock ≤ t
  | .poll ready => ready = true → s.interval.delay.deadline ≤ s.clock
  | .setMissedTickBehavior _ => True

instance (tr : List Ev) (s : Sys) (op : Op) : Decidable (Timely tr s op) := by
  unfold Timely
  split <;> infer_instance

def ticks (tr : List Ev) : List Tick :=
  tr.filterMap fun
    | .tick t => some t
    | .pending => none

theorem ticks_append (tr es : List Ev) : ticks (tr ++ es) = ticks tr ++ ticks es :=
  filterMap_append

/-- The poll was more than 5 ms late. -/
def Tick.Late (t : Tick) : Prop := t.instant.nanos + 5000000 < t.now.nanos

/-- So many periods after an instant, at least one. -/
def Multiple (p : ℕ) (t x : ℤ) : Prop := ∃ m : ℕ, 0 < m ∧ x = t + (m * p : ℕ)

/-- **What the next tick is to a tick**, with a period of `p` nanoseconds. -/
structure Follows (p : ℕ) (t : Tick) (next : Instant) : Prop where
  apart : t.instant.nanos + p ≤ next.nanos
  burst : t.behavior = .burst → next.nanos = t.instant.nanos + p
  aligned : t.behavior ≠ .delay → Multiple p t.instant.nanos next.nanos
  skip : t.behavior = .skip → t.Late →
    IsLeast {x | Multiple p t.instant.nanos x ∧ t.now.nanos < x} next.nanos
  delay : t.behavior = .delay → t.Late → next.nanos = t.now.nanos + p

/-! ## One tick -/

variable {p d : ℕ} {t : Tick} {timeout now next : Instant} {period : Duration}

theorem follows_period (hlate : ¬ t.Late ∨ t.behavior = .burst)
    (hnext : next.nanos = t.instant.nanos + p) : Follows p t next where
  apart := by omega
  burst _ := hnext
  aligned _ := ⟨1, Nat.one_pos, by omega⟩
  skip hskip h := by
    rcases hlate with hlate | hburst
    · exact absurd h hlate
    · rw [hskip] at hburst
      cases hburst
  delay hdelay h := by
    rcases hlate with hlate | hburst
    · exact absurd h hlate
    · rw [hdelay] at hburst
      cases hburst

theorem add_sub_mod (d p : ℕ) (hp : 0 < p) : d + p - d % p = (d / p + 1) * p := by
  have hdiv := Nat.div_add_mod d p
  have hmod := Nat.mod_lt d hp
  rw [Nat.add_mul, Nat.one_mul, Nat.mul_comm]
  omega

/-- **`next_timeout` of `Skip`** is the first multiple later than now. -/
theorem isLeast_skip (hp : 0 < p) {t n x : ℤ} (hle : t ≤ n)
    (hx : x = n + p - ((n - t).toNat % p : ℕ)) : IsLeast {x | Multiple p t x ∧ n < x} x := by
  obtain ⟨d, rfl⟩ := Int.le.dest hle
  have hd : (t + d - t).toNat = d := by omega
  rw [hd] at hx
  have hmod := Nat.mod_lt d hp
  have hsum := add_sub_mod d p hp
  have hx' : x = t + ((d / p + 1) * p : ℕ) := by
    rw [← hsum]
    omega
  refine ⟨⟨⟨d / p + 1, Nat.succ_pos _, hx'⟩, by omega⟩, ?_⟩
  rintro y ⟨⟨m, -, rfl⟩, hlt⟩
  have hdm : d < p * m := by
    rw [Nat.mul_comm]
    omega
  have hm : d / p + 1 ≤ m := Nat.div_lt_of_lt_mul hdm
  have hmul := Nat.mul_le_mul_right p hm
  rw [hx']
  omega

theorem follows_next {i : Interval} (hle : i.delay.deadline ≤ now) (h : i.next now = some next) :
    Follows i.period.nanos ⟨i.delay.deadline, now, i.missedTickBehavior⟩ next := by
  obtain ⟨limit, hlimit, h⟩ := bind_eq_some_iff.mp h
  have hlimit : limit.nanos = i.delay.deadline.nanos + (5000000 : ℕ) :=
    Instant.checkedAdd_eq_some.mp hlimit
  have hle : i.delay.deadline.nanos ≤ now.nanos := hle
  have hpos := i.pos
  split_ifs at h with hlt
  · have hlt : limit.nanos < now.nanos := hlt
    unfold MissedTickBehavior.nextTimeout at h
    split at h
    · next hb => exact follows_period (.inr hb) (Instant.checkedAdd_eq_some.mp h)
    · next hb =>
      have hnext := Instant.checkedAdd_eq_some.mp h
      refine ⟨?_, ?_, ?_, ?_, fun _ _ => hnext⟩
      · show i.delay.deadline.nanos + _ ≤ _
        omega
      · intro hb'
        cases hb.symm.trans hb'
      · intro hb'
        exact absurd hb hb'
      · intro hb'
        cases hb.symm.trans hb'
    · next hb =>
      obtain ⟨t, ht, h⟩ := bind_eq_some_iff.mp h
      obtain ⟨r, hr, h⟩ := bind_eq_some_iff.mp h
      have ht := Instant.checkedAdd_eq_some.mp ht
      have hnext := Instant.checkedSub_eq_some.mp h
      have hrem : r.nanos = (now.nanos - i.delay.deadline.nanos).toNat % i.period.nanos := by
        unfold Duration.fromNanos at hr
        split_ifs at hr
        cases hr
        rfl
      rw [ht, hrem] at hnext
      have hleast := isLeast_skip hpos hle hnext
      refine ⟨?_, ?_, fun _ => hleast.1.1, fun _ _ => hleast, ?_⟩
      · obtain ⟨m, hm, hx⟩ := hleast.1.1
        have hmul := Nat.mul_le_mul_right i.period.nanos hm
        show i.delay.deadline.nanos + _ ≤ _
        omega
      · intro hb'
        cases hb.symm.trans hb'
      · intro hb'
        cases hb.symm.trans hb'
  · refine follows_period (.inl ?_) (Instant.checkedAdd_eq_some.mp h)
    intro hlate
    have hlate : i.delay.deadline.nanos + 5000000 < now.nanos := hlate
    have hlt : ¬ limit.nanos < now.nanos := hlt
    omega

/-- **No other panic**: with a period below `2 ^ 64` ns a tick panics only if a sum of instants is
not representable. -/
theorem next_isSome {i : Interval} (hperiod : i.period.nanos < 2 ^ 64)
    (hle : i.delay.deadline ≤ now) (hlimit : i.delay.deadline.nanos + 5000000 < 2 ^ 63 * 10 ^ 9)
    (hsum : now.nanos + i.period.nanos < 2 ^ 63 * 10 ^ 9) : ∃ next, i.next now = some next := by
  have hle : i.delay.deadline.nanos ≤ now.nanos := hle
  have hadd : ∀ t : Instant, t.nanos ≤ now.nanos → ∃ t', t.checkedAdd i.period = some t' := by
    intro t ht
    exact Instant.exists_checkedAdd (by omega)
  obtain ⟨limit, hl⟩ : ∃ limit, i.delay.deadline.checkedAdd Interval.tolerance = some limit :=
    Instant.exists_checkedAdd hlimit
  simp only [Interval.next, hl, bind_some]
  split_ifs
  · cases i.missedTickBehavior with
    | burst => exact hadd _ hle
    | delay => exact hadd _ (Int.le_refl _)
    | skip =>
      obtain ⟨t, ht⟩ := hadd now (Int.le_refl _)
      have hmod : (now.saturatingDurationSince i.delay.deadline).nanos % i.period.nanos <
          i.period.nanos := Nat.mod_lt _ i.pos
      have ht' := Instant.checkedAdd_eq_some.mp ht
      have hge := now.ge
      unfold MissedTickBehavior.nextTimeout
      generalize (now.saturatingDurationSince i.delay.deadline).nanos % i.period.nanos = r at hmod
      have hr : r < 2 ^ 64 := by omega
      show ∃ next, ((now.checkedAdd i.period).bind fun t =>
        (Duration.fromNanos r).bind t.checkedSub) = some next
      rw [ht, bind_some, Duration.fromNanos, dif_pos hr, bind_some]
      refine ⟨_, dif_pos ?_⟩
      show -(2 ^ 63 * 10 ^ 9) ≤ t.nanos - r
      omega
  · exact hadd _ hle

/-! ## Runs -/

variable {s s' : Sys} {op : Op} {tr es : List Ev} {start : Instant}

/-- **What a step can do**: it leaves the deadline and the period alone and is no tick, or it is a
tick. -/
theorem step_cases (hs : step s op = some (s', es)) :
    (ticks es = [] ∧ s'.interval.period = s.interval.period ∧
      s'.interval.delay.deadline = s.interval.delay.deadline) ∨
    (op = .poll true ∧ ticks es =
        [⟨s.interval.delay.deadline, s.clock, s.interval.missedTickBehavior⟩] ∧
      s'.interval.period = s.interval.period ∧
      s.interval.next s.clock = some s'.interval.delay.deadline) := by
  cases op with
  | clock | setMissedTickBehavior =>
    cases hs
    exact .inl ⟨rfl, rfl, rfl⟩
  | poll ready =>
    obtain ⟨⟨r, i⟩, hr, hs⟩ := map_eq_some_iff.mp hs
    unfold Interval.pollTick at hr
    cases ready with
    | false =>
      cases hr
      cases hs
      exact .inl ⟨rfl, rfl, rfl⟩
    | true =>
      rw [if_pos rfl] at hr
      obtain ⟨next, hnext, hr⟩ := map_eq_some_iff.mp hr
      cases hr
      cases hs
      exact .inr ⟨rfl, rfl, rfl, hnext⟩

/-- The instants `start + k * period` for these `k`. -/
def grid (start : Instant) (p : ℕ) (ks : List ℕ) : List ℤ :=
  ks.map fun k => start.nanos + (k * p : ℕ)

/-- **The ticks so far, and the next one.** -/
structure Inv (start : Instant) (period : Duration) (tr : List Ev) (s : Sys) : Prop where
  same : s.interval.period = period
  first : ticks tr = [] → s.interval.delay.deadline = start
  head : ∀ t ∈ (ticks tr).head?, t.instant = start
  chain : (ticks tr).IsChain fun t t' => Follows period.nanos t t'.instant
  last : ∀ t ∈ (ticks tr).getLast?, Follows period.nanos t s.interval.delay.deadline
  aligned : (∀ t ∈ ticks tr, t.behavior ≠ .delay) → ∃ ks k,
    ks.Pairwise (· < ·) ∧ (∀ j ∈ ks, j < k) ∧
      (ticks tr).map (·.instant.nanos) = grid start period.nanos ks ∧
      s.interval.delay.deadline.nanos = start.nanos + (k * period.nanos : ℕ)

theorem Multiple.grid {k : ℕ} {x t next : ℤ} (h : Multiple p t next) (ht : t = x + (k * p : ℕ)) :
    ∃ k', k < k' ∧ next = x + (k' * p : ℕ) := by
  obtain ⟨m, hm, rfl⟩ := h
  refine ⟨k + m, by omega, ?_⟩
  rw [ht, Nat.add_mul]
  omega

theorem Inv.step (h : Inv start period tr s) (hC : Timely tr s op)
    (hs : step s op = some (s', es)) : Inv start period (tr ++ es) s' := by
  rcases step_cases hs with ⟨hes, hperiod, hdeadline⟩ | ⟨rfl, hes, hperiod, hnext⟩
  · have hticks : ticks (tr ++ es) = ticks tr := by rw [ticks_append, hes, append_nil]
    refine ⟨hperiod.trans h.same, ?_, ?_, ?_, ?_, ?_⟩
    all_goals rw [hticks]
    · rw [hdeadline]
      exact h.first
    · exact h.head
    · exact h.chain
    · rw [hdeadline]
      exact h.last
    · rw [hdeadline]
      exact h.aligned
  · have hfollows := follows_next (hC rfl) hnext
    rw [h.same] at hfollows
    have hticks : ticks (tr ++ es) = ticks tr ++
        [⟨s.interval.delay.deadline, s.clock, s.interval.missedTickBehavior⟩] := by
      rw [ticks_append, hes]
    refine ⟨hperiod.trans h.same, ?_, ?_, ?_, ?_, ?_⟩
    all_goals rw [hticks]
    · intro hnil
      exact absurd hnil (by simp)
    · intro t ht
      rcases hold : ticks tr with _ | ⟨u, us⟩
      · rw [hold] at ht
        cases ht
        exact h.first hold
      · rw [hold] at ht
        refine h.head t ?_
        rw [hold]
        exact ht
    · refine isChain_append.mpr ⟨h.chain, isChain_singleton _, ?_⟩
      intro t ht t' ht'
      cases ht'
      exact h.last t ht
    · intro t ht
      rw [getLast?_concat] at ht
      cases ht
      exact hfollows
    · intro hall
      obtain ⟨ks, k, hpair, hlt, hmap, hk⟩ :=
        h.aligned fun t ht => hall t (mem_append_left _ ht)
      have hmultiple := hfollows.aligned (hall _ (mem_append_right _ mem_cons_self))
      obtain ⟨k', hkk, hk'⟩ := hmultiple.grid hk
      refine ⟨ks ++ [k], k', ?_, ?_, ?_, hk'⟩
      · refine pairwise_append.mpr ⟨hpair, pairwise_singleton _ _, ?_⟩
        intro j hj j' hj'
        rw [mem_singleton.mp hj']
        exact hlt j hj
      · intro j hj
        rcases mem_append.mp hj with hj | hj
        · exact Nat.lt_trans (hlt j hj) hkk
        · rw [mem_singleton.mp hj]
          exact hkk
      · rw [map_append, hmap, grid, grid, map_append]
        exact congrArg (fun x => _ ++ [x]) hk

/-- **The schedule of an `Interval`**: for every start and period, every sequence of poll times and
every change of the behaviour, the first tick is the start, each tick follows the one before as
`Follows` says, and so does the deadline that is set.  As long as there is no `Delay` the ticks are
`start + k * period`, with `k` strictly increasing.  A tick that is due does not panic, as long as
the instants are representable and the period is below `2 ^ 64` ns. -/
theorem interval_schedule {states : ℕ} {clock : Instant} {i : Interval}
    (hnew : Interval.new states start period = some i)
    (h : Run step Timely ⟨clock, i, states + 1⟩ tr s) :
    (∀ t ∈ (ticks tr).head?, t.instant = start) ∧
    ((ticks tr).IsChain fun t t' => Follows period.nanos t t'.instant) ∧
    (∀ t ∈ (ticks tr).getLast?, Follows period.nanos t s.interval.delay.deadline) ∧
    ((∀ t ∈ ticks tr, t.behavior ≠ .delay) → ∃ ks : List ℕ, ks.Pairwise (· < ·) ∧
      (ticks tr).map (·.instant.nanos) = grid start period.nanos ks) ∧
    (period.nanos < 2 ^ 64 → s.interval.delay.deadline ≤ s.clock →
      s.interval.delay.deadline.nanos + 5000000 < 2 ^ 63 * 10 ^ 9 →
      s.clock.nanos + period.nanos < 2 ^ 63 * 10 ^ 9 →
      ∃ s' t, step s (.poll true) = some (s', [.tick t])) := by
  have hinv : Inv start period tr s := by
    refine h.inv ?_ fun _ _ _ _ _ hI hC hs => hI.step hC hs
    unfold Interval.new at hnew
    split_ifs at hnew with hpos
    cases hnew
    refine ⟨rfl, fun _ => rfl, ?_, isChain_nil, ?_, fun _ => ⟨[], 0, .nil, ?_, rfl, ?_⟩⟩
    · intro t ht
      cases ht
    · intro t ht
      cases ht
    · intro j hj
      cases hj
    · rw [Nat.zero_mul]
      exact (Int.add_zero _).symm
  refine ⟨hinv.head, hinv.chain, hinv.last, ?_, ?_⟩
  · intro hall
    obtain ⟨ks, k, hpair, -, hmap, -⟩ := hinv.aligned hall
    exact ⟨ks, hpair, hmap⟩
  · intro hperiod hle hlimit hsum
    rw [← hinv.same] at hperiod hsum
    obtain ⟨next, hnext⟩ := next_isSome hperiod hle hlimit hsum
    refine ⟨⟨s.clock, s.interval.resetAt s.states next, s.states + 1⟩,
      ⟨s.interval.delay.deadline, s.clock, s.interval.missedTickBehavior⟩, ?_⟩
    simp only [step, Interval.pollTick, if_true, hnext, map_some]

/-- From 1 ms on, every 2 ms. -/
def everyTwo : Interval :=
  ⟨.new 0 (.ofMillis 1 (by decide)), .fromMillis 2 (by decide), by decide, .burst⟩

/-- The first tick comes 7 ms late under `Skip`. -/
theorem interval_schedule_skip :
    ∃ s tr, Run step Timely ⟨.ofMillis 0 (by decide), everyTwo, 1⟩ tr s ∧
      ∃ t, (ticks tr).getLast? = some t ∧ t.behavior = .skip ∧ t.Late ∧
        IsLeast {x | Multiple 2000000 t.instant.nanos x ∧ t.now.nanos < x}
          s.interval.delay.deadline.nanos := by
  have hnew : Interval.new 0 (.ofMillis 1 (by decide)) (.fromMillis 2 (by decide)) =
      some everyTwo := rfl
  have hrun : Run step Timely ⟨.ofMillis 0 (by decide), everyTwo, 1⟩ []
      ⟨.ofMillis 8 (by decide), everyTwo.setMissedTickBehavior .skip, 1⟩ :=
    run_execIf [.setMissedTickBehavior .skip, .clock (.ofMillis 8 (by decide))] .nil rfl
  have hdue : (Instant.ofMillis 1 (by decide)) ≤ .ofMillis 8 (by decide) := by decide
  obtain ⟨s', t, hs⟩ :=
    (interval_schedule hnew hrun).2.2.2.2 (by decide) hdue (by decide) (by decide)
  have ht : t = ⟨.ofMillis 1 (by decide), .ofMillis 8 (by decide), .skip⟩ := by
    rcases step_cases hs with ⟨hnone, -, -⟩ | ⟨-, hone, -, -⟩
    · cases hnone
    · exact (List.cons.inj hone).1
  have hlate : t.Late := by
    rw [ht]
    unfold Tick.Late
    decide
  have hrun' := hrun.snoc (show Timely _ _ (.poll true) from fun _ => hdue) hs
  have hlast := (interval_schedule hnew hrun').2.2.1 t rfl
  have hskip : t.behavior = .skip := by rw [ht]
  exact ⟨s', _, hrun', t, rfl, hskip, hlate, hlast.skip hskip hlate⟩

end Schedule

end OhosFfrt.Timer
