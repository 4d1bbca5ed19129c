import Mathlib.Tactic.SplitIfs
import Mathlib.Algebra.Group.Int.Defs
import Mathlib.Algebra.Group.Nat.Defs

/-!
# Durations and instants

The standard library's types as the timers use them.  A `Duration` is a `u64` of seconds and
nanoseconds below a second; an `Instant` is a `timespec`, an `i64` of seconds and nanoseconds below
a second.  Both are given by their nanoseconds, with the range that their representation has.
-/

namespace OhosFfrt.Timer

/-- `Duration`, in nanoseconds (`as_nanos`). -/
@[ext]
structure Duration where
  nanos : ℕ
  lt : nanos < 2 ^ 64 * 10 ^ 9
  deriving DecidableEq, Repr

/-- `Instant`, in nanoseconds of the monotonic clock. -/
@[ext]
structure Instant where
  nanos : ℤ
  ge : -(2 ^ 63 * 10 ^ 9) ≤ nanos
  lt : nanos < 2 ^ 63 * 10 ^ 9
  deriving DecidableEq, Repr

namespace Duration

/-- `Duration::MAX`. -/
def max : Duration := ⟨2 ^ 64 * 10 ^ 9 - 1, by decide⟩

/-- `Duration::from_millis`. -/
def fromMillis (millis : ℕ) (h : millis < 2 ^ 64) : Duration := ⟨millis * 1000000, by omega⟩

/-- `Duration::from_nanos`, with `u64::try_from` before it; `none` is a panic. -/
def fromNanos (nanos : ℕ) : Option Duration :=
  if h : nanos < 2 ^ 64 then some ⟨nanos, by omega⟩ else none

end Duration

namespace Instant

instance : LE Instant := ⟨fun t t' => t.nanos ≤ t'.nanos⟩

instance : LT Instant := ⟨fun t t' => t.nanos < t'.nanos⟩

instance (t t' : Instant) : Decidable (t ≤ t') := inferInstanceAs (Decidable (t.nanos ≤ t'.nanos))

instance (t t' : Instant) : Decidable (t < t') := inferInstanceAs (Decidable (t.nanos < t'.nanos))

variable {t t' : Instant} {d : Duration}

theorem le_iff : t ≤ t' ↔ t.nanos ≤ t'.nanos := Iff.rfl

/-- So many milliseconds on the clock. -/
def ofMillis (millis : ℕ) (h : millis < 2 ^ 63) : Instant :=
  ⟨millis * 1000000, by omega, by omega⟩

/-- `Instant::checked_add`; `Instant + Duration` panics where this is `none`. -/
def checkedAdd (t : Instant) (d : Duration) : Option Instant :=
  if h : t.nanos + d.nanos < 2 ^ 63 * 10 ^ 9 then
    some ⟨t.nanos + d.nanos, by have := t.ge; omega, h⟩
  else none

/-- `Instant::checked_sub`; `Instant - Duration` panics where this is `none`. -/
def checkedSub (t : Instant) (d : Duration) : Option Instant :=
  if h : -(2 ^ 63 * 10 ^ 9) ≤ t.nanos - d.nanos then
    some ⟨t.nanos - d.nanos, h, by have := t.lt; omega⟩
  else none

/-- `Instant::saturating_duration_since`, which `Instant - Instant` is as well: zero if `t` is not
later. -/
def saturatingDurationSince (t earlier : Instant) : Duration :=
  ⟨(t.nanos - earlier.nanos).toNat, by have := t.lt; have := earlier.ge; omega⟩

theorem exists_checkedAdd
    (h : t.nanos + d.nanos < 2 ^ 63 * 10 ^ 9) : ∃ t', t.checkedAdd d = some t' :=
  ⟨_, dif_pos h⟩

theorem checkedAdd_eq_some :
    t.checkedAdd d = some t' ↔ t'.nanos = t.nanos + d.nanos := by
  unfold checkedAdd
  split_ifs with h
  · rw [Option.some.injEq, Instant.ext_iff]
    exact eq_comm
  · have := t'.lt
    simp only [false_iff]
    omega

theorem checkedSub_eq_some :
    t.checkedSub d = some t' ↔ t'.nanos = t.nanos - d.nanos := by
  unfold checkedSub
  split_ifs with h
  · rw [Option.some.injEq, Instant.ext_iff]
    exact eq_comm
  · have := t'.ge
    simp only [false_iff]
    omega

theorem le_add_saturatingDurationSince (t earlier : Instant) :
    t.nanos ≤ earlier.nanos + (t.saturatingDurationSince earlier).nanos := by
  show t.nanos ≤ earlier.nanos + ((t.nanos - earlier.nanos).toNat : ℕ)
  omega

end Instant

end OhosFfrt.Timer
