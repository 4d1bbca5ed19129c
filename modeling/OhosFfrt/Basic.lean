import Mathlib.Algebra.Group.Nat.Defs

/-!
# What the models share

The standard library's types as the models use them.  Every model is about the code between taking
and releasing a lock: such a section is one step, and a wake-up or a broadcast that the code issues
in it or right after it belongs to the step.
-/

namespace OhosFfrt.Basic

/-- A waker, named by the task it wakes: `will_wake` is equality. -/
abbrev Waker := ℕ

/-- The largest `usize` of a 64-bit target. -/
def usizeMax : ℕ := 2 ^ 64 - 1

/-- `usize::checked_add`. -/
def checkedAdd (a b : ℕ) : Option ℕ := if a + b ≤ usizeMax then some (a + b) else none

/-- `-=` on a `usize`; `none` is an underflow. -/
def checkedSub (a b : ℕ) : Option ℕ := if b ≤ a then some (a - b) else none

theorem checkedSub_eq_some {a b c : ℕ} (h : checkedSub a b = some c) : a = c + b := by
  unfold checkedSub at h
  split at h <;> cases h
  omega

end OhosFfrt.Basic
