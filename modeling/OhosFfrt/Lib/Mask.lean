import Mathlib.Tactic.Common

/-!
# Masks

A mask is a set of bits, kept as a `BitVec`.  Two masks meet if they have a bit in common, and one
is within another if it has no bit that the other does not have.
-/

namespace OhosFfrt.Lib.Mask

variable {n : ℕ} {a b c : BitVec n}

/-- The masks have a bit in common. -/
def Meets (a b : BitVec n) : Prop := a &&& b ≠ 0#n

instance (a b : BitVec n) : Decidable (Meets a b) := inferInstanceAs (Decidable (_ ≠ _))

/-- All bits of the first mask are bits of the second. -/
def Within (a b : BitVec n) : Prop := a &&& b = a

instance (a b : BitVec n) : Decidable (Within a b) := inferInstanceAs (Decidable (_ = _))

theorem meets_iff : Meets a b ↔ ∃ j, a.getLsbD j = true ∧ b.getLsbD j = true := by
  unfold Meets
  constructor
  · intro h
    by_contra hno
    refine h (BitVec.eq_of_getLsbD_eq fun j _ => ?_)
    rw [BitVec.getLsbD_and, BitVec.getLsbD_zero, Bool.and_eq_false_iff]
    by_contra hj
    simp only [not_or, Bool.not_eq_false] at hj
    exact hno ⟨j, hj⟩
  · rintro ⟨j, ha, hb⟩ h
    have hj := congrArg (fun m => m.getLsbD j) h
    simp [ha, hb] at hj

theorem within_iff : Within a b ↔ ∀ j, a.getLsbD j = true → b.getLsbD j = true := by
  unfold Within
  constructor
  · intro h j hj
    rw [← h, BitVec.getLsbD_and, Bool.and_eq_true] at hj
    exact hj.2
  · intro h
    refine BitVec.eq_of_getLsbD_eq fun j _ => ?_
    rw [BitVec.getLsbD_and]
    rcases hj : a.getLsbD j with _ | _
    · rfl
    · rw [h j hj]
      rfl

theorem meets_or : Meets a (b ||| c) ↔ Meets a b ∨ Meets a c := by
  simp only [meets_iff, BitVec.getLsbD_or, Bool.or_eq_true, and_or_left, exists_or]

theorem Meets.of_removed (h : Meets (a &&& ~~~b) c) : Meets a c := by
  obtain ⟨j, h1, h2⟩ := meets_iff.mp h
  rw [BitVec.getLsbD_and, Bool.and_eq_true] at h1
  exact meets_iff.mpr ⟨j, h1.1, h2⟩

theorem Meets.mono (h : Meets a b) (hbc : Within b c) : Meets a c := by
  obtain ⟨j, h1, h2⟩ := meets_iff.mp h
  exact meets_iff.mpr ⟨j, h1, within_iff.mp hbc j h2⟩

theorem Within.or (h : Within a b) (c : BitVec n) : Within a (b ||| c) := by
  rw [within_iff] at h ⊢
  intro j hj
  rw [BitVec.getLsbD_or, h j hj, Bool.true_or]

theorem Within.or_left (ha : Within a c) (hb : Within b c) : Within (a ||| b) c := by
  rw [within_iff] at ha hb ⊢
  intro j hj
  rw [BitVec.getLsbD_or, Bool.or_eq_true] at hj
  exact hj.elim (ha j) (hb j)

theorem Within.removed (h : Within a b) (hc : ¬ Meets c a) : Within a (b &&& ~~~c) := by
  rw [within_iff] at h ⊢
  intro j hj
  have hcj : c.getLsbD j = false := by
    by_contra hcj
    exact hc (meets_iff.mpr ⟨j, Bool.not_eq_false _ ▸ hcj, hj⟩)
  have hlt : j < n := BitVec.lt_of_getLsbD hj
  rw [BitVec.getLsbD_and, BitVec.getLsbD_not, h j hj, hcj]
  simp [hlt]

end OhosFfrt.Lib.Mask
