import Mathlib.Tactic.Common

/-!
# Xor-shifts

`x ^ (x << k)` and `x ^ (x >> k)` lose nothing (`injective_xor_shiftLeft`,
`injective_xor_ushiftRight`), for `k` not `0`: the `k` lowest, or highest, bits of `x` are kept, and
each of the others can be found from one that is found already.
-/

namespace OhosFfrt.Lib.XorShift

variable {n k : ℕ}

theorem injective_xor_shiftLeft (hk : 0 < k) :
    Function.Injective fun x : BitVec n => x ^^^ (x <<< k) := by
  intro x y h
  have hbit : ∀ j, x.getLsbD j = y.getLsbD j := by
    intro j
    -- the bit `j` of the result is that of `x`, or differs from it by the bit `j - k`
    induction j using Nat.strongRecOn with
    | _ j ih =>
      have hj := congrArg (fun z => BitVec.getLsbD z j) h
      simp only [BitVec.getLsbD_xor, BitVec.getLsbD_shiftLeft] at hj
      by_cases hjk : j < k
      · simpa [hjk] using hj
      · rw [ih (j - k) (by omega)] at hj
        exact Bool.xor_left_inj.mp hj
  exact BitVec.eq_of_getLsbD_eq fun j _ => hbit j

theorem injective_xor_ushiftRight (hk : 0 < k) :
    Function.Injective fun x : BitVec n => x ^^^ (x >>> k) := by
  intro x y h
  have hbit : ∀ d j, n ≤ j + d → x.getLsbD j = y.getLsbD j := by
    intro d
    induction d with
    | zero =>
      intro j hj
      rw [BitVec.getLsbD_of_ge x j hj, BitVec.getLsbD_of_ge y j hj]
    | succ d ih =>
      intro j hj
      have hbits := congrArg (fun z => BitVec.getLsbD z j) h
      simp only [BitVec.getLsbD_xor, BitVec.getLsbD_ushiftRight] at hbits
      rw [ih (k + j) (by omega)] at hbits
      exact Bool.xor_left_inj.mp hbits
  exact BitVec.eq_of_getLsbD_eq fun j _ => hbit n j (Nat.le_add_left n j)

end OhosFfrt.Lib.XorShift
