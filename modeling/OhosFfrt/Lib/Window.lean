import Mathlib.Tactic.Common

/-!
# The last values of a sequence

`window c vs` is what a buffer of capacity `c` holds of the sequence `vs`, whose values are numbered
from `0`: the last `c` of them, or all if there are fewer (`window_snoc`, `find?_window`).
-/

namespace OhosFfrt.Lib.Window

open List

variable {α : Type*}

/-- The values with consecutive numbers from `k` on. -/
def numbered : ℕ → List α → List (ℕ × α)
  | _, [] => []
  | k, v :: vs => (k, v) :: numbered (k + 1) vs

/-- The last `c` values of a sequence, with their numbers. -/
def window (c : ℕ) (vs : List α) : List (ℕ × α) :=
  numbered (vs.length - c) (vs.drop (vs.length - c))

@[simp] theorem length_numbered : ∀ (k : ℕ) (vs : List α), (numbered k vs).length = vs.length
  | _, [] => rfl
  | k, v :: vs => by simp [numbered, length_numbered (k + 1) vs]

theorem numbered_snoc (v : α) : ∀ (k : ℕ) (vs : List α),
    numbered k (vs ++ [v]) = numbered k vs ++ [(k + vs.length, v)]
  | _, [] => rfl
  | k, u :: vs => by
    simp only [cons_append, numbered, numbered_snoc v (k + 1) vs, length_cons]
    rw [show k + 1 + vs.length = k + (vs.length + 1) by omega]

theorem drop_numbered : ∀ (j k : ℕ) (vs : List α),
    (numbered k vs).drop j = numbered (k + j) (vs.drop j)
  | 0, k, vs => by simp
  | j + 1, k, [] => rfl
  | j + 1, k, v :: vs => by
    simp only [numbered, drop_succ_cons, drop_numbered j (k + 1) vs]
    rw [show k + 1 + j = k + (j + 1) by omega]

theorem find?_numbered (p : ℕ) : ∀ (k : ℕ) (vs : List α),
    (numbered k vs).find? (fun e => p ≤ e.1) = vs[p - k]?.map fun v => (max k p, v)
  | _, [] => by simp [numbered]
  | k, v :: vs => by
    by_cases hk : p ≤ k
    · have h0 : p - k = 0 := by omega
      have hmax : max k p = k := by omega
      rw [numbered, find?_cons_of_pos (by simpa using hk), h0, hmax]
      rfl
    · obtain ⟨j, hj⟩ : ∃ j, p - k = j + 1 := ⟨p - k - 1, by omega⟩
      have hj' : p - (k + 1) = j := by omega
      have hmax : max (k + 1) p = max k p := by omega
      rw [numbered, find?_cons_of_neg (by simpa using hk), find?_numbered p (k + 1) vs, hj,
        hj', hmax, getElem?_cons_succ]

theorem window_snoc (c : ℕ) (vs : List α) (v : α) :
    (window c vs ++ [(vs.length, v)]).drop ((window c vs).length + 1 - c) =
      window c (vs ++ [v]) := by
  have hnum : window c vs ++ [(vs.length, v)] =
      numbered (vs.length - c) (vs.drop (vs.length - c) ++ [v]) := by
    rw [numbered_snoc, length_drop]
    unfold window
    rw [show vs.length - c + (vs.length - (vs.length - c)) = vs.length by omega]
  have hlen : (window c vs).length = vs.length - (vs.length - c) := by
    unfold window
    rw [length_numbered, length_drop]
  have hdrop : (vs.drop (vs.length - c) ++ [v]) = (vs ++ [v]).drop (vs.length - c) := by
    rw [drop_append_of_le_length (by omega)]
  rw [hnum, drop_numbered, hdrop, drop_drop, hlen]
  unfold window
  rw [length_append, length_singleton,
    show vs.length - c + (vs.length - (vs.length - c) + 1 - c) = vs.length + 1 - c by omega]

theorem find?_window (c : ℕ) (vs : List α) (p : ℕ) :
    (window c vs).find? (fun e => p ≤ e.1) =
      vs[max (vs.length - c) p]?.map fun v => (max (vs.length - c) p, v) := by
  unfold window
  rw [find?_numbered, getElem?_drop,
    show vs.length - c + (p - (vs.length - c)) = max (vs.length - c) p by omega]

theorem head?_window {c : ℕ} {vs : List α} (hc : 0 < c) (hvs : 0 < vs.length) :
    (window c vs).head?.map Prod.fst = some (vs.length - c) := by
  unfold window
  rcases hd : vs.drop (vs.length - c) with _ | ⟨v, us⟩
  · have hlen := congrArg List.length hd
    rw [length_drop, length_nil] at hlen
    omega
  · rfl

end OhosFfrt.Lib.Window
