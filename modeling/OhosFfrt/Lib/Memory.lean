import Mathlib.Tactic.Common

/-!
# Writing into a list

`write l o xs` is the list `l` with the elements from the offset `o` on replaced by `xs`.
-/

namespace OhosFfrt.Lib.Memory

open List

variable {α : Type*} {l xs : List α} {o k : ℕ}

/-- Memory with `xs` at `o`. -/
def write (l : List α) (o : ℕ) (xs : List α) : List α := l.take o ++ xs ++ l.drop (o + xs.length)

theorem length_write (h : o + xs.length ≤ l.length) : (write l o xs).length = l.length := by
  unfold write
  rw [length_append, length_append, length_take, length_drop]
  omega

theorem take_write (hk : k ≤ o) (h : o ≤ l.length) : (write l o xs).take k = l.take k := by
  unfold write
  rw [append_assoc, take_append_of_le_length (by rw [length_take]; omega),
    take_take, Nat.min_eq_left hk]

theorem take_write_length (xs : List α) (h : o ≤ l.length) :
    (write l o xs).take (o + xs.length) = l.take o ++ xs := by
  unfold write
  refine take_left' ?_
  rw [length_append, length_take, Nat.min_eq_left h]

theorem getElem?_write (h : o + xs.length ≤ l.length) {i : ℕ} {a : α}
    (hi : (write l o xs)[i]? = some a) :
    a ∈ xs ∨ l[i]? = some a ∧ (i < o ∨ o + xs.length ≤ i) := by
  unfold write at hi
  have htake : (l.take o).length = o := by
    rw [length_take]
    omega
  rcases Nat.lt_or_ge i o with hlt | hge
  · rw [append_assoc, getElem?_append_left (by omega),
      getElem?_take_of_lt hlt] at hi
    exact .inr ⟨hi, .inl hlt⟩
  · rcases Nat.lt_or_ge i (o + xs.length) with hlt | hge'
    · rw [append_assoc, getElem?_append_right (by omega),
        getElem?_append_left (by omega)] at hi
      exact .inl (mem_of_getElem? hi)
    · rw [getElem?_append_right (by rw [length_append]; omega),
        getElem?_drop] at hi
      have hidx : o + xs.length + (i - (l.take o ++ xs).length) = i := by
        rw [length_append]
        omega
      rw [hidx] at hi
      exact .inr ⟨hi, .inr hge'⟩

end OhosFfrt.Lib.Memory
