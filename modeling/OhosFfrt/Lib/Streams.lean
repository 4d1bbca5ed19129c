import Mathlib.Data.Seq.Basic

/-!
# Parts of a stream

A stream gives an element at every offset, and `slice b o k` are the `k` of them from the offset `o`
on.  What was read ahead of an offset is such a part, and it is given out in parts again.

A stream that may end is a sequence.
-/

namespace OhosFfrt.Lib.Streams

open List Option

variable {α : Type*} {b : ℕ → α} {o j k : ℕ}

/-- The elements of a stream from the offset `o` on, `k` of them. -/
def slice (b : ℕ → α) (o k : ℕ) : List α := (List.range' o k).map b

@[simp] theorem length_slice : (slice b o k).length = k := by
  unfold slice
  rw [length_map, length_range']

theorem slice_append : slice b o j ++ slice b (o + j) k = slice b o (j + k) := by
  unfold slice
  rw [← map_append, range'_append_1]

theorem take_slice (h : j ≤ k) : (slice b o k).take j = slice b o j := by
  obtain ⟨i, rfl⟩ := Nat.exists_eq_add_of_le h
  rw [← slice_append, take_left' length_slice]

theorem drop_slice (h : j ≤ k) : (slice b o k).drop j = slice b (o + j) (k - j) := by
  obtain ⟨i, rfl⟩ := Nat.exists_eq_add_of_le h
  rw [← slice_append, drop_left' length_slice, Nat.add_sub_cancel_left]

theorem take_drop_eq_slice (l : List α) (d : α) (h : o + k ≤ l.length) :
    (l.drop o).take k = slice (fun i => l.getD i d) o k := by
  apply ext_getElem
  · rw [length_slice, length_take, length_drop]
    omega
  · intro i hi _
    rw [length_take] at hi
    simp only [slice, getElem_take, getElem_drop, getElem_map, getElem_range',
      Nat.one_mul]
    rw [getD_eq_getElem?_getD, getElem?_eq_getElem (by omega), getD_some]

/-! ### Streams that may end -/

open Stream' (Seq)

theorem take_ofList_append (l : List α) (s : Seq α) (n : ℕ) :
    (Seq.append (Seq.ofList l) s).take (l.length + n) = l ++ s.take n := by
  induction l with
  | nil => rw [Seq.ofList_nil, Seq.nil_append, length_nil, Nat.zero_add, nil_append]
  | cons a l ih =>
    rw [Seq.ofList_cons, Seq.cons_append, length_cons, Nat.add_right_comm,
      Seq.take_succ_cons, ih, cons_append]

end OhosFfrt.Lib.Streams
