import Mathlib.Algebra.Order.BigOperators.Group.List
import Mathlib.Algebra.Order.Group.Nat
import Mathlib.Logic.Function.Basic
import Mathlib.Algebra.GroupWithZero.Nat

/-!
# Arenas

The objects of a component live in a list that only grows: a new object gets the next index, an
object that is gone leaves its place behind, and indices are never used twice.  `total f` sums a
weight over the objects; `total_set` and `countP_set` are how replacing one object changes it and
the number of those of a sort.  `known g` is what `g` says of the object at each index.

A plain vector may also give up an object and put the last one in its place (`swapRemove`).
-/

namespace OhosFfrt.Lib.Arena

open List Option

variable {α β : Type*} {f : α → ℕ} {l : List α} {i : ℕ} {a b : α}

/-- The sum of `f` over the list. -/
def total (f : α → ℕ) (l : List α) : ℕ := (l.map f).sum

@[simp] theorem total_nil : total f [] = 0 := rfl

@[simp] theorem total_cons : total f (a :: l) = f a + total f l := by simp [total]

@[simp] theorem total_append (l' : List α) : total f (l ++ l') = total f l + total f l' := by
  simp [total]

theorem total_eq_zero (h : ∀ a ∈ l, f a = 0) : total f l = 0 := by
  refine sum_eq_zero fun n hn => ?_
  obtain ⟨a, ha, rfl⟩ := mem_map.mp hn
  exact h a ha

theorem total_set : ∀ {l : List α} {i : ℕ}, l[i]? = some a →
    total f (l.set i b) + f a = total f l + f b
  | [], i, h => by simp at h
  | x :: l, 0, h => by
    simp only [getElem?_cons_zero, some.injEq] at h
    subst h
    simp only [set_cons_zero, total_cons]
    omega
  | x :: l, i + 1, h => by
    have := total_set (l := l) (i := i) (by simpa using h)
    simp only [set_cons_succ, total_cons]
    omega

theorem lt_length (h : l[i]? = some a) : i < l.length := (List.getElem?_eq_some_iff.mp h).1

theorem get_set (h : l[i]? = some a) : (l.set i b)[i]? = some b := getElem?_set_self (lt_length h)

theorem get_append (h : l[i]? = some a) (l' : List α) : (l ++ l')[i]? = some a := by
  rw [getElem?_append_left (lt_length h), h]

theorem le_total (h : l[i]? = some a) : f a ≤ total f l := by
  obtain ⟨hi, rfl⟩ := List.getElem?_eq_some_iff.mp h
  exact single_le_sum (by simp) _ (mem_map_of_mem (getElem_mem hi))

theorem mem_set_of_ne (h : l[i]? = some a) {x : α} (hx : x ∈ l) (hne : x ≠ a) : x ∈ l.set i b := by
  obtain ⟨j, hj⟩ := mem_iff_getElem?.mp hx
  have hij : i ≠ j := by
    rintro rfl
    rw [h, some.injEq] at hj
    exact hne hj.symm
  refine mem_iff_getElem?.mpr ⟨j, ?_⟩
  rw [getElem?_set_ne hij]
  exact hj

theorem exists_set {P : α → Prop} (hx : ∃ x ∈ l, P x) (h : l[i]? = some a) (b : α) :
    (∃ x ∈ l.set i b, P x) ∨ P a := by
  obtain ⟨x, hx, hP⟩ := hx
  rcases eq_or_ne x a with rfl | hne
  · exact .inr hP
  · exact .inl ⟨x, mem_set_of_ne h hx hne, hP⟩

theorem of_set {j : ℕ} {c : α} (h : l[i]? = some a) (hj : (l.set i b)[j]? = some c) :
    (j = i ∧ c = b) ∨ (j ≠ i ∧ l[j]? = some c) := by
  by_cases hji : j = i
  · subst hji
    rw [get_set h, some.injEq] at hj
    exact .inl ⟨rfl, hj.symm⟩
  · rw [getElem?_set_ne (Ne.symm hji)] at hj
    exact .inr ⟨hji, hj⟩

theorem of_snoc {j : ℕ} {c : α} (hj : (l ++ [a])[j]? = some c) :
    l[j]? = some c ∨ j = l.length ∧ c = a := by
  by_cases hlt : j < l.length
  · rw [getElem?_append_left hlt] at hj
    exact .inl hj
  · rw [getElem?_append_right (Nat.le_of_not_lt hlt)] at hj
    rcases hd : j - l.length with _ | n <;> rw [hd] at hj
    · exact .inr ⟨by omega, (some.inj hj).symm⟩
    · cases hj

theorem mem_set_self (h : l[i]? = some a) : b ∈ l.set i b := by
  have hi := lt_length h
  exact mem_of_getElem? (getElem?_set_self hi)

theorem countP_set {p : α → Bool} (h : l[i]? = some a) :
    (l.set i b).countP p + (p a).toNat = l.countP p + (p b).toNat := by
  obtain ⟨hi, rfl⟩ := List.getElem?_eq_some_iff.mp h
  have hpos : (p l[i]).toNat ≤ l.countP p := by
    rcases hp : p l[i] with _ | _
    · exact Nat.zero_le _
    · exact countP_pos_iff.mpr ⟨_, getElem_mem hi, hp⟩
  rw [countP_set hi]
  cases hp : p l[i] <;> cases hb : p b <;> rw [hp] at hpos <;>
    simp only [Bool.toNat_false, Bool.toNat_true, Bool.false_eq_true, if_false,
      if_true] at hpos ⊢ <;>
    omega

/-! A counter `n` of the objects of a sort. -/

section counter

variable {p : α → Bool} {n m : ℕ}

theorem count_snoc (h : n = l.countP p) (ha : p a = true) : n + 1 = (l ++ [a]).countP p := by
  rw [countP_append, countP_singleton, if_pos ha, h]

theorem count_same (h : n = l.countP p) (hi : l[i]? = some a) (hb : p b = p a) :
    n = (l.set i b).countP p := by
  have hc := countP_set (p := p) (b := b) hi
  rw [hb] at hc
  exact h.trans (Nat.add_right_cancel hc).symm

theorem count_gone (h : m = l.countP p) (hi : l[i]? = some a) (ha : p a = true) (hb : p b = false)
    (hm : m = n + 1) : n = (l.set i b).countP p := by
  have hc := countP_set (p := p) (b := b) hi
  rw [ha, hb, Bool.toNat_true, Bool.toNat_false] at hc
  omega

end counter

theorem perm_set {g : α → Option β} (h : l[i]? = some a) :
    ((l.set i b).filterMap g ++ (g a).toList).Perm (l.filterMap g ++ (g b).toList) := by
  obtain ⟨hi, rfl⟩ := List.getElem?_eq_some_iff.mp h
  have hl : l = l.take i ++ l[i] :: l.drop (i + 1) := by
    rw [getElem_cons_drop, take_append_drop]
  have hcons : ∀ x : α, ∀ l' : List α, (x :: l').filterMap g = (g x).toList ++ l'.filterMap g := by
    intro x l'
    rcases hx : g x with _ | y <;> simp [hx]
  have hset : l.set i b = l.take i ++ b :: l.drop (i + 1) := by
    rw [set_eq_take_append_cons_drop, if_pos hi]
  rw [hset]
  conv_rhs => rw [hl]
  simp only [filterMap_append, hcons, append_assoc]
  refine List.Perm.append_left _ ?_
  calc (g b).toList ++ ((l.drop (i + 1)).filterMap g ++ (g l[i]).toList)
    _ = (g b).toList ++ (l.drop (i + 1)).filterMap g ++ (g l[i]).toList := by rw [append_assoc]
    List.Perm _ ((g l[i]).toList ++ ((g b).toList ++ (l.drop (i + 1)).filterMap g)) :=
      perm_append_comm
    List.Perm _ ((g l[i]).toList ++ ((l.drop (i + 1)).filterMap g ++ (g b).toList)) :=
      perm_append_comm.append_left _

/-! ## What is known of the objects -/

/-- What `g` says of the object at each index, if there is one. -/
def known (g : α → Option β) (l : List α) (i : ℕ) : Option β := l[i]?.bind g

variable {g : α → Option β}

theorem known_of (h : l[i]? = some a) : known g l i = g a := by simp [known, h]

theorem known_set (h : l[i]? = some a) :
    known g (l.set i b) = Function.update (known g l) i (g b) := by
  funext j
  unfold known
  by_cases hj : j = i
  · subst hj
    rw [Function.update_self, get_set h]
    rfl
  · rw [Function.update_of_ne hj, getElem?_set_ne (Ne.symm hj)]

theorem known_snoc (hg : g a = none) : known g (l ++ [a]) = known g l := by
  funext j
  unfold known
  rcases Nat.lt_trichotomy j l.length with hj | rfl | hj
  · rw [getElem?_append_left hj]
  · simp [hg]
  · rw [getElem?_eq_none (by simp; omega), getElem?_eq_none (by omega)]

/-! ## Removing an object -/

/-- The object at a place is removed, and the last one put there. -/
def swapRemove (l : List α) (p : ℕ) : List α :=
  match l.getLast? with
  | some x => (l.set p x).dropLast
  | none => []

theorem perm_swapRemove {p : ℕ} (h : l[p]? = some a) : l.Perm (a :: swapRemove l p) := by
  rcases eq_nil_or_concat l with rfl | ⟨init, x, rfl⟩
  · simp at h
  rw [concat_eq_append] at h ⊢
  have hlast : swapRemove (init ++ [x]) p = ((init ++ [x]).set p x).dropLast := by
    simp [swapRemove]
  rw [hlast]
  rcases of_snoc h with h | ⟨rfl, rfl⟩
  · have hp : p < init.length := lt_length h
    rw [set_append_left _ _ hp, dropLast_concat]
    have hperm := perm_set (g := some) (b := x) h
    simp only [filterMap_some, toList_some] at hperm
    exact hperm.symm.trans (perm_append_singleton a _)
  · rw [set_append_right _ _ (Nat.le_refl _), Nat.sub_self]
    simp only [set_cons_zero, dropLast_concat]
    exact perm_append_singleton a init

end OhosFfrt.Lib.Arena
