import OhosFfrt.Lib.Arena

/-!
# Calls that run side by side

Calls run on a shared state, each in small steps of its own, and any call may take the next step.
What a call knows of the shared state is a predicate of its place in its code (`Knows`); it is kept
if the step of another call does not interfere with it (`Knows.step`).
-/

namespace OhosFfrt.Lib.Calls

open Lib.Arena List Option

variable {σ κ : Type*}

/-- A shared state and the calls, by their numbers. -/
structure Pool (σ κ : Type*) where
  shared : σ
  calls : List κ
  deriving DecidableEq, Repr

variable {p : Pool σ κ} {K : σ → ℕ → κ → Prop} {c : ℕ} {k k' : κ} {s' : σ}

/-- A call starts. -/
def Pool.start (p : Pool σ κ) (k : κ) : Pool σ κ := { p with calls := p.calls ++ [k] }

/-- The call `c` has moved on to `k`, and the shared state to `s`. -/
def Pool.put (p : Pool σ κ) (c : ℕ) (s : σ) (k : κ) : Pool σ κ := ⟨s, p.calls.set c k⟩

/-- **Every call knows what it should.** -/
def Knows (K : σ → ℕ → κ → Prop) (p : Pool σ κ) : Prop :=
  ∀ c k, p.calls[c]? = some k → K p.shared c k

theorem knows_nil (s : σ) : Knows K ⟨s, []⟩ := by
  intro c k h
  cases h

theorem start_length : (p.start k).calls.length = p.calls.length + 1 := length_append

theorem put_length : (p.put c s' k).calls.length = p.calls.length := length_set

theorem getElem?_start {d : ℕ} : (p.start k).calls[d]? =
    if d = p.calls.length then some k else p.calls[d]? := by
  unfold Pool.start
  rcases Nat.lt_trichotomy d p.calls.length with hd | rfl | hd
  · rw [if_neg (Nat.ne_of_lt hd)]
    exact getElem?_append_left hd
  · rw [if_pos rfl]
    exact getElem?_concat_length
  · rw [if_neg (Nat.ne_of_gt hd), getElem?_eq_none (Nat.le_of_lt hd)]
    exact getElem?_eq_none (by rw [length_append, length_singleton]; omega)

theorem getElem?_put (h : p.calls[c]? = some k) {d : ℕ} : (p.put c s' k').calls[d]? =
    if d = c then some k' else p.calls[d]? := by
  unfold Pool.put
  by_cases hd : d = c
  · subst hd
    rw [if_pos rfl]
    exact get_set h
  · rw [if_neg hd]
    exact getElem?_set_ne (Ne.symm hd)

theorem Knows.start (h : Knows K p) (hk : K p.shared p.calls.length k) : Knows K (p.start k) := by
  intro d k' hd
  rw [getElem?_start] at hd
  split_ifs at hd with heq
  · rw [some.injEq] at hd
    rw [heq, ← hd]
    exact hk
  · exact h d k' hd

theorem Knows.step (h : Knows K p) (hc : p.calls[c]? = some k) (hk : K s' c k')
    (hother : ∀ d kd, d ≠ c → p.calls[d]? = some kd → K p.shared d kd → K s' d kd) :
    Knows K (p.put c s' k') := by
  intro d kd hd
  rw [getElem?_put hc] at hd
  split_ifs at hd with heq
  · rw [some.injEq] at hd
    rw [heq, ← hd]
    exact hk
  · exact hother d kd heq hd (h d kd hd)

/-- **The call `c` is there**, and `J` holds of it. -/
def Has (p : Pool σ κ) (c : ℕ) (J : κ → Prop) : Prop := ∃ k, p.calls[c]? = some k ∧ J k

variable {J : κ → Prop} {d : ℕ}

theorem has_start (hk : J k) : Has (p.start k) p.calls.length J :=
  ⟨k, by rw [getElem?_start, if_pos rfl], hk⟩

theorem has_put (hc : p.calls[c]? = some k) (hk : J k') : Has (p.put c s' k') c J :=
  ⟨k', by rw [getElem?_put hc, if_pos rfl], hk⟩

theorem Has.start (h : Has p c J) : Has (p.start k) c J := by
  obtain ⟨kc, hc, hJ⟩ := h
  refine ⟨kc, ?_, hJ⟩
  rw [getElem?_start, if_neg (Nat.ne_of_lt (lt_length hc))]
  exact hc

theorem Has.put (h : Has p c J) (hd : p.calls[d]? = some k) (hJ : c = d → J k → J k') :
    Has (p.put d s' k') c J := by
  obtain ⟨kc, hc, hJc⟩ := h
  by_cases hcd : c = d
  · subst hcd
    rw [hd] at hc
    cases hc
    exact has_put hd (hJ rfl hJc)
  · exact ⟨kc, by rw [getElem?_put hd, if_neg hcd]; exact hc, hJc⟩

theorem Has.and {J' : κ → Prop} (h : Has p c J) (h' : Has p c J') :
    Has p c fun k => J k ∧ J' k := by
  obtain ⟨k, hc, hJ⟩ := h
  obtain ⟨k', hc', hJ'⟩ := h'
  rw [hc, some.injEq] at hc'
  subst hc'
  exact ⟨k, hc, hJ, hJ'⟩

theorem eq_of_countP_le_one {q : κ → Bool} {l : List κ} (h : l.countP q ≤ 1) {i j : ℕ} {a b : κ}
    (hi : l[i]? = some a) (hj : l[j]? = some b) (ha : q a = true) (hb : q b = true) : i = j := by
  induction l generalizing i j with
  | nil => cases hi
  | cons x l ih =>
    have hnone : ∀ {m : ℕ} {y : κ}, l[m]? = some y → q y = true → 0 < l.countP q := by
      intro m y hm hy
      exact countP_pos_iff.mpr ⟨y, mem_of_getElem? hm, hy⟩
    rw [countP_cons] at h
    rcases i with _ | i <;> rcases j with _ | j
    · rfl
    · rw [getElem?_cons_zero, some.injEq] at hi
      rw [getElem?_cons_succ] at hj
      have := hnone hj hb
      rw [hi, if_pos ha] at h
      omega
    · rw [getElem?_cons_zero, some.injEq] at hj
      rw [getElem?_cons_succ] at hi
      have := hnone hi ha
      rw [hj, if_pos hb] at h
      omega
    · rw [getElem?_cons_succ] at hi hj
      rw [ih (by omega) hi hj]

end OhosFfrt.Lib.Calls
