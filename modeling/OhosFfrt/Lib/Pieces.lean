import Mathlib.Tactic.Common

/-!
# A list cut after each delimiter

The pieces are found one after the other: `firstPiece` is the first, and `afterPiece` what follows
it (`pieces_eq`).  `repeated` makes calls one after the other, and calls that each give the first
piece of what is left give the pieces (`repeated_pieces`).
-/

namespace OhosFfrt.Lib.Pieces

open List Option

variable {α : Type*} [DecidableEq α] {d : α}

/-- The list up to the first delimiter, and with it. -/
def firstPiece (d : α) : List α → List α
  | [] => []
  | a :: l => if a = d then [a] else a :: firstPiece d l

/-- The list after the first delimiter. -/
def afterPiece (d : α) : List α → List α
  | [] => []
  | a :: l => if a = d then l else afterPiece d l

/-- **The list, cut after each delimiter.** -/
def pieces (d : α) : List α → List (List α)
  | [] => []
  | a :: l =>
    if a = d then [a] :: pieces d l
    else
      match pieces d l with
      | [] => [[a]]
      | p :: ps => (a :: p) :: ps

/-! ### What pieces are -/

theorem firstPiece_append_afterPiece (d : α) : ∀ l : List α, firstPiece d l ++ afterPiece d l = l
  | [] => rfl
  | a :: l => by
    unfold firstPiece afterPiece
    split_ifs
    · rfl
    · rw [cons_append, firstPiece_append_afterPiece d l]

theorem firstPiece_ne_nil (d : α) : ∀ {l : List α}, l ≠ [] → firstPiece d l ≠ []
  | [], h => absurd rfl h
  | a :: l, _ => by
    unfold firstPiece
    split_ifs <;> simp

/-- **The first piece, and the pieces of what follows it.** -/
theorem pieces_eq (d : α) : ∀ {l : List α}, l ≠ [] →
    pieces d l = firstPiece d l :: pieces d (afterPiece d l)
  | [], h => absurd rfl h
  | a :: l, _ => by
    rw [pieces, firstPiece, afterPiece]
    split_ifs with ha
    · rfl
    · by_cases hl : l = []
      · subst hl
        rfl
      · rw [pieces_eq d hl]

theorem flatten_pieces (d : α) : ∀ l : List α, (pieces d l).flatten = l
  | [] => rfl
  | a :: l => by
    have ih := flatten_pieces d l
    unfold pieces
    split_ifs
    · rw [flatten_cons, ih]
      rfl
    · split
      · next hp =>
        rw [hp] at ih
        rw [← ih]
        rfl
      · next p ps hp =>
        rw [hp] at ih
        rw [← ih]
        rfl

theorem head?_pieces (d : α) {l : List α} (h : l ≠ []) :
    (pieces d l).head? = some (firstPiece d l) := by
  rw [pieces_eq d h, head?_cons]

theorem getD_head?_pieces (d : α) (l : List α) : (pieces d l).head?.getD [] = firstPiece d l := by
  by_cases h : l = []
  · subst h
    rfl
  · rw [head?_pieces d h, getD_some]

theorem pieces_afterPiece (d : α) (l : List α) : pieces d (afterPiece d l) = (pieces d l).tail := by
  by_cases h : l = []
  · subst h
    rfl
  · rw [pieces_eq d h, tail_cons]

theorem pieces_drop (d : α) (l : List α) : ∀ k : ℕ,
    pieces d ((pieces d l).drop k).flatten = (pieces d l).drop k := by
  intro k
  induction k with
  | zero => rw [drop_zero, flatten_pieces]
  | succ k ih =>
    have hnext : (pieces d l).drop (k + 1) =
        pieces d (afterPiece d ((pieces d l).drop k).flatten) := by
      rw [pieces_afterPiece, ih, tail_drop]
    rw [hnext, flatten_pieces]

theorem afterPiece_drop (d : α) (l : List α) (k : ℕ) :
    afterPiece d ((pieces d l).drop k).flatten = ((pieces d l).drop (k + 1)).flatten := by
  rw [← flatten_pieces d (afterPiece d _), pieces_afterPiece, pieces_drop, tail_drop]

/-! ### Pieces of lists that are put together -/

theorem firstPiece_append_of_mem (l' : List α) : ∀ {l : List α}, d ∈ l →
    firstPiece d (l ++ l') = firstPiece d l ∧ afterPiece d (l ++ l') = afterPiece d l ++ l'
  | [], h => absurd h not_mem_nil
  | a :: l, h => by
    simp only [cons_append, firstPiece, afterPiece]
    split_ifs with ha
    · exact ⟨rfl, rfl⟩
    · have hl : d ∈ l := (mem_cons.mp h).resolve_left (Ne.symm ha)
      obtain ⟨hfirst, hafter⟩ := firstPiece_append_of_mem l' hl
      exact ⟨by rw [hfirst], hafter⟩

theorem firstPiece_append_of_notMem (l' : List α) : ∀ {l : List α}, d ∉ l →
    firstPiece d (l ++ l') = l ++ firstPiece d l' ∧ afterPiece d (l ++ l') = afterPiece d l'
  | [], _ => ⟨rfl, rfl⟩
  | a :: l, h => by
    rw [mem_cons, not_or] at h
    obtain ⟨hfirst, hafter⟩ := firstPiece_append_of_notMem l' h.2
    simp only [cons_append, firstPiece, afterPiece]
    rw [if_neg (Ne.symm h.1), if_neg (Ne.symm h.1), hfirst]
    exact ⟨rfl, hafter⟩

theorem firstPiece_of_notMem {l : List α} (h : d ∉ l) :
    firstPiece d l = l ∧ afterPiece d l = [] := by
  have happend := firstPiece_append_of_notMem [] h
  rwa [append_nil, firstPiece, afterPiece, append_nil] at happend

/-! ### Calls one after the other -/

section repeated
variable {σ ι β : Type*}

/-- The results of calls that are made one after the other. -/
def repeated (call : ι → σ → Option (β × σ)) : List ι → σ → Option (List β × σ)
  | [], s => some ([], s)
  | i :: is, s =>
    (call i s).bind fun r => (repeated call is r.2).map fun rs => (r.1 :: rs.1, rs.2)

/-- **Calls that each do what is next** do it all, if they have enough fuel.  In a state with
`P is s` the calls `is` are still to be made. -/
theorem repeated_calls (call : ℕ → ι → σ → Option (β × σ)) (out : ι → β)
    {P : List ι → σ → Prop} (hcall : ∀ i is s, P (i :: is) s → ∃ N s', P is s' ∧
      ∀ n, N ≤ n → call n i s = some (out i, s')) (is : List ι) : ∀ {s : σ}, P is s →
    ∃ N s', P [] s' ∧ ∀ n, N ≤ n → repeated (call n) is s = some (is.map out, s') := by
  induction is with
  | nil => exact fun h => ⟨0, _, h, fun _ _ => rfl⟩
  | cons i is ih =>
    intro s h
    obtain ⟨N₁, s₁, h₁, hs₁⟩ := hcall i is s h
    obtain ⟨N₂, s₂, h₂, hs₂⟩ := ih h₁
    refine ⟨max N₁ N₂, s₂, h₂, fun n hn => ?_⟩
    rw [repeated, hs₁ n (by omega), bind_some, hs₂ n (by omega)]
    rfl

/-- **Calls that give the first piece of what is left give the pieces**, each its own, and when
there are no more, none, if they have enough fuel.  In a state with `P l` the list `l` is left. -/
theorem repeated_pieces {call : ℕ → ι → σ → Option (β × σ)} {P : List α → σ → Prop}
    {out : ι → Option (List α) → β}
    (hcall : ∀ i l s, P l s → ∃ N s', P (afterPiece d l) s' ∧
      ∀ n, N ≤ n → call n i s = some (out i (pieces d l).head?, s'))
    (is : List ι) : ∀ {l : List α} {s : σ}, P l s →
    ∃ N s', P ((pieces d l).drop is.length).flatten s' ∧
      ∀ n, N ≤ n → repeated (call n) is s =
        some (is.mapIdx fun k i => out i (pieces d l)[k]?, s') := by
  induction is with
  | nil =>
    intro l s h
    refine ⟨0, s, ?_, fun _ _ => rfl⟩
    rwa [length_nil, drop_zero, flatten_pieces]
  | cons i is ih =>
    intro l s h
    obtain ⟨N₁, s₁, h₁, hs₁⟩ := hcall i l s h
    obtain ⟨N₂, s₂, h₂, hs₂⟩ := ih h₁
    rw [pieces_afterPiece] at h₂ hs₂
    refine ⟨max N₁ N₂, s₂, ?_, ?_⟩
    · rwa [length_cons, ← drop_tail]
    · intro n hn
      rw [repeated, hs₁ n (by omega), bind_some, hs₂ n (by omega), map_some,
        mapIdx_cons, head?_eq_getElem?]
      simp only [getElem?_tail]

end repeated

end OhosFfrt.Lib.Pieces
