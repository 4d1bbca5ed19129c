import OhosFfrt.Lib.Runs

/-!
# What has happened since

`Since P Q tr` says that some event `P` has happened in the trace and no event `Q` after it.  A
fact that every `P` establishes and only a `Q` can destroy holds as long as `Since P Q` does
(`Run.since`).  `Bars P Q tr` says that after a `P` there never was a `Q`.  `Each P tr` says that
every event was right, by `P`, at the time it happened.
-/

namespace OhosFfrt.Lib.Runs

open List

variable {σ ι ε : Type*} {P Q : ε → Prop} {tr es : List ε} {step : σ → ι → Option (σ × List ε)}
  {C : List ε → σ → ι → Prop} {K : σ → Prop} {s₀ s : σ} {x : ε}

theorem split_append {l r : List ε} (h : tr ++ es = l ++ x :: r) :
    (∃ m, tr = l ++ x :: m ∧ r = m ++ es) ∨ ∃ m, l = tr ++ m ∧ es = m ++ x :: r := by
  rcases append_eq_append_iff.mp h with ⟨m, hl, hes⟩ | ⟨m, htr, hr⟩
  · exact .inr ⟨m, hl, hes⟩
  · rcases m with _ | ⟨y, m⟩
    · rw [append_nil] at htr
      rw [nil_append] at hr
      exact .inr ⟨[], by rw [htr, append_nil], hr.symm⟩
    · rw [cons_append, List.cons.injEq] at hr
      obtain ⟨rfl, rfl⟩ := hr
      exact .inl ⟨m, htr, rfl⟩

/-- **An event `P` has happened, and no `Q` since.** -/
def Since (P Q : ε → Prop) (tr : List ε) : Prop :=
  ∃ l x r, tr = l ++ x :: r ∧ P x ∧ ∀ y ∈ r, ¬ Q y

theorem since_append (h : Since P Q (tr ++ es)) :
    (∃ x ∈ es, P x) ∨ (Since P Q tr ∧ ∀ y ∈ es, ¬ Q y) := by
  obtain ⟨l, x, r, heq, hx, hr⟩ := h
  rcases split_append heq with ⟨m, htr, rfl⟩ | ⟨m, -, hes⟩
  · have hm : ∀ y ∈ m, ¬ Q y := fun y hy => hr y (mem_append_left _ hy)
    have hnew : ∀ y ∈ es, ¬ Q y := fun y hy => hr y (mem_append_right _ hy)
    exact .inr ⟨⟨l, x, m, htr, hx, hm⟩, hnew⟩
  · refine .inl ⟨x, ?_, hx⟩
    rw [hes]
    exact mem_append_right _ (mem_cons_self ..)

theorem Since.append (h : Since P Q tr) (hes : ∀ y ∈ es, ¬ Q y) : Since P Q (tr ++ es) := by
  obtain ⟨l, x, r, rfl, hx, hr⟩ := h
  refine ⟨l, x, r ++ es, by simp, hx, fun y hy => ?_⟩
  rcases mem_append.mp hy with hy | hy
  · exact hr y hy
  · exact hes y hy

theorem since_of_mem (hx : x ∈ es) (hP : P x) (hes : ∀ y ∈ es, ¬ Q y) :
    Since P Q (tr ++ es) := by
  obtain ⟨l, r, rfl⟩ := append_of_mem hx
  refine ⟨tr ++ l, x, r, by simp, hP, fun y hy => hes y ?_⟩
  exact mem_append_right _ (mem_cons_of_mem _ hy)

theorem Since.same {P' : ε → Prop} (h : Since P Q tr) (h' : Since P' Q tr) (hP : ∀ x, P x → Q x)
    (hP' : ∀ x, P' x → Q x) : ∃ x, P x ∧ P' x := by
  obtain ⟨l, x, r, rfl, hx, hr⟩ := h
  obtain ⟨l', x', r', heq, hx', hr'⟩ := h'
  rcases append_eq_append_iff.mp heq with ⟨m, rfl, hm⟩ | ⟨m, rfl, hm⟩
  · rcases m with _ | ⟨y, m⟩
    · cases hm
      exact ⟨x, hx, hx'⟩
    · cases hm
      exact absurd (hP' x' hx') (hr x' (by simp))
  · rcases m with _ | ⟨y, m⟩
    · cases hm
      exact ⟨x, hx, hx'⟩
    · cases hm
      exact absurd (hP x hx) (hr' x (by simp))

/-- **What a `P` establishes and only a `Q` destroys** holds since a `P`. -/
theorem Run.since (h : Run step C s₀ tr s)
    (hP : ∀ tr s i s' es x, C tr s i → step s i = some (s', es) → x ∈ es → P x → K s')
    (hQ : ∀ tr s i s' es, C tr s i → step s i = some (s', es) → K s → (∀ y ∈ es, ¬ Q y) → K s') :
    Since P Q tr → K s := by
  refine h.inv (I := fun tr s => Since P Q tr → K s) ?_ ?_
  · rintro ⟨l, x, r, heq, -⟩
    cases l <;> cases heq
  · intro tr s i s' es hI hC hs hsince
    rcases since_append hsince with ⟨x, hx, hxP⟩ | ⟨hold, hnot⟩
    · exact hP tr s i s' es x hC hs hx hxP
    · exact hQ tr s i s' es hC hs (hI hold) hnot

/-- **After an event `P` no event `Q` has happened.** -/
def Bars (P Q : ε → Prop) (tr : List ε) : Prop :=
  ∀ l r, tr = l ++ r → (∃ x ∈ l, P x) → ∀ y ∈ r, ¬ Q y

theorem bars_nil : Bars P Q [] := by
  intro l r h _ y hy
  rw [(append_eq_nil_iff.mp h.symm).2] at hy
  cases hy

theorem Bars.append (h : Bars P Q tr) (hes : (∃ x ∈ tr ++ es, P x) → ∀ y ∈ es, ¬ Q y) :
    Bars P Q (tr ++ es) := by
  rintro l r heq ⟨x, hx, hxP⟩ y hy
  have hsome : ∃ x ∈ tr ++ es, P x := ⟨x, by rw [heq]; exact mem_append_left _ hx, hxP⟩
  rcases append_eq_append_iff.mp heq with ⟨m, -, rfl⟩ | ⟨m, rfl, rfl⟩
  · exact hes hsome y (mem_append_right _ hy)
  · rcases mem_append.mp hy with hy | hy
    · exact h l m rfl ⟨x, hx, hxP⟩ y hy
    · exact hes hsome y hy

/-- **What a `P` establishes for ever, and what rules out a `Q`.** -/
theorem Run.bars (h : Run step C s₀ tr s)
    (hP : ∀ tr s i s' es x, C tr s i → step s i = some (s', es) → x ∈ es → P x →
      K s' ∧ ∀ y ∈ es, ¬ Q y)
    (hK : ∀ tr s i s' es, C tr s i → step s i = some (s', es) → (∃ x ∈ tr, P x) → K s →
      K s' ∧ ∀ y ∈ es, ¬ Q y) :
    ((∃ x ∈ tr, P x) → K s) ∧ Bars P Q tr := by
  refine h.inv (I := fun tr s => ((∃ x ∈ tr, P x) → K s) ∧ Bars P Q tr) ⟨?_, bars_nil⟩ ?_
  · rintro ⟨x, hx, -⟩
    cases hx
  · rintro tr s i s' es ⟨hkeep, hbars⟩ hC hs
    have hnow : (∃ x ∈ tr ++ es, P x) → K s' ∧ ∀ y ∈ es, ¬ Q y := by
      rintro ⟨x, hx, hxP⟩
      rcases mem_append.mp hx with hx | hx
      · exact hK tr s i s' es hC hs ⟨x, hx, hxP⟩ (hkeep ⟨x, hx, hxP⟩)
      · exact hP tr s i s' es x hC hs hx hxP
    exact ⟨fun hx => (hnow hx).1, hbars.append fun hx => (hnow hx).2⟩

/-- **What begins after**: once a `P` has happened `K` holds, a `Q` that happens while `K` holds
establishes `L`, and `L` is kept. -/
theorem Run.after {L : σ → Prop} (h : Run step C s₀ tr s)
    (hK : ∀ tr s, Run step C s₀ tr s → (∃ x ∈ tr, P x) → K s)
    (hQ : ∀ tr s i s' es, C tr s i → step s i = some (s', es) → K s → (∃ y ∈ es, Q y) → L s')
    (hL : ∀ tr s i s' es, C tr s i → step s i = some (s', es) → K s → L s → L s')
    (hes : ∀ tr s i s' es, C tr s i → step s i = some (s', es) → (∃ x ∈ es, P x) →
      ∀ y ∈ es, ¬ Q y) :
    ∀ l x m, tr = l ++ x :: m → P x → (∃ y ∈ m, Q y) → L s := by
  induction h with
  | nil =>
    intro l x m heq
    cases l <;> cases heq
  | @snoc tr s i s' es h hC hs ih =>
    rintro l x m heq hx ⟨y, hy, hyQ⟩
    rcases split_append heq with ⟨m', htr, rfl⟩ | ⟨m', -, hm'⟩
    · have hKs : K s :=
        hK tr s h ⟨x, by rw [htr]; exact mem_append_right _ mem_cons_self, hx⟩
      rcases mem_append.mp hy with hy | hy
      · exact hL tr s i s' es hC hs hKs (ih l x m' htr hx ⟨y, hy, hyQ⟩)
      · exact hQ tr s i s' es hC hs hKs ⟨y, hy, hyQ⟩
    · -- a step that does both would have to do them in this order
      have hxes : x ∈ es := by
        rw [hm']
        exact mem_append_right _ mem_cons_self
      have hyes : y ∈ es := by
        rw [hm']
        exact mem_append_right _ (mem_cons_of_mem _ hy)
      exact absurd hyQ (hes tr s i s' es hC hs ⟨x, hxes, hx⟩ y hyes)

/-- **Every event was right at the time it happened**, after the events before it. -/
def Each (P : List ε → ε → Prop) (tr : List ε) : Prop := ∀ l x r, tr = l ++ x :: r → P l x

theorem each_nil {P : List ε → ε → Prop} : Each P [] := by
  intro l x r h
  cases l <;> cases h

theorem split_singleton {a : ε} {l r : List ε} (h : [a] = l ++ x :: r) : l = [] ∧ x = a := by
  rcases l with _ | ⟨y, l⟩
  · cases h
    exact ⟨rfl, rfl⟩
  · simp at h

theorem Each.append {P : List ε → ε → Prop} (h : Each P tr)
    (hes : ∀ l x r, es = l ++ x :: r → P (tr ++ l) x) : Each P (tr ++ es) := by
  intro l x r heq
  rcases split_append heq with ⟨m, htr, -⟩ | ⟨m, rfl, hm⟩
  · exact h l x m htr
  · exact hes m x r hm

end OhosFfrt.Lib.Runs
