import Mathlib.Data.List.Basic
import Mathlib.Logic.Function.Basic

/-!
# Linearizable histories

An object is given by what a request does to its state and what it answers (`apply`).  A history
lists the calls and the answers in the order in which they happen, so that calls may overlap.
`Points` is how one shows that there is a `Linearization` of it: each call takes effect at one point
between the call and its answer (`Points.linearization`).
-/

namespace OhosFfrt.Lib.Linear

open List

/-- A call, or its return. -/
inductive Act (ρ α : Type*)
  | call (c : ℕ) (r : ρ)
  | ret (c : ℕ) (x : α)
  deriving DecidableEq, Repr

/-- A call with its request and its answer. -/
structure Entry (ρ α : Type*) where
  call : ℕ
  request : ρ
  answer : α
  deriving DecidableEq, Repr

variable {σ ρ α : Type*}

/-- **The object answers like this** when the calls are made one after another. -/
def Legal (apply : σ → ρ → σ × α) : σ → List (Entry ρ α) → σ → Prop
  | s, [], s' => s = s'
  | s, e :: l, s' => (apply s e.request).2 = e.answer ∧ Legal apply (apply s e.request).1 l s'

variable {apply : σ → ρ → σ × α} {s₀ s s' : σ} {h : List (Act ρ α)} {l l' : List (Entry ρ α)}
  {c : ℕ} {r : ρ} {x : α}

theorem legal_append :
    Legal apply s (l ++ l') s' ↔ ∃ m, Legal apply s l m ∧ Legal apply m l' s' := by
  induction l generalizing s with
  | nil =>
    constructor
    · intro h
      exact ⟨s, rfl, h⟩
    · rintro ⟨m, rfl, h⟩
      exact h
  | cons e l ih =>
    simp only [cons_append, Legal, ih]
    constructor
    · rintro ⟨hx, m, h1, h2⟩
      exact ⟨m, ⟨hx, h1⟩, h2⟩
    · rintro ⟨m, ⟨hx, h1⟩, h2⟩
      exact ⟨hx, m, h1, h2⟩

/-- **A linearization of a history.** -/
structure Linearization (apply : σ → ρ → σ × α) (s₀ : σ) (h : List (Act ρ α))
    (l : List (Entry ρ α)) : Prop where
  legal : ∃ s, Legal apply s₀ l s
  once : (l.map Entry.call).Nodup
  called : ∀ e ∈ l, .call e.call e.request ∈ h
  answered : ∀ c x, .ret c x ∈ h → ∃ r, ⟨c, r, x⟩ ∈ l
  order : ∀ h₁ h₂, h = h₁ ++ h₂ → ∀ c x, .ret c x ∈ h₁ → ∀ e ∈ l, .call e.call e.request ∈ h₂ →
    ∃ l₁ l₂, l = l₁ ++ l₂ ∧ c ∈ l₁.map Entry.call ∧ e ∈ l₂

/-! ## Linearization points -/

/-- How far a call has come. -/
inductive Phase (ρ α : Type*)
  | idle
  | called (r : ρ)
  | done (x : α)
  | answered
  deriving DecidableEq, Repr

/-- **A history in which every call takes effect at one point**, in the order of `l`. -/
inductive Points (apply : σ → ρ → σ × α) (s₀ : σ) :
    List (Act ρ α) → List (Entry ρ α) → σ → (ℕ → Phase ρ α) → Prop
  | nil : Points apply s₀ [] [] s₀ fun _ => .idle
  | call {h : List (Act ρ α)} {l : List (Entry ρ α)} {s : σ} {ph : ℕ → Phase ρ α} {c : ℕ} (r : ρ)
      (hp : Points apply s₀ h l s ph) (hc : ph c = .idle) :
      Points apply s₀ (h ++ [.call c r]) l s (Function.update ph c (.called r))
  | point {h : List (Act ρ α)} {l : List (Entry ρ α)} {s : σ} {ph : ℕ → Phase ρ α} {c : ℕ} {r : ρ}
      (hp : Points apply s₀ h l s ph) (hc : ph c = .called r) :
      Points apply s₀ h (l ++ [⟨c, r, (apply s r).2⟩]) (apply s r).1
        (Function.update ph c (.done (apply s r).2))
  | ret {h : List (Act ρ α)} {l : List (Entry ρ α)} {s : σ} {ph : ℕ → Phase ρ α} {c : ℕ} {x : α}
      (hp : Points apply s₀ h l s ph) (hc : ph c = .done x) :
      Points apply s₀ (h ++ [.ret c x]) l s (Function.update ph c .answered)

variable {ph : ℕ → Phase ρ α}

/-- What is in the history and in the order of a call that has come so far. -/
def Phase.Fits (h : List (Act ρ α)) (l : List (Entry ρ α)) (c : ℕ) : Phase ρ α → Prop
  | .idle => (∀ r, .call c r ∉ h) ∧ c ∉ l.map Entry.call
  | .called r => .call c r ∈ h ∧ c ∉ l.map Entry.call
  | .done x => ∃ r, ⟨c, r, x⟩ ∈ l
  | .answered => True

theorem Points.fits (hp : Points apply s₀ h l s ph) (c : ℕ) : (ph c).Fits h l c := by
  induction hp with
  | nil => exact ⟨fun r hr => (nomatch hr), fun hc => (nomatch hc)⟩
  | @call h l s ph d r hp hd ih =>
    by_cases hcd : c = d
    · subst hcd
      rw [hd] at ih
      rw [Function.update_self]
      exact ⟨mem_append_right _ (mem_singleton_self _), ih.2⟩
    · rw [Function.update_of_ne hcd]
      rcases hph : ph c with _ | r' | x | _ <;> rw [hph] at ih
      · refine ⟨fun r' hr' => ?_, ih.2⟩
        rcases mem_append.mp hr' with hr' | hr'
        · exact ih.1 r' hr'
        · rw [mem_singleton, Act.call.injEq] at hr'
          exact hcd hr'.1
      · exact ⟨mem_append_left _ ih.1, ih.2⟩
      · exact ih
      · trivial
  | @point h l s ph d r hp hd ih =>
    by_cases hcd : c = d
    · subst hcd
      rw [Function.update_self]
      exact ⟨r, mem_append_right _ (mem_singleton_self _)⟩
    · have hnot : ∀ {l : List (Entry ρ α)} {e : Entry ρ α}, e.call = d → c ∉ l.map Entry.call →
          c ∉ (l ++ [e]).map Entry.call := by
        intro l e he hl hmem
        rw [map_append, mem_append] at hmem
        rcases hmem with hmem | hmem
        · exact hl hmem
        · rw [map_singleton, mem_singleton, he] at hmem
          exact hcd hmem
      rw [Function.update_of_ne hcd]
      rcases hph : ph c with _ | r' | x | _ <;> rw [hph] at ih
      · exact ⟨ih.1, hnot rfl ih.2⟩
      · exact ⟨ih.1, hnot rfl ih.2⟩
      · obtain ⟨r', hr'⟩ := ih
        exact ⟨r', mem_append_left _ hr'⟩
      · trivial
  | @ret h l s ph d x hp hd ih =>
    by_cases hcd : c = d
    · subst hcd
      rw [Function.update_self]
      trivial
    · rw [Function.update_of_ne hcd]
      rcases hph : ph c with _ | r' | x' | _ <;> rw [hph] at ih
      · refine ⟨fun r' hr' => ?_, ih.2⟩
        exact ih.1 r' ((mem_append.mp hr').resolve_right (by simp))
      · exact ⟨mem_append_left _ ih.1, ih.2⟩
      · exact ih
      · trivial

theorem Points.legal (hp : Points apply s₀ h l s ph) : Legal apply s₀ l s := by
  induction hp with
  | nil => rfl
  | call r hp hc ih | ret hp hc ih => exact ih
  | @point h l s ph c r hp hc ih => exact legal_append.mpr ⟨s, ih, rfl, rfl⟩

theorem Points.once (hp : Points apply s₀ h l s ph) : (l.map Entry.call).Nodup := by
  induction hp with
  | nil => exact List.Pairwise.nil
  | call r hp hc ih | ret hp hc ih => exact ih
  | @point h l s ph c r hp hc ih =>
    have hfits := hp.fits c
    rw [hc] at hfits
    rw [map_append]
    refine nodup_append.mpr ⟨ih, pairwise_singleton _ _, fun a ha b hb => ?_⟩
    rw [map_singleton, mem_singleton] at hb
    intro hab
    rw [hab, hb] at ha
    exact hfits.2 ha

theorem Points.called (hp : Points apply s₀ h l s ph) : ∀ e ∈ l, .call e.call e.request ∈ h := by
  induction hp with
  | nil => exact fun e he => (nomatch he)
  | call r hp hc ih | ret hp hc ih => exact fun e he => mem_append_left _ (ih e he)
  | @point h l s ph c r hp hc ih =>
    intro e he
    have hfits := hp.fits c
    rw [hc] at hfits
    rcases mem_append.mp he with he | he
    · exact ih e he
    · rw [mem_singleton] at he
      subst he
      exact hfits.1

theorem Points.answered (hp : Points apply s₀ h l s ph) :
    ∀ c x, .ret c x ∈ h → ∃ r, ⟨c, r, x⟩ ∈ l := by
  induction hp with
  | nil => exact fun c x hx => (nomatch hx)
  | call r hp hc ih =>
    intro c x hx
    exact ih c x ((mem_append.mp hx).resolve_right (by simp))
  | point hp hc ih =>
    intro c x hx
    obtain ⟨r, hr⟩ := ih c x hx
    exact ⟨r, mem_append_left _ hr⟩
  | ret hp hd ih =>
    intro c x hx
    rcases mem_append.mp hx with hx | hx
    · exact ih c x hx
    · rw [mem_singleton, Act.ret.injEq] at hx
      obtain ⟨rfl, rfl⟩ := hx
      have hfits := hp.fits c
      rw [hd] at hfits
      exact hfits

/-- **A call that was made after another was answered** takes effect after it. -/
theorem Points.order (hp : Points apply s₀ h l s ph) : ∀ h₁ h₂, h = h₁ ++ h₂ →
    ∀ c x, .ret c x ∈ h₁ → ∀ e ∈ l, .call e.call e.request ∈ h₂ →
    ∃ l₁ l₂, l = l₁ ++ l₂ ∧ c ∈ l₁.map Entry.call ∧ e ∈ l₂ := by
  induction hp with
  | nil => exact fun _ _ _ _ _ _ e he => (nomatch he)
  | @call h l s ph d r hp hd ih =>
    intro h₁ h₂ heq c x hx e he hcall
    have hfits := hp.fits d
    rw [hd] at hfits
    -- the new call is not in the order yet
    have hne : e.call ≠ d := by
      rintro rfl
      exact hfits.2 (mem_map_of_mem he)
    rcases append_eq_append_iff.mp heq with ⟨m, rfl, hm⟩ | ⟨m, rfl, rfl⟩
    · have hin : Act.call e.call e.request ∈ [(.call d r : Act ρ α)] := by
        rw [hm]
        exact mem_append_right _ hcall
      rw [mem_singleton, Act.call.injEq] at hin
      exact absurd hin.1 hne
    · rcases mem_append.mp hcall with hcall | hcall
      · exact ih h₁ m rfl c x hx e he hcall
      · rw [mem_singleton, Act.call.injEq] at hcall
        exact absurd hcall.1 hne
  | @point h l s ph d r hp hd ih =>
    intro h₁ h₂ heq c x hx e he hcall
    rcases mem_append.mp he with he | he
    · obtain ⟨l₁, l₂, rfl, hc, hmem⟩ := ih h₁ h₂ heq c x hx e he hcall
      exact ⟨l₁, _, append_assoc .., hc, mem_append_left _ hmem⟩
    · have hbefore : .ret c x ∈ h := by
        rw [heq]
        exact mem_append_left _ hx
      obtain ⟨r', hr'⟩ := hp.answered c x hbefore
      exact ⟨l, _, rfl, mem_map_of_mem hr', he⟩
  | @ret h l s ph d y hp hd ih =>
    intro h₁ h₂ heq c x hx e he hcall
    rcases append_eq_append_iff.mp heq with ⟨m, rfl, hm⟩ | ⟨m, rfl, rfl⟩
    · have hin : Act.call e.call e.request ∈ [(.ret d y : Act ρ α)] := by
        rw [hm]
        exact mem_append_right _ hcall
      simp at hin
    · exact ih h₁ m rfl c x hx e he ((mem_append.mp hcall).resolve_right (by simp))

theorem Points.linearization (hp : Points apply s₀ h l s ph) : Linearization apply s₀ h l where
  legal := ⟨s, hp.legal⟩
  once := hp.once
  called := hp.called
  answered := hp.answered
  order := hp.order

end OhosFfrt.Lib.Linear
