import OhosFfrt.Lib.Runs
import Mathlib.Order.WellFounded

/-!
# Futures that are polled

A future is given by the function `next`: with the context of the poll under way, it makes its next
calls, and then the poll returns or goes on; `none` is a panic.  `drive` is the machine that starts
polls and lets them go on (`drive_inv`, `drive_step`).

A future whose `poll` is a loop is given by the function `turn`, one turn of the loop.  `loop` is
then the poll, and `complete` polls the future until it is ready (`complete_of_turn`).
-/

namespace OhosFfrt.Lib.Polling

open Lib.Runs List Option

variable {φ κ γ ρ : Type*}

/-- A future, and the context of the poll under way. -/
structure Polled (φ κ : Type*) where
  future : φ
  polling : Option κ
  deriving DecidableEq, Repr

/-- A poll begins, or goes on. -/
inductive Op (κ : Type*)
  | poll (cx : κ)
  | go
  deriving DecidableEq, Repr

inductive Ev (γ ρ : Type*)
  | call (c : γ)
  | returned (r : ρ)
  deriving DecidableEq, Repr

/-- **The machine.** -/
def drive (next : φ → κ → Option (φ × Option ρ × List γ)) (s : Polled φ κ) :
    Op κ → Option (Polled φ κ × List (Ev γ ρ))
  | .poll cx =>
    match s.polling with
    | none => some ({ s with polling := some cx }, [])
    | some _ => none
  | .go =>
    s.polling.bind fun cx =>
      (next s.future cx).map fun r =>
        (⟨r.1, if r.2.1.isSome then none else some cx⟩,
          r.2.2.map .call ++ r.2.1.toList.map .returned)

/-- The calls made. -/
def callsOf (tr : List (Ev γ ρ)) : List γ :=
  tr.filterMap fun
    | .call c => some c
    | .returned _ => none

theorem callsOf_append (tr tr' : List (Ev γ ρ)) : callsOf (tr ++ tr') = callsOf tr ++ callsOf tr' :=
  filterMap_append

variable {next : φ → κ → Option (φ × Option ρ × List γ)} {s s' : Polled φ κ} {f : φ} {op : Op κ}
  {es tr : List (Ev γ ρ)}

/-- **A step of the machine**: the start of a poll, or the next calls of the future. -/
theorem drive_step (h : drive next s op = some (s', es)) :
    s'.future = s.future ∧ es = [] ∨ ∃ cx r cs, next s.future cx = some (s'.future, r, cs) ∧
      es = cs.map .call ++ r.toList.map .returned := by
  cases op with
  | poll =>
    simp only [drive] at h
    split at h
    · cases h
      exact .inl ⟨rfl, rfl⟩
    · cases h
  | go =>
    obtain ⟨cx, -, h⟩ := bind_eq_some_iff.mp h
    obtain ⟨⟨f', r, cs⟩, hn, he⟩ := map_eq_some_iff.mp h
    cases he
    exact .inr ⟨cx, r, cs, hn, rfl⟩

section
variable {r : Option ρ} {cs : List γ}

@[simp] theorem callsOf_step :
    callsOf (cs.map Ev.call ++ r.toList.map Ev.returned) = cs := by
  have hcalls : callsOf (cs.map Ev.call : List (Ev γ ρ)) = cs := by
    unfold callsOf
    rw [filterMap_map]
    exact filterMap_some
  rw [callsOf_append, hcalls]
  cases r <;> exact append_nil cs

@[simp] theorem call_mem {c : γ} :
    Ev.call c ∈ cs.map Ev.call ++ r.toList.map Ev.returned ↔ c ∈ cs := by
  cases r <;> simp

@[simp] theorem returned_mem {x : ρ} :
    Ev.returned x ∈ cs.map Ev.call ++ r.toList.map Ev.returned ↔ r = some x := by
  cases r <;> simp [eq_comm]

end

/-- **The invariant rule** for what a future is and has called. -/
theorem drive_inv {I : List γ → φ → Prop} (h : Run (drive next) Any ⟨f, none⟩ tr s) (h0 : I [] f)
    (hn : ∀ cs f cx f' r cs', I cs f → next f cx = some (f', r, cs') → I (cs ++ cs') f') :
    I (callsOf tr) s.future := by
  refine h.inv (I := fun tr (s : Polled φ κ) => I (callsOf tr) s.future) h0 ?_
  rintro tr s op s' es hI - hs
  rw [callsOf_append]
  rcases drive_step hs with ⟨hf, rfl⟩ | ⟨cx, r, cs, hnext, rfl⟩
  · rw [hf]
    exact (append_nil (callsOf tr)).symm ▸ hI
  · rw [callsOf_step]
    exact hn _ _ _ _ _ _ hI hnext

/-! ### Futures that are driven to completion -/

section complete
variable {β ω : Type*}

/-- A `poll` that is a loop, with fuel: the turns of the loop, until one returns. -/
def loop (turn : φ → κ → Option (φ × Option ρ)) : ℕ → φ → κ → Option (ρ × φ)
  | 0, _, _ => none
  | n + 1, f, cx =>
    (turn f cx).bind fun
      | (f', none) => loop turn n f' cx
      | (f', some r) => some (r, f')

/-- A poll has returned: the future is ready, or `next` is done with it. -/
def settle (ready : ρ → Option β) (next : φ → Option (β × φ)) (r : ρ × φ) : Option (β × φ) :=
  match ready r.1 with
  | some b => some (b, r.2)
  | none => next r.2

/-- **A future is polled until it is ready**, each time with the next of the contexts. -/
def complete (poll : φ → κ → Option (ρ × φ)) (ready : ρ → Option β) :
    ℕ → (ℕ → κ) → φ → Option (β × φ)
  | 0, _, _ => none
  | n + 1, w, f =>
    (poll f (w 0)).bind (settle ready (complete poll ready n fun i => w (i + 1)))

variable {turn : φ → κ → Option (φ × Option ρ)} {poll : ℕ → φ → κ → Option (ρ × φ)}
  {ready : ρ → Option β} {I : φ → Prop} {Q : β → φ → Prop} {f' : φ} {cx : κ}

theorem loop_again (h : turn f cx = some (f', none)) (n : ℕ) :
    loop turn (n + 1) f cx = loop turn n f' cx := by
  rw [loop, h]
  rfl

theorem loop_return {r : ρ} (h : turn f cx = some (f', some r)) (n : ℕ) :
    loop turn (n + 1) f cx = some (r, f') := by
  rw [loop, h]
  rfl

theorem settle_ready {next : φ → Option (β × φ)} {r : ρ} {b : β} (h : ready r = some b) :
    settle ready next (r, f) = some (b, f) := by
  rw [settle, h]

theorem settle_pending {next : φ → Option (β × φ)} {r : ρ} (h : ready r = none) :
    settle ready next (r, f) = next f := by
  rw [settle, h]

/-- **What a poll comes to**, if it returns: a result with `Q`, or the invariant is kept. -/
theorem loop_of_turn (hturn : ∀ f cx, I f → ∃ f' r, turn f cx = some (f', r) ∧
      ((∃ b, r.bind ready = some b ∧ Q b f') ∨ r.bind ready = none ∧ I f')) :
    ∀ {n : ℕ} {f f' : φ} {r : ρ}, I f → loop turn n f cx = some (r, f') →
      (∃ b, ready r = some b ∧ Q b f') ∨ ready r = none ∧ I f' := by
  intro n
  induction n with
  | zero =>
    intro f f' r _ h
    cases h
  | succ n ih =>
    intro f f' r hf h
    obtain ⟨f₁, _ | r₁, ht, hr⟩ := hturn f cx hf
    · rw [loop_again ht] at h
      obtain ⟨b, hb, -⟩ | ⟨-, h₁⟩ := hr
      · cases hb
      · exact ih h₁ h
    · rw [loop_return ht] at h
      cases h
      exact hr

theorem complete_map {ρ' β' : Type*} (poll : φ → κ → Option (ρ × φ)) {ready' : ρ' → Option β'}
    (g : ρ × φ → ρ') (k : β × φ → β')
    (hg : ∀ r, ready' (g r) = (ready r.1).map fun b => k (b, r.2)) (n : ℕ) :
    ∀ (w : ℕ → κ) (f : φ),
      complete (fun f cx => (poll f cx).map fun r => (g r, r.2)) ready' n w f =
        (complete poll ready n w f).map fun r => (k r, r.2) := by
  induction n with
  | zero => exact fun _ _ => rfl
  | succ n ih =>
    intro w f
    rw [complete, complete]
    rcases poll f (w 0) with _ | r
    · rfl
    · simp only [map_some, bind_some, settle, hg]
      rcases ready r.1 with _ | b
      · exact ih _ _
      · rfl

variable [Preorder ω] [WellFoundedLT ω] {μ : φ → ω}

theorem settle_of_turn (hpoll : ∀ n f cx, I f → poll n f cx = loop turn n f cx)
    (hturn : ∀ f cx, I f → ∃ f' r, turn f cx = some (f', r) ∧
      ((∃ b, r.bind ready = some b ∧ Q b f') ∨ r.bind ready = none ∧ I f' ∧ μ f' < μ f))
    (x : ω) : ∀ (f : φ) (w : ℕ → κ), μ f = x → I f → ∃ N b f', Q b f' ∧
      ∀ j n k, N ≤ j → N ≤ n → N ≤ k → (loop turn j f (w 0)).bind
        (settle ready (complete (poll n) ready k fun i => w (i + 1))) = some (b, f') := by
  induction x using WellFoundedLT.induction with
  | ind x ih =>
    rintro f w rfl hf
    obtain ⟨f₁, _ | r, ht, ⟨b, hb, hQ⟩ | ⟨hb, h₁, hlt⟩⟩ := hturn f (w 0) hf
    · cases hb
    · -- the loop goes on
      obtain ⟨N, b, f', hQ, hN⟩ := ih _ hlt f₁ w rfl h₁
      refine ⟨N + 1, b, f', hQ, ?_⟩
      rintro (_ | j) n k hj hn hk
      · omega
      · rw [loop_again ht]
        exact hN j n k (by omega) (by omega) (by omega)
    · -- the future is ready
      refine ⟨1, b, f₁, hQ, ?_⟩
      rintro (_ | j) n k hj hn hk
      · omega
      · rw [bind_some] at hb
        rw [loop_return ht, bind_some, settle_ready hb]
    · -- the poll is pending, and the next begins
      obtain ⟨N, b, f', hQ, hN⟩ := ih _ hlt f₁ (fun i => w (i + 1)) rfl h₁
      refine ⟨N + 1, b, f', hQ, ?_⟩
      intro j n k hj hn hk
      obtain ⟨j, rfl⟩ : ∃ i, j = i + 1 := ⟨j - 1, by omega⟩
      obtain ⟨k, rfl⟩ : ∃ i, k = i + 1 := ⟨k - 1, by omega⟩
      rw [bind_some] at hb
      rw [loop_return ht, bind_some, settle_pending hb, complete, hpoll n f₁ _ h₁]
      exact hN n n k (by omega) (by omega) (by omega)

/-- **The rule of completion.**  If every turn of the loop returns a result, with `Q`, or keeps the
invariant and lowers the measure, then the future, polled with enough fuel, completes with `Q`. -/
theorem complete_of_turn (hpoll : ∀ n f cx, I f → poll n f cx = loop turn n f cx)
    (hturn : ∀ f cx, I f → ∃ f' r, turn f cx = some (f', r) ∧
      ((∃ b, r.bind ready = some b ∧ Q b f') ∨ r.bind ready = none ∧ I f' ∧ μ f' < μ f))
    (hf : I f) (w : ℕ → κ) :
    ∃ N b f', Q b f' ∧ ∀ n, N ≤ n → complete (poll n) ready n w f = some (b, f') := by
  obtain ⟨N, b, f', hQ, hN⟩ := settle_of_turn hpoll hturn _ f w rfl hf
  refine ⟨N + 1, b, f', hQ, ?_⟩
  intro n hn
  obtain ⟨k, rfl⟩ : ∃ i, n = i + 1 := ⟨n - 1, by omega⟩
  rw [complete, hpoll (k + 1) f _ hf]
  exact hN (k + 1) (k + 1) k (by omega) (by omega) (by omega)

end complete

end OhosFfrt.Lib.Polling
