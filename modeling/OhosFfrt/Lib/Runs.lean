import Mathlib.Data.List.Induction

/-!
# Runs of a step function

A component is given by a function `step`: in the state `s` the input `i` either cannot happen
(`none`), or it leads to a next state and emits some events.  `Run step C s₀ tr s` is a run from
`s₀` to `s` that emitted the trace `tr`, oldest event first.  The condition `C` is asked of every
step of the run; it may look at the trace so far, at the state before the step and at the input.

* `Run.inv`: what holds at the start and is kept by every step holds of every run;
* `Run.rank`, `Run.reach`: what every step, or some step, brings nearer;
* `Run.along`: the steps of a run may rely on an invariant of the run;
* `Run.project`: a part of the state runs as a machine of its own;
* `Run.simulate`: an abstract machine that follows the events of every step follows the trace;
* `run_exec`, `run_execIf`: executing a list of inputs is a run.
-/

namespace OhosFfrt.Lib.Runs

open List Option

variable {σ ι ε : Type*}

/-- **A run** from `s₀`, with its trace, every step of which meets `C`. -/
inductive Run (step : σ → ι → Option (σ × List ε)) (C : List ε → σ → ι → Prop) (s₀ : σ) :
    List ε → σ → Prop
  | nil : Run step C s₀ [] s₀
  | snoc {tr : List ε} {s : σ} {i : ι} {s' : σ} {es : List ε} (h : Run step C s₀ tr s)
      (hC : C tr s i) (hs : step s i = some (s', es)) : Run step C s₀ (tr ++ es) s'

/-- No condition. -/
def Any : List ε → σ → ι → Prop := fun _ _ _ => True

variable {step : σ → ι → Option (σ × List ε)} {C : List ε → σ → ι → Prop} {s₀ s : σ} {tr : List ε}
  {is : List ι} {I : List ε → σ → Prop} {K : σ → Prop}

/-- **The invariant rule.** -/
theorem Run.inv (h : Run step C s₀ tr s) (h0 : I [] s₀)
    (hs : ∀ tr s i s' es, I tr s → C tr s i → step s i = some (s', es) → I (tr ++ es) s') :
    I tr s := by
  induction h with
  | nil => exact h0
  | snoc _ hC hst ih => exact hs _ _ _ _ _ ih hC hst

/-- **The progress rule**: if every step from a state in `K` does a `P`, or stays in `K` and lowers
the rank by the number of its `own` events, then so does every run. -/
theorem Run.rank {P : ε → Prop} {own : ε → Bool} {m : σ → ℕ} (h : Run step C s₀ tr s) (h0 : K s₀)
    (hs : ∀ tr s i s' es, K s → C tr s i → step s i = some (s', es) →
      (∃ x ∈ es, P x) ∨ K s' ∧ m s' + es.countP own ≤ m s) :
    (∃ x ∈ tr, P x) ∨ K s ∧ m s + tr.countP own ≤ m s₀ := by
  induction h with
  | nil => exact .inr ⟨h0, Nat.le_refl _⟩
  | @snoc tr s i s' es _ hC hst ih =>
    rcases ih with ⟨x, hx, hP⟩ | ⟨hK, hle⟩
    · exact .inl ⟨x, mem_append_left _ hx, hP⟩
    · rcases hs tr s i s' es hK hC hst with ⟨x, hx, hP⟩ | ⟨hK', hle'⟩
      · exact .inl ⟨x, mem_append_right _ hx, hP⟩
      · refine .inr ⟨hK', ?_⟩
        rw [countP_append]
        omega

/-- **The reachability rule**: if in every state of `K` short of the goal some step stays in `K` and
lowers the rank, then a run can go on to the goal. -/
theorem Run.reach {G : σ → Prop} {m : σ → ℕ} (h : Run step C s₀ tr s) (hK : K s)
    (hs : ∀ tr s, K s → ¬ G s →
      ∃ i s' es, C tr s i ∧ step s i = some (s', es) ∧ K s' ∧ m s' < m s) :
    ∃ tr' s', Run step C s₀ tr' s' ∧ K s' ∧ G s' := by
  induction hn : m s using Nat.strongRecOn generalizing tr s with
  | _ n ih =>
    by_cases hG : G s
    · exact ⟨tr, s, h, hK, hG⟩
    · obtain ⟨i, s', es, hC, hst, hK', hlt⟩ := hs tr s hK hG
      exact ih (m s') (hn ▸ hlt) (h.snoc hC hst) hK' rfl

theorem Run.trans {s' : σ} {es : List ε} (h : Run step Any s₀ tr s) (h' : Run step Any s es s') :
    Run step Any s₀ (tr ++ es) s' := by
  induction h' with
  | nil => rw [append_nil]; exact h
  | snoc _ _ hs ih => rw [← append_assoc]; exact ih.snoc trivial hs

/-- What holds in every run is a condition of its steps. -/
theorem Run.along (h : Run step C s₀ tr s) (hI : ∀ tr s, Run step C s₀ tr s → I tr s) :
    Run step (fun tr s i => C tr s i ∧ I tr s) s₀ tr s := by
  induction h with
  | nil => exact .nil
  | snoc h hC hst ih => exact ih.snoc ⟨hC, hI _ _ h⟩ hst

theorem Run.along_inputs {κ : Type*} {f : κ → ι} {C' : List ε → σ → κ → Prop}
    (h : Run (fun s k => step s (f k)) C' s₀ tr s) (hC : ∀ tr s k, C' tr s k → C tr s (f k)) :
    Run step C s₀ tr s := by
  induction h with
  | nil => exact .nil
  | snoc _ hk hst ih => exact ih.snoc (hC _ _ _ hk) hst

/-- **The projection rule**: a part of the state that every step leaves alone, or moves by a step of
another machine, runs as that machine does; its trace is the part `g` keeps. -/
theorem Run.project {σ' ι' ε' : Type*} {step' : σ' → ι' → Option (σ' × List ε')}
    {C' : List ε' → σ' → ι' → Prop} {f : σ → σ'} {g : ε → Option ε'} (h : Run step C s₀ tr s)
    (hs : ∀ tr s i s' es, C tr s i → step s i = some (s', es) →
      f s' = f s ∧ es.filterMap g = [] ∨
        ∃ i', C' (tr.filterMap g) (f s) i' ∧ step' (f s) i' = some (f s', es.filterMap g)) :
    Run step' C' (f s₀) (tr.filterMap g) (f s) := by
  induction h with
  | nil => exact .nil
  | @snoc tr s i s' es _ hC hst ih =>
    rw [filterMap_append]
    rcases hs tr s i s' es hC hst with ⟨hf, hg⟩ | ⟨i', hC', hst'⟩
    · rw [hf, hg, append_nil]
      exact ih
    · exact ih.snoc hC' hst'

/-- **The simulation rule**: an abstract state that is related to the start is taken by the events
of the run to one that is related to its end, if this is so of the events of every step. -/
theorem Run.simulate {α : Type*} {follow : α → ε → Option α} {R : α → σ → Prop} {a : α}
    (h : Run step C s₀ tr s) (h0 : R a s₀)
    (hs : ∀ tr a s i s' es, R a s → C tr s i → step s i = some (s', es) →
      ∃ a', es.foldlM follow a = some a' ∧ R a' s') :
    ∃ a', tr.foldlM follow a = some a' ∧ R a' s := by
  induction h with
  | nil => exact ⟨a, rfl, h0⟩
  | @snoc tr s i s' es _ hC hst ih =>
    obtain ⟨a₁, htr, hR⟩ := ih
    obtain ⟨a₂, hes, hR'⟩ := hs tr a₁ s i s' es hR hC hst
    refine ⟨a₂, ?_, hR'⟩
    rw [foldlM_append, htr]
    exact hes

theorem foldlM_singleton {α : Type*} (follow : α → ε → Option α) (a : α) (x : ε) :
    [x].foldlM follow a = follow a x := by
  rw [foldlM_cons]
  exact bind_pure (follow a x)

/-- The state and the trace after the inputs of a list, if all of them can happen in turn. -/
def exec (step : σ → ι → Option (σ × List ε)) : σ → List ι → Option (σ × List ε)
  | s, [] => some (s, [])
  | s, i :: is =>
    (step s i).bind fun r => (exec step r.1 is).map fun r' => (r'.1, r.2 ++ r'.2)

theorem exec_append {is' : List ι} : ∀ {s : σ}, exec step s (is ++ is') =
    (exec step s is).bind fun r => (exec step r.1 is').map fun r' => (r'.1, r.2 ++ r'.2) := by
  induction is with
  | nil => intro s; simp [exec]
  | cons i is ih =>
    intro s
    simp only [cons_append, exec, ih]
    rcases step s i with _ | ⟨s1, es1⟩
    · rfl
    · simp only [bind_some]
      rcases exec step s1 is with _ | ⟨s2, es2⟩
      · rfl
      · simp [Function.comp_def]

theorem exec_snoc {i : ι} (h : exec step s₀ (is ++ [i]) = some (s, tr)) :
    ∃ s1 tr1 es, exec step s₀ is = some (s1, tr1) ∧ step s1 i = some (s, es) ∧ tr = tr1 ++ es := by
  rw [exec_append, bind_eq_some_iff] at h
  obtain ⟨⟨s1, tr1⟩, h1, h2⟩ := h
  simp only [exec, map_eq_some_iff, bind_eq_some_iff, Prod.mk.injEq] at h2
  obtain ⟨⟨s2, es2⟩, ⟨⟨s3, es3⟩, h3, ⟨s4, es4⟩, h4, h5⟩, rfl, rfl⟩ := h2
  simp only [some.injEq, Prod.mk.injEq] at h4 h5
  obtain ⟨rfl, rfl⟩ := h4
  obtain ⟨rfl, rfl⟩ := h5
  exact ⟨s1, tr1, es3, h1, h3, by simp⟩

theorem exec_of_prefix {is' : List ι} (hp : is' <+: is) (h : (exec step s₀ is).isSome) :
    ∃ s tr, exec step s₀ is' = some (s, tr) := by
  obtain ⟨r, rfl⟩ := hp
  rw [exec_append] at h
  rcases he : exec step s₀ is' with _ | ⟨s, tr⟩
  · rw [he] at h; simp at h
  · exact ⟨s, tr, rfl⟩

/-- **Executing a list of inputs is a run**, under `C` if each of its steps meets `C`. -/
theorem run_exec_of : ∀ {s : σ} {tr : List ε}, exec step s₀ is = some (s, tr) →
    (∀ is' i s tr, is' ++ [i] <+: is → exec step s₀ is' = some (s, tr) → C tr s i) →
    Run step C s₀ tr s := by
  induction is using List.reverseRecOn with
  | nil =>
    intro s tr h _
    cases h
    exact .nil
  | append_singleton is i ih =>
    intro s tr h hC
    obtain ⟨s1, tr1, es, h1, h2, rfl⟩ := exec_snoc h
    refine (ih h1 fun is' j s' tr' hp he => ?_).snoc (hC is i s1 tr1 prefix_rfl h1) h2
    exact hC is' j s' tr' (hp.trans (prefix_append _ _)) he

theorem run_exec (is : List ι) (h : exec step s₀ is = some (s, tr)) : Run step Any s₀ tr s :=
  run_exec_of h fun _ _ _ _ _ _ => trivial

theorem Run.exec (is : List ι) : ∀ {tr : List ε} {s s' : σ} {es : List ε},
    Run step C s₀ tr s → (∀ i ∈ is, ∀ tr s, C tr s i) → exec step s is = some (s', es) →
    Run step C s₀ (tr ++ es) s' := by
  induction is with
  | nil =>
    intro tr s s' es h _ he
    cases he
    rwa [append_nil]
  | cons i is ih =>
    intro tr s s' es h hC he
    simp only [Runs.exec, bind_eq_some_iff, map_eq_some_iff, Prod.mk.injEq] at he
    obtain ⟨⟨s1, es1⟩, hs, ⟨s2, es2⟩, he, rfl, rfl⟩ := he
    rw [← append_assoc]
    exact ih (h.snoc (hC i mem_cons_self tr s) hs)
      (fun j hj => hC j (mem_cons_of_mem _ hj)) he

section
variable [∀ tr s i, Decidable (C tr s i)]

/-- The state and the whole trace after the inputs of a list, each step checked against `C`. -/
def execIf (step : σ → ι → Option (σ × List ε)) (C : List ε → σ → ι → Prop)
    [∀ tr s i, Decidable (C tr s i)] : List ε → σ → List ι → Option (σ × List ε)
  | tr, s, [] => some (s, tr)
  | tr, s, i :: is =>
    if C tr s i then (step s i).bind fun r => execIf step C (tr ++ r.2) r.1 is else none

theorem run_execIf (is : List ι) : ∀ {tr : List ε} {s : σ} {tr' : List ε} {s' : σ},
    Run step C s₀ tr s → execIf step C tr s is = some (s', tr') → Run step C s₀ tr' s' := by
  induction is with
  | nil =>
    intro tr s tr' s' h he
    cases he
    exact h
  | cons i is ih =>
    intro tr s tr' s' h he
    unfold execIf at he
    split_ifs at he with hC
    rw [bind_eq_some_iff] at he
    obtain ⟨⟨s1, es⟩, hs, he⟩ := he
    exact ih (h.snoc hC hs) he

end

end OhosFfrt.Lib.Runs
