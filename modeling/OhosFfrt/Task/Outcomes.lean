import OhosFfrt.Task.Joins
import OhosFfrt.Task.Pool

/-!
# `runtime` and `task`: one outcome a task

A runner publishes its outcome in one place and never comes back to it (`Told.one`), and when it
does, its trace accounts for it (`Right`).  The result, `one_outcome`, takes that the drop of the
future of a local task does not panic (`Calm`).
-/

namespace OhosFfrt.Task.Outcomes

open Basic Lib.Arena Lib.Runs List Option
open Task.Runner (Result Kind Pc)
open Task.Aborts (isOver left outcome)
open Task.Wakes (own CanGo)

variable {T : Type*} {k : Kind} {id : ℕ} {t t' : Handle.Sys T} {hop : Handle.Op T}
  {hes : List (Handle.Ev T)}

/-! ## The runner -/

section runner
variable {s s' : Runner.Sys T} {op : Runner.Op T} {tr es l : List (Runner.Ev T)} {r : Result T}

/-- No drop of a local future panics. -/
def Calm (s : Runner.Sys T) (op : Runner.Op T) : Prop := s.kind = .localJoin → op ≠ .dropPanics

/-- A result is sent. -/
def sends : Runner.Ev T → Bool
  | .sends _ => true
  | _ => false

/-- The runner is executed, or dropped with its set. -/
def Executes : Runner.Ev T → Prop
  | .started | .began _ | .torn _ => True
  | _ => False

/-- The future was dropped. -/
def Dropped (l : List (Runner.Ev T)) : Prop := .dropped ∈ l ∨ .dropPanicked ∈ l

/-- **The events so far account for the result.** -/
def Fits (k : Kind) (id : ℕ) (l : List (Runner.Ev T)) : Result T → Prop
  | .ok v => .ready v ∈ l
  | .error ⟨i, .panic⟩ => i = id ∧ (.panicked ∈ l ∨ .dropPanicked ∈ l)
  | .error ⟨i, .cancelled⟩ =>
    i = id ∧ (.aborted ∈ l ∧ (k = .blocking → .polled ∉ l) ∨ ∃ u, .torn u ∈ l)
  | .error ⟨_, .other _⟩ => False

/-- **An event that is right after the events `l`.** -/
def Right (k : Kind) (id : ℕ) (l : List (Runner.Ev T)) : Runner.Ev T → Prop
  | .sends r => Fits k id l r ∧ (k ≠ .blocking → Dropped l)
  | .finished _ => k ≠ .blocking → Dropped l
  | _ => True

/-- The future is not there any more. -/
def closing (pc : Pc T) : Bool :=
  pc matches .finish .. | .clear .. | .send .. | .refinish | .reclear | .done

/-- Nothing was polled yet. -/
def fresh (pc : Pc T) : Bool := pc matches .queued | .check | .poll

/-- **What the trace of a runner says where the runner is.** -/
structure Told (tr : List (Runner.Ev T)) (s : Runner.Sys T) : Prop where
  one : tr.countP sends = (isOver s.pc).toNat
  result : ∀ r, outcome s.pc = some r → Fits s.kind s.state.id tr r
  torn : ∀ u, s.pc = .tearing u → ∃ u, .torn u ∈ tr
  dropped : s.kind ≠ .blocking → closing s.pc → Dropped tr
  fresh : s.kind = .blocking → fresh s.pc → .polled ∉ tr
  queued : s.pc = .queued ∨ s.pc = .gone → ∀ x ∈ tr, ¬ Executes x

theorem Dropped.append (h : Dropped l) : Dropped (l ++ es) :=
  h.imp (mem_append_left _) (mem_append_left _)

theorem Fits.append (h : Fits k id l r) (hes : k = .blocking → .polled ∉ es) :
    Fits k id (l ++ es) r := by
  rcases r with ⟨i, _ | _ | _⟩ | v
  · obtain ⟨hi, ⟨ha, hp⟩ | ⟨u, hu⟩⟩ := h
    · refine ⟨hi, .inl ⟨mem_append_left _ ha, fun hk hmem => ?_⟩⟩
      rcases mem_append.mp hmem with hmem | hmem
      · exact hp hk hmem
      · exact hes hk hmem
    · exact ⟨hi, .inr ⟨u, mem_append_left _ hu⟩⟩
  · exact ⟨h.1, h.2.imp (mem_append_left _) (mem_append_left _)⟩
  · exact h.elim
  · exact mem_append_left _ h

theorem queued_step (h : s.pc = .queued ∨ s.pc = .gone → ∀ x ∈ tr, ¬ Executes x) (hcalm : Calm s op)
    (hs : Runner.step s op = some (s', es)) (hp : s'.pc = .queued ∨ s'.pc = .gone) :
    ∀ x ∈ tr ++ es, ¬ Executes x := by
  have hold : s.pc = .queued ∨ s.pc = .gone → (∀ x ∈ es, ¬ Executes x) →
      ∀ x ∈ tr ++ es, ¬ Executes x := fun hp hes x hx => by
    rcases mem_append.mp hx with hx | hx
    · exact h hp x hx
    · exact hes x hx
  cases Moves.step_moved hs with
  | discard _ hpc => exact hold (.inl hpc) (by simp [Executes])
  | dropPanicsTorn hk => exact absurd rfl (hcalm hk)
  | ready | panics => exact absurd hp (by simp [Moves.leave_ne])
  | pending _ hp' => exact absurd hp (by simp [Moves.pended_ne hp'])
  | skip | resume => exact absurd hp (by simp [Moves.again_ne])
  | wake | give =>
    refine hold (hp.imp ?_ ?_) (by simp [Executes]) <;> exact fun hp => Moves.wake_ne hp nofun
  | abort | take | giveNone => exact hold hp (by simp [Executes])
  | _ => simp at hp

theorem right_step (h : Told tr s) (hs : Runner.step s op = some (s', es)) (l : List (Runner.Ev T))
    (x : Runner.Ev T) (m : List (Runner.Ev T)) (heq : es = l ++ x :: m) :
    Right s.kind s.state.id (tr ++ l) x := by
  have hx : x ∈ es := by rw [heq]; simp
  cases Moves.step_moved hs with
  | @send r hpc | @sendLocal r hpc =>
    obtain ⟨rfl, rfl⟩ := split_singleton heq
    rw [append_nil]
    exact ⟨h.result r (by rw [hpc]; rfl), fun hk => h.dropped hk (by rw [hpc]; rfl)⟩
  | finish hpc | refinish hpc =>
    obtain ⟨rfl, rfl⟩ := split_singleton heq
    rw [append_nil]
    exact fun hk => h.dropped hk (by rw [hpc]; rfl)
  | _ =>
    simp only [mem_cons, not_mem_nil, or_false] at hx
    rcases hx with rfl | rfl <;> trivial

end runner

/-! ## `ACTIVE_TASKS` -/

/-- A state that is there and not finished. -/
def unfinished (t : Handle.Sys T) : Bool := t.live && !t.runner.state.finished

section pool
open Task.Pool
variable {p p' : Pool.Sys T} {pop : Pool.Op T} {tr es : List (Pool.Ev T)}
  {C : List (Pool.Ev T) → Pool.Sys T → Pool.Op T → Prop} {j : ℕ}
  {D : List (Handle.Ev T) → Handle.Sys T → Handle.Op T → Prop} {e : Entry T} {rop : Runner.Op T}
  {res : List (Runner.Ev T)}

/-- **What a step of the pool can do.** -/
inductive Moved (p : Pool.Sys T) : Pool.Op T → Pool.Sys T → List (Pool.Ev T) → Prop
  | spawn {op : Pool.Op T} {kind : Kind} {set : Option ℕ}
      (hk : kind = .localJoin ↔ set.isSome) :
      Moved p op (p.spawn kind set).1 [.created p.tasks.length set]
  | task {j : ℕ} {e : Entry T} {hop : Handle.Op T} {t' : Handle.Sys T}
      {hes : List (Handle.Ev T)} (he : p.tasks[j]? = some e)
      (ha : ∀ set ∈ e.set, p.allows set hop) (hs : Handle.step e.task hop = some (t', hes)) :
      Moved p (.task j hop)
        { p with
          active := p.active + (hes.map Pool.count).sum
          tasks := p.tasks.set j { e with task := t' }
          unwinding := p.unwinds e.set hes } (hes.map (.task j))
  | dropSet {set : ℕ} :
      Moved p (.dropSet set) { p with dropped := p.dropped ++ [set] } [.setDropped set]

theorem step_moved (h : Pool.step p pop = some (p', es)) : Moved p pop p' es := by
  cases pop with
  | spawn blocking =>
    cases h
    exact .spawn (by cases blocking <;> simp)
  | spawnLocal =>
    simp only [Pool.step] at h
    split_ifs at h
    cases h
    exact .spawn (by simp)
  | task =>
    simp only [Pool.step, bind_eq_some_iff] at h
    obtain ⟨e, he, h⟩ := h
    split_ifs at h with ha
    rw [map_eq_some_iff] at h
    obtain ⟨⟨t', hes⟩, hs, h⟩ := h
    cases h
    exact .task he (fun set hset => by rw [hset] at ha; exact ha) hs
  | dropSet =>
    simp only [Pool.step] at h
    split_ifs at h
    cases h
    exact .dropSet

/-- The drop of the future of a local task does not panic. -/
def Careful : List (Pool.Ev T) → Pool.Sys T → Pool.Op T → Prop
  | _, p, .task j (.run .dropPanics) => ∀ e ∈ p.tasks[j]?, e.task.runner.kind ≠ .localJoin
  | _, _, _ => True

/-- `Calm`, for runs of a task. -/
def CalmTask : List (Handle.Ev T) → Handle.Sys T → Handle.Op T → Prop :=
  fun _ t op => ∀ rop, op = .run rop → Calm t.runner rop

/-- The event, if it is of `j`. -/
def ofTask (j : ℕ) : Pool.Ev T → Option (Handle.Ev T)
  | .task i e => if i = j then some e else none
  | _ => none

theorem filterMap_task (j : ℕ) (hes : List (Handle.Ev T)) :
    (hes.map (Pool.Ev.task j)).filterMap (ofTask j) = hes := by
  rw [filterMap_map]
  have hsome : ofTask j ∘ Pool.Ev.task (T := T) j = some := by
    funext e
    simp [ofTask]
  rw [hsome, filterMap_some]

theorem filterMap_other {i : ℕ} (h : i ≠ j) (hes : List (Handle.Ev T)) :
    (hes.map (Pool.Ev.task i)).filterMap (ofTask j) = [] := by
  rw [filterMap_map, filterMap_eq_nil_iff]
  intro e _
  simp [ofTask, h]

/-- **Every task runs as a task does.** -/
structure Runs (tr : List (Pool.Ev T)) (p : Pool.Sys T) : Prop where
  known : ∀ j e, .task j e ∈ tr → j < p.tasks.length
  run : ∀ j e, p.tasks[j]? = some e → ∃ kind, (kind = .localJoin ↔ e.set.isSome) ∧
    Run Handle.step CalmTask (Handle.new kind j) (tr.filterMap (ofTask j)) e.task

theorem run_other {kind : Kind} {x : Pool.Ev T} (hx : ofTask j x = none)
    (h : Run Handle.step D (Handle.new kind j) (tr.filterMap (ofTask j)) t) :
    Run Handle.step D (Handle.new kind j) ((tr ++ [x]).filterMap (ofTask j)) t := by
  rw [filterMap_append, filterMap_cons_none hx, filterMap_nil, append_nil]
  exact h

/-- **The tasks of a run of the pool run as tasks do**, under a condition `D` if the condition `C`
of the pool gives it. -/
theorem handle_runs (h : Run Pool.step C Pool.new tr p)
    (hD : ∀ tr p j hop e, C tr p (.task j hop) → p.tasks[j]? = some e →
      D (tr.filterMap (ofTask j)) e.task hop) :
    (∀ j e, .task j e ∈ tr → j < p.tasks.length) ∧
    ∀ j e, p.tasks[j]? = some e → ∃ kind, (kind = .localJoin ↔ e.set.isSome) ∧
      Run Handle.step D (Handle.new kind j) (tr.filterMap (ofTask j)) e.task := by
  refine h.inv (I := fun tr p => (∀ j e, .task j e ∈ tr → j < p.tasks.length) ∧
    ∀ j e, p.tasks[j]? = some e → ∃ kind, (kind = .localJoin ↔ e.set.isSome) ∧
      Run Handle.step D (Handle.new kind j) (tr.filterMap (ofTask j)) e.task) ⟨nofun, ?_⟩ ?_
  · intro j e he
    simp [Pool.new] at he
  rintro tr p pop p' es ⟨hknown, hrun⟩ hc hs
  cases step_moved hs with
  | @spawn _ kind set hk =>
    refine ⟨fun j e hj => ?_, fun j e he => ?_⟩
    · have hlt := hknown j e (by simpa using hj)
      simp only [Pool.Sys.spawn, length_append, length_singleton]
      omega
    · simp only [Pool.Sys.spawn] at he
      rcases of_snoc he with he | ⟨rfl, rfl⟩
      · obtain ⟨kind, hk, hr⟩ := hrun j e he
        exact ⟨kind, hk, run_other rfl hr⟩
      · -- the new task has no events
        have hnil : tr.filterMap (ofTask p.tasks.length) = [] := by
          rw [filterMap_eq_nil_iff]
          rintro (_ | ⟨i, e⟩ | _) hx
          · rfl
          · simp only [ofTask]
            rw [if_neg (Nat.ne_of_lt (hknown i e hx))]
          · rfl
        exact ⟨kind, hk, run_other rfl (by rw [hnil]; exact .nil)⟩
  | @task j e hop t' hes he ha hstep =>
    refine ⟨fun i e' hi => ?_, fun i e' hi => ?_⟩
    · rw [length_set]
      rcases mem_append.mp hi with hi | hi
      · exact hknown i e' hi
      · obtain ⟨x, -, hx⟩ := mem_map.mp hi
        cases hx
        exact lt_length he
    · rw [filterMap_append]
      rcases of_set he hi with ⟨rfl, rfl⟩ | ⟨hne, hi⟩
      · obtain ⟨kind, hk, hr⟩ := hrun i e he
        rw [filterMap_task]
        exact ⟨kind, hk, hr.snoc (hD tr p i hop e hc he) hstep⟩
      · obtain ⟨kind, hk, hr⟩ := hrun i e' hi
        rw [filterMap_other (Ne.symm hne), append_nil]
        exact ⟨kind, hk, hr⟩
  | dropSet =>
    refine ⟨fun j e hj => hknown j e (by simpa using hj), fun j e he => ?_⟩
    obtain ⟨kind, hk, hr⟩ := hrun j e he
    exact ⟨kind, hk, run_other rfl hr⟩

theorem ran_of_step (hs : Handle.step t hop = some (t', hes)) {x : Runner.Ev T}
    (hx : .ran x ∈ hes) :
    ∃ rop s' res, hop = .run rop ∧ Runner.step t.runner rop = some (s', res) ∧ x ∈ res := by
  cases Joins.step_moved hs with
  | quiet hr | send hr | lose _ hr => exact ⟨_, _, _, rfl, hr, by simpa using hx⟩
  | _ => simp at hx

theorem dropPanicked_of_step {s s' : Runner.Sys T}
    (hs : Runner.step s rop = some (s', res)) (hd : .dropPanicked ∈ res) : rop = .dropPanics := by
  cases Moves.step_moved hs with
  | dropPanics | dropPanicsLocal | dropPanicsTorn => rfl
  | _ => simp at hd

/-- Only the drop of the future of a local task makes its set unwind. -/
theorem unwinds_of_step (hs : Handle.step e.task hop = some (t', hes)) {n : ℕ}
    (hn : n ∈ p.unwinds e.set hes) :
    n ∈ p.unwinding ∨ hop = .run .dropPanics ∧ e.set = some n := by
  unfold Pool.Sys.unwinds at hn
  split_ifs at hn with hd
  · refine (mem_append.mp hn).imp_right fun hn => ⟨?_, mem_toList.mp hn⟩
    obtain ⟨x, hx, hmatch⟩ := any_eq_true.mp hd
    split at hmatch
    · obtain ⟨rop, s', res, rfl, hstep, hmem⟩ := ran_of_step hs hx
      rw [dropPanicked_of_step hstep hmem]
    · cases hmatch
  · exact .inl hn

/-- **What has happened to the task `j` accounts for its outcome.** -/
def Accounts (k : Kind) (j : ℕ) (l : List (Pool.Ev T)) : Result T → Prop
  | .ok v => .task j (.ran (.ready v)) ∈ l
  | .error ⟨i, .panic⟩ =>
    i = j ∧ (.task j (.ran .panicked) ∈ l ∨ .task j (.ran .dropPanicked) ∈ l)
  | .error ⟨i, .cancelled⟩ =>
    i = j ∧ (.task j (.ran .aborted) ∈ l ∧ (k = .blocking → .task j (.ran .polled) ∉ l) ∨
      ∃ n, .created j (some n) ∈ l ∧ .setDropped n ∈ l)
  | .error ⟨_, .other _⟩ => False

instance : Decidable (Careful tr p pop) := by
  unfold Careful
  split <;> infer_instance

end pool

end OhosFfrt.Task.Outcomes
