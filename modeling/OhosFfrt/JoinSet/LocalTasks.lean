import OhosFfrt.JoinSet.Once

/-!
# `task::JoinSet`: tasks of a `LocalSet` that is dropped

The tracker of a local task is itself a task of the `LocalSet`.  A `LocalSet` that is dropped drops
its tasks, and a task that is dropped publishes that it is cancelled; but its tracker, which would
pass this on, is dropped as well (`local_unreported`).  Where the trackers have sent before, each
task is reported (`local_reported`).
-/

namespace OhosFfrt.JoinSet.LocalTasks

open Lib.Runs List
open OhosFfrt.Task JoinSet.System JoinSet.Moves JoinSet.Once

variable {V : Type*} {s s' : Sys V} {op : Op V} {es tr : List (Ev V)} {t : Tracker V} {i j : ℕ}
  {p' p : Pool.Sys V} {pes : List (Pool.Ev V)} {pop : Pool.Op V}

/-- All trackers on the `LocalSet` have sent. -/
def Told (s : Sys V) (k : ℕ) : Prop :=
  ∀ t ∈ s.trackers, s.inSet t.task (· = k) = true → t.phase.hasSent = true

instance (s : Sys V) (k : ℕ) : Decidable (Told s k) := by
  unfold Told
  infer_instance

/-- **A `LocalSet` is dropped, and a panic in the drop of a future leaves its `poll_tasks`, when all
trackers on it have sent**; nothing is inserted on a set that a panic has left. -/
def Seen (_ : List (Ev V)) (s : Sys V) : Op V → Prop
  | .pool (.dropSet k) => Told s k
  | .pool (.task j (.run .dropPanics)) => ∀ e ∈ s.pool.tasks[j]?, ∀ k ∈ e.set, Told s k
  | .spawnLocal k => k ∉ s.pool.unwinding
  | _ => True

instance (tr : List (Ev V)) (s : Sys V) (op : Op V) : Decidable (Seen tr s op) := by
  unfold Seen
  split <;> infer_instance

/-! ### The sets -/

/-- The `LocalSet` of the task `j`. -/
def setOf (p : Pool.Sys V) (j : ℕ) : Option ℕ := p.tasks[j]?.bind Pool.Entry.set

theorem inSet_eq {q : ℕ → Bool} : s.inSet j q = (setOf s.pool j).any q := by
  unfold Sys.inSet setOf
  cases s.pool.tasks[j]? <;> rfl

theorem setOf_step
    (hs : Pool.step p pop = some (p', pes)) (hj : j < p.tasks.length) : setOf p' j = setOf p j := by
  unfold setOf
  cases Outcomes.step_moved hs with
  | spawn => rw [Pool.Sys.spawn, getElem?_append_left hj]
  | @task i e _ _ _ he =>
    by_cases hij : i = j
    · subst hij
      rw [getElem?_set_self hj, he]
      rfl
    · rw [getElem?_set_ne hij]
  | dropSet => rfl

/-- The set is dropped, or a panic has left its `poll_tasks`. -/
def lost (p : Pool.Sys V) (k : ℕ) : Bool := k ∈ p.dropped || k ∈ p.unwinding

/-- The operation drops the set, or a panic leaves its `poll_tasks`. -/
def Loses (p : Pool.Sys V) (pop : Pool.Op V) (k : ℕ) : Prop :=
  pop = .dropSet k ∨
    ∃ j e, pop = .task j (.run .dropPanics) ∧ p.tasks[j]? = some e ∧ e.set = some k

theorem lost_step {k : ℕ} (hs : Pool.step p pop = some (p', pes)) (hk : lost p' k = true) :
    lost p k = true ∨ Loses p pop k := by
  simp only [lost, Bool.or_eq_true, decide_eq_true_eq] at hk ⊢
  cases Outcomes.step_moved hs with
  | spawn => exact .inl hk
  | @task j e hop t' hes he ha hstep =>
    rcases hk with hk | hk
    · exact .inl (.inl hk)
    · rcases Outcomes.unwinds_of_step hstep hk with hk | ⟨rfl, hset⟩
      · exact .inl (.inr hk)
      · exact .inr (.inr ⟨j, e, rfl, he, hset⟩)
  | dropSet =>
    rcases hk with hk | hk
    · refine (mem_append.mp hk).imp .inl fun hk => .inl ?_
      rw [mem_singleton.mp hk]
    · exact .inl (.inr hk)

/-! ### Trackers -/

/-- **The tracker is not lost**: it was not dropped before it had sent, and has sent if its set is
dropped or a panic has left it. -/
structure Safe (p : Pool.Sys V) (t : Tracker V) : Prop where
  whole : t.phase ≠ .torn ∧ t.phase ≠ .gone
  sent : (setOf p t.task).any (lost p) = true → t.phase.hasSent = true

theorem Safe.pool (h : Safe p t) (hs : Pool.step p pop = some (p', pes))
    (hj : t.task < p.tasks.length)
    (hl : ∀ k, Loses p pop k → setOf p t.task = some k → t.phase.hasSent = true) : Safe p' t where
  whole := h.whole
  sent hin := by
    obtain ⟨k, hk, hlost⟩ := (Option.any_eq_true _ _).mp hin
    rw [setOf_step hs hj] at hk
    rcases lost_step hs hlost with hlost | hloses
    · exact h.sent ((Option.any_eq_true _ _).mpr ⟨k, hk, hlost⟩)
    · exact hl k hloses hk

theorem Safe.phase {phase : Phase V} (h : Safe p t) (hphase : phase ≠ .torn ∧ phase ≠ .gone)
    (hsent : t.phase.hasSent = true → phase.hasSent = true) :
    Safe p { t with phase := phase } :=
  ⟨hphase, fun hin => hsent (h.sent hin)⟩

theorem safe_set {ts : List (Tracker V)} (h : ∀ t ∈ ts, Safe p t) (ht : Safe p t) :
    ∀ x ∈ ts.set i t, Safe p x := by
  intro x hx
  rcases mem_or_eq_of_mem_set hx with hx | rfl
  · exact h x hx
  · exact ht

theorem safe_insert {kind : Task.Runner.Kind} {k : Option ℕ} {phase : Phase V}
    (hphase : phase ≠ .torn ∧ phase ≠ .gone) (hk : ∀ n ∈ k, lost p n = false) :
    Safe (p.spawn kind k).1 ⟨p.tasks.length, phase⟩ where
  whole := hphase
  sent hin := by
    have hset : setOf (p.spawn kind k).1 p.tasks.length = k := by
      unfold setOf Pool.Sys.spawn
      rw [getElem?_concat_length]
      rfl
    obtain ⟨n, hn, hlost⟩ := (Option.any_eq_true _ _).mp hin
    rw [hset] at hn
    exact absurd ((hk n hn).symm.trans hlost) nofun

theorem seen_loses {k : ℕ} (hC : Seen tr s (.pool pop)) (hl : Loses s.pool pop k) : Told s k := by
  rcases hl with rfl | ⟨j, e, rfl, he, hk⟩
  · exact hC
  · exact hC e he k hk

theorem safe_step (h : ∀ t ∈ s.trackers, Safe s.pool t) (hL : Ledger tr s)
    (hC : Seen tr s op) (hs : step s op = some (s', es)) : ∀ t ∈ s'.trackers, Safe s'.pool t := by
  have htask : ∀ {p' pes i hop}, Pool.step s.pool (.task i hop) = some (p', pes) →
      (∀ rop, hop ≠ .run rop) → ∀ t ∈ s.trackers, Safe p' t := by
    intro p' pes i hop hp hne t ht
    refine (h t ht).pool hp (hL.known t ht) ?_
    rintro k (hl | ⟨_, _, hl, -⟩) <;> cases hl
    exact absurd rfl (hne _)
  cases step_moved hs with
  | pool _ hp =>
    intro t ht
    refine (h t ht).pool hp (hL.known t ht) fun k hl hk => seen_loses hC hl t ht ?_
    rw [inSet_eq, hk]
    exact decide_eq_true rfl
  | @insert _ pop kind k hop hp =>
    have hnone : ∀ n, ¬ Loses s.pool pop n := by
      rcases hop with ⟨b, -, rfl, -⟩ | ⟨n, -, rfl, -⟩ <;>
        rintro k (hl | ⟨_, _, hl, -⟩) <;> cases hl
    intro t ht
    rcases mem_append.mp ht with ht | ht
    · exact (h t ht).pool hp (hL.known t ht) fun n hn => absurd hn (hnone n)
    · rw [mem_singleton.mp ht]
      refine safe_insert (by simp) ?_
      -- a set that is dropped takes no task, and one that a panic has left is not given any
      rcases hop with ⟨b, -, -, rfl⟩ | ⟨n, rfl, -, rfl, hn⟩
      · nofun
      · rintro _ ⟨⟩
        have hn' : n ∉ s.pool.unwinding := hC
        simp [lost, hn, hn']
  | pends ht hph hp => exact htask hp nofun
  | yields ht hph hp =>
    have hsafe := htask hp nofun
    refine safe_set hsafe ((hsafe _ (mem_of_getElem? ht)).phase (by simp) ?_)
    simp [hph, Phase.hasSent]
  | release ht hph hp =>
    rcases hph with ⟨r, cx, -, hph, rfl⟩ | ⟨-, hph, -, hin⟩
    · have hsafe := htask hp nofun
      refine safe_set hsafe ((hsafe _ (mem_of_getElem? ht)).phase (by simp) ?_)
      simp [hph, Phase.hasSent]
    · -- a tracker that still waits is not on a set that is lost
      have hsent := (h _ (mem_of_getElem? ht)).sent (inSet_eq ▸ hin)
      rw [hph] at hsent
      cases hsent
  | send ht =>
    exact safe_set h ((h _ (mem_of_getElem? ht)).phase (by simp) fun _ => rfl)
  | close ht hph =>
    rcases hph with ⟨hph, rfl⟩ | ⟨hph, -⟩
    · exact safe_set h ((h _ (mem_of_getElem? ht)).phase (by simp) fun _ => rfl)
    · exact absurd hph (h _ (mem_of_getElem? ht)).whole.1
  | join | nothing | waits | detach => exact h

/-- Every tracker is safe. -/
theorem safe_run (h : Run step Seen new tr s) : ∀ t ∈ s.trackers, Safe s.pool t := by
  induction h with
  | nil => nofun
  | snoc hrun hC hs ih => exact safe_step ih (ledger_run hrun) hC hs

/-! ### Results -/

theorem told_once (hL : Ledger tr s) (ht : t ∈ s.trackers) (hsent : t.phase.hasSent = true) :
    ((joinedOf tr ++ s.inner.queue).map Prod.fst).count t.task = 1 := by
  have hmem : t.task ∈ s.trackers.filterMap told :=
    mem_filterMap.mpr ⟨t, ht, by unfold told; rw [if_pos hsent]⟩
  have hmem := hL.told.mem_iff.mpr hmem
  have hnodup := hL.sent_nodup
  rw [hL.fifo] at hmem hnodup
  exact count_eq_one_of_mem hnodup hmem

theorem queue_of_sent (hL : Ledger tr s) (h : ∀ t ∈ s.trackers, t.phase.hasSent = true) :
    s.inner.queue.length = s.len := by
  have hall : s.trackers.filterMap told = s.trackers.map Tracker.task := by
    rw [← filterMap_eq_map]
    refine filterMap_congr fun t ht => ?_
    unfold told
    rw [if_pos (h t ht)]
    rfl
  have hlen := hL.told.length_eq
  have hcount := hL.count
  rw [hall, length_map, length_map, hL.fifo, length_append] at hlen
  unfold Sys.len
  omega

/-- **Local tasks are reported**, if their `LocalSet` is dropped when the trackers on it have sent:

* a task of a set that is dropped has exactly one result that is joined or in the channel, and this
  is its outcome;
* while `len` is not 0, there is a result in the channel, or a tracker with a sender that has not
  sent yet, and its `LocalSet`, if it is on one, is not dropped. -/
theorem local_reported (h : Run step Seen new tr s) :
    (∀ t ∈ s.trackers, s.inSet t.task (· ∈ s.pool.dropped) = true →
      ((joinedOf tr ++ s.inner.queue).map Prod.fst).count t.task = 1 ∧
      ∀ r, (t.task, r) ∈ joinedOf tr ++ s.inner.queue → Outcome tr t.task r) ∧
    (0 < s.len → s.inner.queue ≠ [] ∨ ∃ t ∈ s.trackers, t.phase.hasSender = true ∧
      t.phase.hasSent = false ∧ s.inSet t.task (· ∈ s.pool.dropped) = false) := by
  have hL := ledger_run h
  have hF := faithful_run h
  have hS := safe_run h
  have hsent : ∀ t ∈ s.trackers, s.inSet t.task (· ∈ s.pool.dropped) = true →
      t.phase.hasSent = true := by
    intro t ht hin
    rw [inSet_eq] at hin
    obtain ⟨k, hk, hd⟩ := (Option.any_eq_true _ _).mp hin
    exact (hS t ht).sent ((Option.any_eq_true _ _).mpr ⟨k, hk, by simp [lost, hd]⟩)
  constructor
  · intro t ht hin
    refine ⟨told_once hL ht (hsent t ht hin), fun r hr => ?_⟩
    rw [← hL.fifo] at hr
    exact hF.sent _ hr
  · intro hlen
    by_cases hall : ∀ t ∈ s.trackers, t.phase.hasSent = true
    · left
      intro hq
      have := queue_of_sent hL hall
      rw [hq, length_nil] at this
      omega
    · right
      push Not at hall
      obtain ⟨t, ht, hnot⟩ := hall
      have hnot : t.phase.hasSent = false := Bool.eq_false_iff.mpr hnot
      refine ⟨t, ht, ?_, hnot, ?_⟩
      · obtain ⟨htorn, hgone⟩ := (hS t ht).whole
        cases hp : t.phase with
        | torn => exact absurd hp htorn
        | gone => exact absurd hp hgone
        | done =>
          rw [hp] at hnot
          cases hnot
        | waiting | yielded | holding | sent => rfl
      · refine Bool.eq_false_iff.mpr fun hin => ?_
        rw [hsent t ht hin] at hnot
        cases hnot

/-- A local task that returns 7. -/
def localTask : List (Op ℕ) :=
  [.spawnLocal 0, .pool (.task 0 (.run .start)), .pool (.task 0 (.run .advance)),
    .pool (.task 0 (.run .advance)), .pool (.task 0 (.run .advance)),
    .pool (.task 0 (.run (.ready 7))), .pool (.task 0 (.run .drops)),
    .pool (.task 0 (.run .advance)), .pool (.task 0 (.run .advance)),
    .pool (.task 0 (.run .advance)), .pool (.task 0 (.run .advance)),
    .pool (.task 0 (.run .advance))]

theorem local_reported_seen : ∃ (s : Sys ℕ) (tr : List (Ev ℕ)), Run step Seen new tr s ∧
    s.pool.dropped = [0] ∧ s.len = 1 ∧ ⟨0, .sent⟩ ∈ s.trackers ∧
    ((joinedOf tr ++ s.inner.queue).map Prod.fst).count 0 = 1 := by
  refine ⟨_, _, run_execIf (localTask ++ [.tracker 0 4, .tracker 0 4, .tracker 0 4,
    .pool (.dropSet 0)]) .nil rfl, rfl, rfl, by decide, ?_⟩
  exact ((local_reported (run_execIf (localTask ++ [.tracker 0 4, .tracker 0 4, .tracker 0 4,
    .pool (.dropSet 0)]) .nil rfl)).1 ⟨0, .sent⟩ (by decide) (by decide)).1

/-- **A `LocalSet` that is dropped with a task that is not finished**: the task publishes that it is
cancelled, but its tracker is dropped too, and the set that counts the task waits for a result that
nothing is left to send. -/
theorem local_unreported : ∃ (s : Sys ℕ) (tr : List (Ev ℕ)), Run step Any new tr s ∧
    s.pool.dropped = [0] ∧ Outcome tr 0 (.error ⟨0, .cancelled⟩) ∧ s.len = 1 ∧ joinedOf tr = [] ∧
    s.inner.queue = [] ∧ s.inner.senderCount = 1 ∧ (∀ t ∈ s.trackers, t.phase = .gone) ∧
    ∃ s', step s (.poll false 5) = some (s', [.pending 5]) :=
  ⟨_, _, run_exec [.spawnLocal 0, .pool (.dropSet 0), .pool (.task 0 (.run (.teardown false))),
    .pool (.task 0 (.run .drops)), .pool (.task 0 (.run .advance)),
    .pool (.task 0 (.run .advance)), .pool (.task 0 (.run .advance)), .tear 0, .tracker 0 4] rfl,
    rfl, .inl (by decide), rfl, rfl, rfl, rfl, by decide, _, rfl⟩

end OhosFfrt.JoinSet.LocalTasks
