import OhosFfrt.JoinSet.System
import OhosFfrt.Task.Outcomes

/-!
# `task::JoinSet`: what a step can do

The runtime of a run is a run of the pool (`pool_run`), so what is known of tasks is known of those
in the set.
-/

namespace OhosFfrt.JoinSet.Moves

open Basic Lib.Runs
open Mpsc.Shared (Inner SendWaker unboundedSend dropSender addSender waitRecv take)
open OhosFfrt.Task JoinSet.System
open Task.Runner (Result Kind)

variable {V : Type*} {s s' : Sys V} {op : Op V} {es tr : List (Ev V)}
  {C : List (Ev V) → Sys V → Op V → Prop} {call : Call} {i : ℕ} {r : Result V} {cx : Waker} {j : ℕ}

/-! ### Steps -/

/-- **What a step can do.** -/
inductive Moved (s : Sys V) : Op V → Sys V → List (Ev V) → Prop
  | pool {pop : Pool.Op V} {p' : Pool.Sys V} {pes : List (Pool.Ev V)} (hl : s.leaves pop = true)
      (hs : Pool.step s.pool pop = some (p', pes)) :
      Moved s (.pool pop) { s with pool := p' } (pes.map .pool)
  | insert {op : Op V} {pop : Pool.Op V} {kind : Kind} {set : Option ℕ}
      (hop : (∃ b, op = .spawn b ∧ pop = .spawn b ∧ set = none) ∨
        ∃ k, op = .spawnLocal k ∧ pop = .spawnLocal k ∧ set = some k ∧ k ∉ s.pool.dropped)
      (hs : Pool.step s.pool pop = some (s.pool.spawn kind set)) :
      Moved s op
        { pool := (s.pool.spawn kind set).1
          inner := addSender s.inner
          pending := s.pending + 1
          abortHandles := s.abortHandles ++ [s.pool.tasks.length]
          trackers := s.trackers ++ [⟨s.pool.tasks.length, .waiting⟩] }
        [.pool (.created s.pool.tasks.length set), .inserted s.pool.tasks.length]
  | pends {i : ℕ} {cx : Waker} {t : Tracker V} {p' : Pool.Sys V} {pes : List (Pool.Ev V)}
      (ht : s.trackers[i]? = some t) (hp : t.phase = .waiting)
      (hs : Pool.step s.pool (.task t.task (.poll cx)) = some (p', pes))
      (hn : outcomeOf pes = none) :
      Moved s (.tracker i cx) { s with pool := p' } (pes.map .pool)
  | yields {i : ℕ} {cx : Waker} {t : Tracker V} {p' : Pool.Sys V} {pes : List (Pool.Ev V)}
      {r : Result V} (ht : s.trackers[i]? = some t) (hp : t.phase = .waiting)
      (hs : Pool.step s.pool (.task t.task (.poll cx)) = some (p', pes))
      (hr : outcomeOf pes = some r) :
      Moved s (.tracker i cx) { s.setPhase i t (.yielded r) with pool := p' } (pes.map .pool)
  | release {op : Op V} {i : ℕ} {t : Tracker V} {phase : Phase V} {p' : Pool.Sys V}
      {pes : List (Pool.Ev V)} (ht : s.trackers[i]? = some t)
      (hp : (∃ r cx, op = .tracker i cx ∧ t.phase = .yielded r ∧ phase = .holding r) ∨
        op = .tear i ∧ t.phase = .waiting ∧ phase = .torn ∧
          s.inSet t.task (fun k => k ∈ s.pool.dropped || k ∈ s.pool.unwinding) = true)
      (hs : Pool.step s.pool (.task t.task .dropHandle) = some (p', pes)) :
      Moved s op { s.setPhase i t phase with pool := p' } (pes.map .pool)
  | send {i : ℕ} {cx : Waker} {t : Tracker V} {r : Result V} (ht : s.trackers[i]? = some t)
      (hp : t.phase = .holding r) :
      Moved s (.tracker i cx)
        { s.setPhase i t .sent with inner := (unboundedSend s.inner (t.task, r)).2.1 }
        (.sent t.task r (unboundedSend s.inner (t.task, r)).1 ::
          (unboundedSend s.inner (t.task, r)).2.2.map .chan)
  | close {i : ℕ} {cx : Waker} {t : Tracker V} {phase : Phase V} {i' : Inner (ℕ × Result V)}
      {ces : List (Mpsc.Shared.Ev (ℕ × Result V))} (ht : s.trackers[i]? = some t)
      (hp : t.phase = .sent ∧ phase = .done ∨ t.phase = .torn ∧ phase = .gone)
      (hd : dropSender s.inner = some (i', ces)) :
      Moved s (.tracker i cx) { s.setPhase i t phase with inner := i' } (ces.map .chan)
  | join {op : Op V} {call : Call} {j n : ℕ} {r : Result V} {q : List (ℕ × Result V)}
      {ws : List SendWaker} {ces : List (Mpsc.Shared.Ev (ℕ × Result V))}
      (hop : (∃ b cx, op = .poll b cx) ∨ ∃ b, op = .tryJoin b)
      (hq : s.inner.queue = (j, r) :: q) (hn : s.pending = n + 1) :
      Moved s op
        { s with
          inner := { s.inner with queue := q, sendWakers := ws }
          pending := n
          abortHandles := removeAbortHandle s.abortHandles j }
        (.joined call j r (call.output j r) :: ces.map .chan)
  | nothing {op : Op V} {call : Call} (hop : (∃ b cx, op = .poll b cx) ∨ ∃ b, op = .tryJoin b)
      (h : s.pending = 0 ∨ s.inner.finished = true ∨ s.inner.queue = [] ∧ ∃ b, op = .tryJoin b) :
      Moved s op s [.nothing call]
  | waits {b : Bool} {cx : Waker} (hp : s.pending ≠ 0) (hq : s.inner.queue = []) :
      Moved s (.poll b cx) { s with inner := waitRecv s.inner cx } [.pending cx]
  | detach : Moved s .detachAll { s with abortHandles := [] } [.detached]

theorem insert_moved {pop : Pool.Op V} (h : s.insert pop = some (s', es))
    (hop : (∃ b, op = .spawn b ∧ pop = .spawn b) ∨ ∃ k, op = .spawnLocal k ∧ pop = .spawnLocal k) :
    Moved s op s' es := by
  obtain ⟨⟨p', pes⟩, hs, he⟩ := Option.map_eq_some_iff.mp h
  cases he
  rcases hop with ⟨b, rfl, rfl⟩ | ⟨k, rfl, rfl⟩
  · cases hs
    have hs : Pool.step s.pool (.spawn b) =
        some (s.pool.spawn (if b then .blocking else .async) none) := rfl
    exact .insert (.inl ⟨b, rfl, rfl, rfl⟩) hs
  · simp only [Pool.step] at hs
    split_ifs at hs with hk
    cases hs
    have hs : Pool.step s.pool (.spawnLocal k) = some (s.pool.spawn .localJoin (some k)) := by
      simp only [Pool.step]
      rw [if_neg hk]
    exact .insert (.inr ⟨k, rfl, rfl, rfl, hk⟩) hs

theorem set_get {α : Type*} {l : List α} {a : α} (h : l[i]? = some a) : l.set i a = l := by
  obtain ⟨hi, rfl⟩ := List.getElem?_eq_some_iff.mp h
  exact List.set_getElem_self hi

theorem advance_moved {t : Tracker V} (ht : s.trackers[i]? = some t)
    (h : s.advance i t cx = some (s', es)) : Moved s (.tracker i cx) s' es := by
  unfold Sys.advance at h
  split at h
  · next hp =>
    split_ifs at h
    obtain ⟨⟨p', pes⟩, hs, he⟩ := Option.map_eq_some_iff.mp h
    rcases hr : outcomeOf pes with _ | r
    · simp only [hr] at he
      cases he
      have hset : s.setPhase i t .waiting = s := by
        unfold Sys.setPhase
        rw [← hp, set_get ht]
      rw [hset]
      exact .pends ht hp hs hr
    · simp only [hr] at he
      cases he
      exact .yields ht hp hs hr
  · next r hp =>
    obtain ⟨⟨p', pes⟩, hs, he⟩ := Option.map_eq_some_iff.mp h
    cases he
    exact .release ht (.inl ⟨r, cx, rfl, hp, rfl⟩) hs
  · next r hp =>
    cases h
    exact .send ht hp
  · next hp =>
    obtain ⟨⟨i', ces⟩, hd, he⟩ := Option.map_eq_some_iff.mp h
    cases he
    exact .close ht (.inl ⟨hp, rfl⟩) hd
  · next hp =>
    obtain ⟨⟨i', ces⟩, hd, he⟩ := Option.map_eq_some_iff.mp h
    cases he
    exact .close ht (.inr ⟨hp, rfl⟩) hd
  · cases h
  · cases h

theorem tear_moved {t : Tracker V} (ht : s.trackers[i]? = some t)
    (h : s.tear i t = some (s', es)) : Moved s (.tear i) s' es := by
  unfold Sys.tear at h
  split at h
  · next hp =>
    split_ifs at h with hset
    obtain ⟨⟨p', pes⟩, hs, he⟩ := Option.map_eq_some_iff.mp h
    cases he
    exact .release ht (.inr ⟨rfl, hp, rfl, hset⟩) hs
  · cases h

theorem receive_moved {d : Bool} {wait : Sys V × List (Ev V)}
    (h : s.receive call (take s.inner d) wait = some (s', es))
    (hop : (∃ b cx, op = .poll b cx) ∨ ∃ b, op = .tryJoin b)
    (hwait : s.inner.queue = [] → Moved s op wait.1 wait.2) : Moved s op s' es := by
  unfold Sys.receive take at h
  rcases hq : s.inner.queue with _ | ⟨⟨j, r⟩, q⟩
  · simp only [hq] at h
    by_cases hf : s.inner.finished = true
    · rw [if_pos hf] at h
      cases h
      exact .nothing hop (.inr (.inl hf))
    · rw [if_neg hf] at h
      have := hwait hq
      rwa [Option.some.inj h] at this
  · have hjoin : ∀ (ws : List SendWaker) (ces : List (Mpsc.Shared.Ev (ℕ × Result V))),
        (checkedSub s.pending 1).map (fun pending => ({ s with
          inner := { s.inner with queue := q, sendWakers := ws }
          pending := pending
          abortHandles := removeAbortHandle s.abortHandles j },
          Ev.joined call j r (call.output j r) :: ces.map Ev.chan)) = some (s', es) →
        Moved s op s' es := by
      intro ws ces h
      obtain ⟨n, hn, he⟩ := Option.map_eq_some_iff.mp h
      cases he
      exact .join hop hq (checkedSub_eq_some hn)
    simp only [hq] at h
    cases d with
    | false => exact hjoin s.inner.sendWakers [.broadcast] h
    | true =>
      rw [if_pos rfl] at h
      exact hjoin [] (Mpsc.Shared.wakeSend s.inner ++ [.broadcast]) h

theorem poll_moved {b : Bool}
    (h : s.pollJoinNext call cx = some (s', es)) : Moved s (.poll b cx) s' es := by
  have hop : (∃ b' cx', Op.poll (V := V) b cx = .poll b' cx') ∨
      ∃ b', Op.poll (V := V) b cx = .tryJoin b' := .inl ⟨b, cx, rfl⟩
  unfold Sys.pollJoinNext at h
  split_ifs at h with hp
  · cases h
    exact .nothing hop (.inl hp)
  · exact receive_moved h hop fun hq => .waits hp hq

theorem tryJoin_moved {b : Bool} (h : s.tryJoinNext call = some (s', es)) :
    Moved s (.tryJoin b) s' es := by
  have hop : (∃ b' cx', Op.tryJoin (V := V) b = .poll b' cx') ∨
      ∃ b', Op.tryJoin (V := V) b = .tryJoin b' := .inr ⟨b, rfl⟩
  unfold Sys.tryJoinNext at h
  split_ifs at h with hp
  · cases h
    exact .nothing hop (.inl hp)
  · exact receive_moved h hop fun hq => .nothing hop (.inr (.inr ⟨hq, b, rfl⟩))

theorem step_moved (h : step s op = some (s', es)) : Moved s op s' es := by
  cases op with
  | pool =>
    simp only [step] at h
    split_ifs at h with hl
    obtain ⟨⟨p', pes⟩, hs, he⟩ := Option.map_eq_some_iff.mp h
    cases he
    exact .pool hl hs
  | spawn b => exact insert_moved h (.inl ⟨b, rfl, rfl⟩)
  | spawnLocal k => exact insert_moved h (.inr ⟨k, rfl, rfl⟩)
  | tracker =>
    obtain ⟨t, ht, h⟩ := Option.bind_eq_some_iff.mp h
    exact advance_moved ht h
  | tear =>
    obtain ⟨t, ht, h⟩ := Option.bind_eq_some_iff.mp h
    exact tear_moved ht h
  | poll => exact poll_moved h
  | tryJoin => exact tryJoin_moved h
  | detachAll =>
    cases h
    exact .detach

/-! ### The runtime -/

/-- The event of the runtime, if it is one. -/
def poolOf : Ev V → Option (Pool.Ev V)
  | .pool e => some e
  | _ => none

theorem filterMap_pool (pes : List (Pool.Ev V)) : (pes.map Ev.pool).filterMap poolOf = pes := by
  rw [List.filterMap_map]
  exact List.filterMap_some

theorem filterMap_chan (ces : List (Mpsc.Shared.Ev (ℕ × Result V))) :
    (ces.map Ev.chan).filterMap poolOf = [] := by
  rw [List.filterMap_map, List.filterMap_eq_nil_iff]
  exact fun _ _ => rfl

theorem mem_pool {e : Pool.Ev V} : e ∈ tr.filterMap poolOf ↔ .pool e ∈ tr := by
  rw [List.mem_filterMap]
  constructor
  · rintro ⟨x, hx, he⟩
    cases x <;> cases he
    exact hx
  · exact fun h => ⟨_, h, rfl⟩

/-- **The runtime runs as a pool of tasks does**, under a condition `D` if the steps of the runtime
meet it and those that the set and its trackers make there do. -/
theorem pool_run_of {D : List (Pool.Ev V) → Pool.Sys V → Pool.Op V → Prop} (h : Run step C new tr s)
    (hD : ∀ tr s op pop, C tr s op → (op = .pool pop ∨ ∀ j rop, pop ≠ .task j (.run rop)) →
      D (tr.filterMap poolOf) s.pool pop) :
    Run Pool.step D Pool.new (tr.filterMap poolOf) s.pool := by
  refine h.project (f := Sys.pool) (g := poolOf) ?_
  rintro tr s op s' es hC hs
  cases step_moved hs with
  | @pool pop _ _ _ hp =>
    rw [filterMap_pool]
    exact .inr ⟨_, hD tr s _ pop hC (.inl rfl), hp⟩
  | pends _ _ hp | yields _ _ hp | release _ _ hp =>
    rw [filterMap_pool]
    exact .inr ⟨_, hD tr s _ _ hC (.inr (by simp)), hp⟩
  | insert hop hp =>
    refine .inr ⟨_, hD tr s _ _ hC (.inr ?_), hp⟩
    rcases hop with ⟨b, -, rfl, -⟩ | ⟨k, -, rfl, -⟩ <;> simp
  | send | join =>
    rw [List.filterMap_cons_none rfl, filterMap_chan]
    exact .inl ⟨rfl, rfl⟩
  | close =>
    rw [filterMap_chan]
    exact .inl ⟨rfl, rfl⟩
  | nothing | waits | detach => exact .inl ⟨rfl, rfl⟩

theorem pool_run (h : Run step C new tr s) :
    Run Pool.step Any Pool.new (tr.filterMap poolOf) s.pool :=
  pool_run_of h fun _ _ _ _ _ _ => trivial

/-! ### Outcomes -/

/-- **The outcome of the task `j`**: what its runner sends, or that the runner is gone without. -/
def Outcome (tr : List (Ev V)) (j : ℕ) (r : Result V) : Prop :=
  .pool (.task j (.ran (.sends r))) ∈ tr ∨
    .pool (.task j (.ran .senderDropped)) ∈ tr ∧
      r = .error ⟨j, .other "task result channel closed"⟩

theorem Outcome.append (h : Outcome tr j r) : Outcome (tr ++ es) j r :=
  h.imp (List.mem_append_left _) fun h => ⟨List.mem_append_left _ h.1, h.2⟩

section handle
variable {k : Kind} {id : ℕ} {t t' : Handle.Sys V} {hop : Handle.Op V}
  {htr hes : List (Handle.Ev V)}

theorem gone_step {q q' : Runner.Sys V} {rop : Runner.Op V} {res : List (Runner.Ev V)}
    (h : Runner.step q rop = some (q', res)) (hg : q'.pc = .gone) :
    q.pc = .gone ∨ .senderDropped ∈ res := by
  have hwake : ∀ {w : Waker}, (q.wake w).1.pc = .gone → q.pc = .gone := by
    intro w hw
    exact Task.Moves.wake_ne hw (by simp)
  cases Task.Moves.step_moved h with
  | discard | dropPanicsTorn => exact .inr (by simp)
  | wake | give => exact .inl (hwake hg)
  | ready | panics => exact absurd hg Task.Moves.leave_ne.2.2
  | pending _ hp => exact absurd hg (Task.Moves.pended_ne hp).2.2
  | skip | resume => exact absurd hg Task.Moves.again_ne.2.2
  | abort | take | giveNone => exact .inl hg
  | _ => cases hg

/-- What the channel of a task holds was sent, and a runner that is gone has dropped its sender. -/
structure Source (htr : List (Handle.Ev V)) (t : Handle.Sys V) : Prop where
  value : ∀ r, t.inner.value = some r → .ran (.sends r) ∈ htr
  gone : t.runner.pc = .gone → .ran .senderDropped ∈ htr

theorem source_step (h : Source htr t) (hs : Handle.step t hop = some (t', hes)) :
    Source (htr ++ hes) t' := by
  have hold : ∀ r, t.inner.value = some r → .ran (.sends r) ∈ htr ++ hes :=
    fun r hr => List.mem_append_left _ (h.value r hr)
  have hgone : t.runner.pc = .gone → .ran .senderDropped ∈ htr ++ hes :=
    fun hg => List.mem_append_left _ (h.gone hg)
  cases Joins.step_moved hs with
  | quiet hr hq =>
    refine ⟨hold, fun hg => ?_⟩
    rcases gone_step hr hg with hg | hd
    · exact hgone hg
    · exact absurd (hq.loud _ hd) (by simp [Joins.loud])
  | @send _ q' r _ hr hpc ho =>
    refine ⟨fun r' hr' => ?_, fun hg => ?_⟩
    · unfold Oneshot.Shared.send at hr'
      simp only [if_true] at hr'
      split_ifs at hr'
      · exact hold r' hr'
      · obtain rfl : r = r' := Option.some.inj hr'
        exact List.mem_append_right _ List.mem_cons_self
    · rw [show q'.pc = .gone from hg] at ho
      cases ho
  | lose => exact ⟨hold, fun _ => by simp⟩
  | joined =>
    refine ⟨fun r hr => ?_, hgone⟩
    cases hr
  | closed | pends | isFinished | abortHandles | destroy => exact ⟨hold, hgone⟩
  | dropHandle =>
    refine ⟨fun r hr => hold r ?_, hgone⟩
    rwa [← Joins.dropReceiver_sender.1]

theorem source_run (h : Run Handle.step Any (Handle.new k id) htr t) : Source htr t := by
  refine h.inv ⟨nofun, fun hg => ?_⟩ fun _ _ _ _ _ hI _ hs => source_step hI hs
  cases k <;> cases hg

theorem outcome_of_yield (h : Run Handle.step Any (Handle.new k id) htr t) (hu : Joins.Unjoined htr)
    (hs : Handle.step t (.poll cx) = some (t', hes)) (hy : .yielded r ∈ hes) :
    .ran (.sends r) ∈ htr ∨
      .ran .senderDropped ∈ htr ∧ r = .error ⟨id, .other "task result channel closed"⟩ := by
  have hchan := Joins.chan_run h
  have hsource := source_run h
  have hid : t.runner.state.id = id := Aborts.id_run (Joins.runner_run_any h)
  cases Joins.step_moved hs with
  | joined hh hrx hv =>
    obtain rfl : r = _ := by simpa using hy
    exact .inl (hsource.value _ hv)
  | @closed _ rx hh hc =>
    obtain rfl : r = _ := by simpa using hy
    obtain ⟨hv, hclosed⟩ := hc (hchan.shared hu rx hh)
    -- the channel is closed from the side of the runner
    have hsender : t.inner.senderAlive = false := by
      rcases hclosed with hclosed | hclosed
      · exact hclosed
      · rw [hchan.alive rx hh] at hclosed
        cases hclosed
    by_cases hover : Aborts.isOver t.runner.pc = true
    · obtain ⟨r, -, hval⟩ := hchan.sent hover
      rw [hval hu rx hh] at hv
      cases hv
    · by_cases hg : t.runner.pc = .gone
      · exact .inr ⟨hsource.gone hg, by rw [hid]⟩
      · have := (hchan.opened (Bool.eq_false_iff.mpr hover) hg).2
        rw [hsender] at this
        cases this
  | pends | abortHandles => simp at hy

end handle

theorem outcomeOf_some {hes : List (Handle.Ev V)}
    (h : outcomeOf (hes.map (Pool.Ev.task j)) = some r) : .yielded r ∈ hes := by
  unfold outcomeOf at h
  obtain ⟨x, hx, he⟩ := List.exists_of_findSome?_eq_some h
  obtain ⟨e, hmem, rfl⟩ := List.mem_map.mp hx
  cases e <;> simp only [reduceCtorEq, Option.some.injEq] at he
  subst he
  exact hmem

theorem poll_of_yielded {p p' : Pool.Sys V} {pop : Pool.Op V} {pes : List (Pool.Ev V)}
    (hs : Pool.step p pop = some (p', pes)) (hy : .task j (.yielded r) ∈ pes) :
    ∃ cx, pop = .task j (.poll cx) := by
  cases Outcomes.step_moved hs with
  | spawn | dropSet => simp at hy
  | @task i e hop t' hes he ha hst =>
    obtain ⟨x, hx, hxe⟩ := List.mem_map.mp hy
    obtain ⟨rfl, rfl⟩ : i = j ∧ x = .yielded r := by simpa using hxe
    cases Joins.step_moved hst with
    | joined | closed => exact ⟨_, rfl⟩
    | _ => simp at hx

theorem tracked_outcome {C : List (Ev V) → Sys V → Op V → Prop} (h : Run step C new tr s)
    (hu : ∀ r, .pool (.task j (.yielded r)) ∉ tr) {p' : Pool.Sys V}
    {pes : List (Pool.Ev V)}
    (hs : Pool.step s.pool (.task j (.poll cx)) = some (p', pes)) (hr : outcomeOf pes = some r) :
    Outcome tr j r := by
  have hpool := pool_run h
  cases Outcomes.step_moved hs with
  | spawn => simp [outcomeOf] at hr
  | @task _ e hop t' hes he ha hst =>
    obtain ⟨kind, -, hrun⟩ := (Outcomes.handle_runs (D := Any) hpool
      fun _ _ _ _ _ _ _ => trivial).2 j e he
    have hmem : ∀ e : Handle.Ev V, e ∈ (tr.filterMap poolOf).filterMap (Outcomes.ofTask j) →
        .pool (.task j e) ∈ tr := by
      intro e he
      obtain ⟨x, hx, hxe⟩ := List.mem_filterMap.mp he
      rw [mem_pool] at hx
      rcases x with _ | ⟨i, e'⟩ | _
      · cases hxe
      · simp only [Outcomes.ofTask] at hxe
        split_ifs at hxe with hij
        cases hxe
        rw [← hij]
        exact hx
      · cases hxe
    have hunjoined : Joins.Unjoined ((tr.filterMap poolOf).filterMap (Outcomes.ofTask j)) :=
      fun r hr => hu r (hmem _ hr)
    rcases outcome_of_yield hrun hunjoined hst (outcomeOf_some hr) with ho | ⟨ho, rfl⟩
    · exact .inl (hmem _ ho)
    · exact .inr ⟨hmem _ ho, rfl⟩

end OhosFfrt.JoinSet.Moves
