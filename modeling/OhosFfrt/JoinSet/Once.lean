import Mathlib.Data.List.Nodup
import OhosFfrt.JoinSet.Moves
import OhosFfrt.Mpsc.Moves

/-!
# `task::JoinSet`: every task is joined once

The outcome of a task goes from its tracker through the channel to one of the calls that join, while
`pending` and `abort_handles` are kept by the set.  `Ledger` ties them together; `joined_once`
follows.
-/

namespace OhosFfrt.JoinSet.Once

open Basic Lib.Arena Lib.Runs List Option
open Mpsc.Shared (Inner unboundedSend addSender push)
open OhosFfrt.Task JoinSet.System JoinSet.Moves
open Task.Runner (Result)

variable {V : Type*} {s s' : Sys V} {op : Op V} {es tr : List (Ev V)} {t : Tracker V} {i : ℕ}
  {C : List (Ev V) → Sys V → Op V → Prop} {r : Result V} {p' : Pool.Sys V} {j : ℕ}
  {i' : Inner (ℕ × Result V)} {pes : List (Pool.Ev V)} {phase : Phase V}

/-! ### What a trace says -/

/-- The results the channel took, with their tasks. -/
def sentOf (tr : List (Ev V)) : List (ℕ × Result V) :=
  tr.filterMap fun
    | .sent j r .accepted => some (j, r)
    | _ => none

/-- The results the joins returned, with their tasks. -/
def joinedOf (tr : List (Ev V)) : List (ℕ × Result V) :=
  tr.filterMap fun
    | .joined _ j r _ => some (j, r)
    | _ => none

/-- The tasks inserted. -/
def insertedOf (tr : List (Ev V)) : List ℕ :=
  tr.filterMap fun
    | .inserted j => some j
    | _ => none

@[simp] theorem sentOf_append : sentOf (tr ++ es) = sentOf tr ++ sentOf es :=
  filterMap_append

@[simp] theorem joinedOf_append : joinedOf (tr ++ es) = joinedOf tr ++ joinedOf es :=
  filterMap_append

@[simp] theorem insertedOf_append : insertedOf (tr ++ es) = insertedOf tr ++ insertedOf es :=
  filterMap_append

theorem mem_joinedOf :
    (j, r) ∈ joinedOf tr ↔ ∃ call out, .joined call j r out ∈ tr := by
  unfold joinedOf
  rw [mem_filterMap]
  constructor
  · rintro ⟨x, hx, he⟩
    cases x <;> cases he
    exact ⟨_, _, hx⟩
  · rintro ⟨call, out, h⟩
    exact ⟨_, h, rfl⟩

theorem mem_insertedOf : j ∈ insertedOf tr ↔ .inserted j ∈ tr := by
  unfold insertedOf
  rw [mem_filterMap]
  constructor
  · rintro ⟨x, hx, he⟩
    cases x <;> simp only [reduceCtorEq, some.injEq] at he
    subst he
    exact hx
  · exact fun h => ⟨_, h, rfl⟩

/-- Nothing is inserted, sent or joined. -/
structure Silent (es : List (Ev V)) : Prop where
  sent : sentOf es = []
  joined : joinedOf es = []
  inserted : insertedOf es = []

theorem silent_pool (pes : List (Pool.Ev V)) : Silent (pes.map Ev.pool) := by
  constructor <;> simp [sentOf, joinedOf, insertedOf, filterMap_map]

theorem silent_chan (ces : List (Mpsc.Shared.Ev (ℕ × Result V))) : Silent (ces.map Ev.chan) := by
  constructor <;> simp [sentOf, joinedOf, insertedOf, filterMap_map]

/-! ### The ledger -/

/-- The task whose result the tracker has sent. -/
def told (t : Tracker V) : Option ℕ := if t.phase.hasSent then some t.task else none

/-- **Trackers, channel and trace agree** on who was inserted and who has sent. -/
structure Ledger (tr : List (Ev V)) (s : Sys V) : Prop where
  inserted : insertedOf tr = s.trackers.map Tracker.task
  tasks : (s.trackers.map Tracker.task).Nodup
  known : ∀ t ∈ s.trackers, t.task < s.pool.tasks.length
  fifo : sentOf tr = joinedOf tr ++ s.inner.queue
  told : ((sentOf tr).map Prod.fst).Perm (s.trackers.filterMap told)
  count : s.pending + (joinedOf tr).length = s.trackers.length
  senders : s.inner.senderCount = 1 + s.trackers.countP fun t => t.phase.hasSender
  alive : s.inner.receiverAlive = true

theorem ledger_new : Ledger [] (new : Sys V) where
  inserted := rfl
  tasks := nodup_nil
  known := nofun
  fifo := rfl
  told := .refl _
  count := rfl
  senders := rfl
  alive := rfl

theorem Ledger.keep (h : Ledger tr s) (hes : Silent es) (ht : s'.trackers = s.trackers)
    (hlen : s.pool.tasks.length ≤ s'.pool.tasks.length) (hq : s'.inner.queue = s.inner.queue)
    (hn : s'.pending = s.pending) (hc : s'.inner.senderCount = s.inner.senderCount)
    (hal : s'.inner.receiverAlive = s.inner.receiverAlive) : Ledger (tr ++ es) s' where
  inserted := by rw [insertedOf_append, hes.inserted, append_nil, h.inserted, ht]
  tasks := ht ▸ h.tasks
  known t ht' := Nat.lt_of_lt_of_le (h.known t (ht ▸ ht')) hlen
  fifo := by
    rw [sentOf_append, joinedOf_append, hes.sent, hes.joined, hq, append_nil, append_nil]
    exact h.fifo
  told := by
    rw [sentOf_append, hes.sent, append_nil, ht]
    exact h.told
  count := by
    rw [joinedOf_append, hes.joined, append_nil, ht, hn]
    exact h.count
  senders := by rw [hc, ht, h.senders]
  alive := hal.trans h.alive

theorem map_task_set (ht : s.trackers[i]? = some t) :
    (s.setPhase i t phase).trackers.map Tracker.task = s.trackers.map Tracker.task := by
  simp only [Sys.setPhase, map_set]
  apply set_get
  rw [getElem?_map, ht]
  rfl

theorem senders_set (phase : Phase V) (ht : s.trackers[i]? = some t) :
    ((s.trackers.set i { t with phase := phase }).countP fun t => t.phase.hasSender) +
        t.phase.hasSender.toNat =
      (s.trackers.countP fun t => t.phase.hasSender) + phase.hasSender.toNat :=
  countP_set (p := fun t : Tracker V => t.phase.hasSender) ht

theorem Ledger.setPhase (h : Ledger tr s) (ht : s.trackers[i]? = some t) (hes : Silent es)
    (hsent : phase.hasSent = t.phase.hasSent)
    (hlen : s.pool.tasks.length ≤ p'.tasks.length) (hq : i'.queue = s.inner.queue)
    (hc : i'.senderCount + t.phase.hasSender.toNat =
      s.inner.senderCount + phase.hasSender.toNat)
    (hal : i'.receiverAlive = s.inner.receiverAlive) :
    Ledger (tr ++ es) { s.setPhase i t phase with pool := p', inner := i' } where
  inserted := by
    rw [insertedOf_append, hes.inserted, append_nil, h.inserted]
    exact (map_task_set ht).symm
  tasks := by
    show ((s.setPhase i t phase).trackers.map Tracker.task).Nodup
    rw [map_task_set ht]
    exact h.tasks
  known x hx := by
    refine Nat.lt_of_lt_of_le ?_ hlen
    rcases mem_or_eq_of_mem_set hx with hx | rfl
    · exact h.known x hx
    · exact h.known t (mem_of_getElem? ht)
  fifo := by
    rw [sentOf_append, joinedOf_append, hes.sent, hes.joined, append_nil, append_nil]
    exact hq ▸ h.fifo
  told := by
    rw [sentOf_append, hes.sent, append_nil]
    have hset := perm_set (g := Once.told) (b := { t with phase := phase }) ht
    have heq : Once.told { t with phase := phase } = Once.told t := by
      unfold Once.told
      rw [hsent]
    rw [heq] at hset
    exact h.told.trans ((perm_append_right_iff _).mp hset).symm
  count := by
    rw [joinedOf_append, hes.joined, append_nil]
    show s.pending + _ = (s.trackers.set i _).length
    rw [length_set]
    exact h.count
  senders := by
    have hset := senders_set phase ht
    have hold := h.senders
    show i'.senderCount = 1 + (s.trackers.set i _).countP _
    omega
  alive := hal.trans h.alive

theorem Ledger.send (h : Ledger tr s) (ht : s.trackers[i]? = some t) (hp : t.phase = .holding r) :
    Ledger (tr ++ (.sent t.task r (unboundedSend s.inner (t.task, r)).1 ::
        (unboundedSend s.inner (t.task, r)).2.2.map .chan))
      { s.setPhase i t .sent with inner := (unboundedSend s.inner (t.task, r)).2.1 } := by
  have hsend : unboundedSend s.inner (t.task, r) = (.accepted, push s.inner (t.task, r)) := by
    simp [unboundedSend, h.alive]
  rw [hsend]
  have hchan := silent_chan (push s.inner (t.task, r)).2
  have hcons : ∀ es : List (Ev V), .sent t.task r .accepted :: es =
      [.sent t.task r .accepted] ++ es := fun _ => rfl
  refine ⟨?_, ?_, fun x hx => ?_, ?_, ?_, ?_, ?_, h.alive⟩
  · rw [hcons, insertedOf_append, insertedOf_append, hchan.inserted, h.inserted]
    exact ((map_task_set ht).trans (append_nil _).symm).symm
  · show ((s.setPhase i t .sent).trackers.map Tracker.task).Nodup
    rw [map_task_set ht]
    exact h.tasks
  · rcases mem_or_eq_of_mem_set hx with hx | rfl
    · exact h.known x hx
    · exact h.known t (mem_of_getElem? ht)
  · rw [hcons, sentOf_append, sentOf_append, joinedOf_append, joinedOf_append, hchan.sent,
      hchan.joined, h.fifo]
    simp [sentOf, joinedOf, push]
  · rw [hcons, sentOf_append, sentOf_append, hchan.sent, append_nil, map_append]
    have hset := perm_set (g := Once.told) (b := { t with phase := .sent }) ht
    have hnew : Once.told (V := V) { t with phase := .sent } = some t.task := rfl
    have hold : Once.told t = none := by
      unfold Once.told
      rw [hp]
      rfl
    rw [hnew, hold, toList_none, append_nil, toList_some] at hset
    exact (h.told.append_right _).trans hset.symm
  · rw [hcons, joinedOf_append, joinedOf_append, hchan.joined]
    show s.pending + _ = (s.trackers.set i _).length
    rw [length_set, ← h.count]
    simp [joinedOf]
  · have hset := senders_set .sent ht
    have hold := h.senders
    rw [hp, show (Phase.holding r).hasSender = (Phase.sent : Phase V).hasSender from rfl] at hset
    show s.inner.senderCount = 1 + (s.trackers.set i _).countP _
    omega

theorem Ledger.insert {k : Option ℕ} {handles : List ℕ} (h : Ledger tr s)
    (hlen : s.pool.tasks.length < p'.tasks.length) :
    Ledger (tr ++ [.pool (.created s.pool.tasks.length k), .inserted s.pool.tasks.length])
      { pool := p'
        inner := addSender s.inner
        pending := s.pending + 1
        abortHandles := handles
        trackers := s.trackers ++ [⟨s.pool.tasks.length, .waiting⟩] } where
  inserted := by
    rw [insertedOf_append, h.inserted, map_append]
    rfl
  tasks := by
    rw [map_append, map_singleton]
    refine List.Nodup.append h.tasks (nodup_singleton _) ?_
    intro j hj hj'
    obtain ⟨x, hx, rfl⟩ := mem_map.mp hj
    have hlt := h.known x hx
    have heq : x.task = s.pool.tasks.length := mem_singleton.mp hj'
    omega
  known x hx := by
    rcases mem_append.mp hx with hx | hx
    · exact Nat.lt_trans (h.known x hx) hlen
    · rw [mem_singleton.mp hx]
      exact hlen
  fifo := by
    rw [sentOf_append, joinedOf_append, h.fifo]
    show joinedOf tr ++ s.inner.queue ++ [] = joinedOf tr ++ [] ++ s.inner.queue
    rw [append_nil, append_nil]
  told := by
    rw [sentOf_append, filterMap_append]
    show ((sentOf tr ++ []).map Prod.fst).Perm (s.trackers.filterMap Once.told ++ [])
    rw [append_nil, append_nil]
    exact h.told
  count := by
    have hcount := h.count
    rw [joinedOf_append]
    show s.pending + 1 + (joinedOf tr ++ []).length = (s.trackers ++ [_]).length
    rw [append_nil, length_append, length_singleton]
    omega
  senders := by
    have hsenders := h.senders
    have hnew : ∀ x : Tracker V, x.phase.hasSender = true →
        [x].countP (fun t => t.phase.hasSender) = 1 := fun x hx => by simp [hx]
    show s.inner.senderCount + 1 = 1 + (s.trackers ++ [_]).countP _
    rw [countP_append, hnew _ rfl]
    omega
  alive := h.alive

theorem Ledger.join {call : Call} {n : ℕ} {q : List (ℕ × Result V)}
    {out : Output V} {handles : List ℕ}
    {ces : List (Mpsc.Shared.Ev (ℕ × Result V))} (h : Ledger tr s)
    (hq : s.inner.queue = (j, r) :: q) (hn : s.pending = n + 1) (hq' : i'.queue = q)
    (hc : i'.senderCount = s.inner.senderCount) (hal : i'.receiverAlive = s.inner.receiverAlive) :
    Ledger (tr ++ (.joined call j r out :: ces.map .chan))
      { s with inner := i', pending := n, abortHandles := handles } := by
  have hchan := silent_chan ces
  have hcons : ∀ es : List (Ev V), .joined call j r out :: es = [.joined call j r out] ++ es :=
    fun _ => rfl
  refine ⟨?_, h.tasks, h.known, ?_, ?_, ?_, hc.trans h.senders, hal.trans h.alive⟩
  · rw [hcons, insertedOf_append, insertedOf_append, hchan.inserted, h.inserted]
    simp [insertedOf]
  · rw [hcons, sentOf_append, sentOf_append, joinedOf_append, joinedOf_append, hchan.sent,
      hchan.joined, h.fifo, hq]
    simp [sentOf, joinedOf, hq']
  · rw [hcons, sentOf_append, sentOf_append, hchan.sent]
    simpa [sentOf] using h.told
  · have := h.count
    rw [hcons, joinedOf_append, joinedOf_append, hchan.joined]
    simp only [length_append, append_nil]
    have hone : (joinedOf [Ev.joined call j r out]).length = 1 := rfl
    omega

theorem length_pool {p : Pool.Sys V} {pop : Pool.Op V}
    (hs : Pool.step p pop = some (p', pes)) : p.tasks.length ≤ p'.tasks.length := by
  cases Outcomes.step_moved hs with
  | spawn => simp [Pool.Sys.spawn]
  | task => simp
  | dropSet => exact Nat.le_refl _

theorem ledger_step (h : Ledger tr s) (hs : step s op = some (s', es)) : Ledger (tr ++ es) s' := by
  cases step_moved hs with
  | pool _ hp | pends _ _ hp =>
    exact h.keep (silent_pool _) rfl (length_pool hp) rfl rfl rfl rfl
  | insert => exact h.insert (by simp [Pool.Sys.spawn])
  | yields ht hph hp =>
    refine h.setPhase ht (silent_pool _) ?_ (length_pool hp) rfl ?_ rfl <;> rw [hph] <;> rfl
  | release ht hph hp =>
    refine h.setPhase ht (silent_pool _) ?_ (length_pool hp) rfl ?_ rfl <;>
      rcases hph with ⟨r, cx, -, hph, rfl⟩ | ⟨-, hph, rfl, -⟩ <;> rw [hph] <;> rfl
  | send ht hph => exact h.send ht hph
  | close ht hph hd =>
    obtain ⟨n, w, hn, rfl, -⟩ := Mpsc.Moves.dropSender_some hd
    refine h.setPhase ht (silent_chan _) ?_ (Nat.le_refl _) rfl ?_ rfl <;>
      rcases hph with ⟨hph, rfl⟩ | ⟨hph, rfl⟩ <;> rw [hph]
    · rfl
    · rfl
    · exact hn.symm
    · exact hn.symm
  | join _ hq hn => exact h.join hq hn rfl rfl rfl
  | nothing | waits | detach =>
    refine h.keep ⟨rfl, rfl, rfl⟩ rfl (Nat.le_refl _) rfl rfl rfl rfl

/-- **The ledger is kept.** -/
theorem ledger_run (h : Run step C new tr s) :
    Ledger tr s :=
  h.inv ledger_new fun _ _ _ _ _ hI _ hs => ledger_step hI hs

theorem told_sublist : ∀ l : List (Tracker V), (l.filterMap told).Sublist (l.map Tracker.task)
  | [] => .slnil
  | t :: l => by
    have ih := told_sublist l
    by_cases h : t.phase.hasSent = true
    · rw [filterMap_cons_some (show Once.told t = some t.task from if_pos h), map_cons]
      exact ih.cons_cons _
    · rw [filterMap_cons_none (show Once.told t = none from if_neg h), map_cons]
      exact ih.cons _

theorem Ledger.sent_nodup (h : Ledger tr s) : ((sentOf tr).map Prod.fst).Nodup :=
  h.told.nodup_iff.mpr (h.tasks.sublist (told_sublist _))

theorem Ledger.sent_mem (h : Ledger tr s) (hj : j ∈ (sentOf tr).map Prod.fst) :
    j ∈ s.trackers.map Tracker.task :=
  (told_sublist _).subset (h.told.subset hj)

theorem Ledger.queued {q : List (ℕ × Result V)} (h : Ledger tr s)
    (hq : s.inner.queue = (j, r) :: q) :
    j ∈ s.trackers.map Tracker.task ∧ j ∉ (joinedOf tr).map Prod.fst := by
  have hnodup := h.sent_nodup
  rw [h.fifo, hq, map_append, map_cons] at hnodup
  refine ⟨h.sent_mem ?_, fun hj => ?_⟩
  · rw [h.fifo, hq]
    simp
  · exact (nodup_append.mp hnodup).2.2 j hj j mem_cons_self rfl

/-! ### Outcomes -/

/-- **What trackers hold and have sent is the outcome of their task.** -/
structure Faithful (tr : List (Ev V)) (s : Sys V) : Prop where
  fresh : ∀ t ∈ s.trackers, t.phase = .waiting → ∀ r, .pool (.task t.task (.yielded r)) ∉ tr
  held : ∀ t ∈ s.trackers, ∀ r, t.phase = .yielded r ∨ t.phase = .holding r →
    Outcome tr t.task r
  sent : ∀ x ∈ sentOf tr, Outcome tr x.1 x.2

theorem faithful_new : Faithful [] (new : Sys V) := ⟨nofun, nofun, nofun⟩

theorem Faithful.keep (h : Faithful tr s) (ht : s'.trackers = s.trackers) (hsent : sentOf es = [])
    (hy : ∀ t ∈ s.trackers, ∀ r, t.phase = .waiting → .pool (.task t.task (.yielded r)) ∉ es) :
    Faithful (tr ++ es) s' where
  fresh t ht' hp r hr := by
    rw [ht] at ht'
    rcases mem_append.mp hr with hr | hr
    · exact h.fresh t ht' hp r hr
    · exact hy t ht' r hp hr
  held t ht' r hr := (h.held t (ht ▸ ht') r hr).append
  sent x hx := by
    rw [sentOf_append, hsent, append_nil] at hx
    exact (h.sent x hx).append

theorem Faithful.insert (h : Faithful tr s) (ht : s'.trackers = s.trackers ++ [t])
    (hw : t.phase = .waiting) (hnew : ∀ r, .pool (.task t.task (.yielded r)) ∉ tr)
    (hsent : sentOf es = []) (hy : ∀ j r, .pool (.task j (.yielded r)) ∉ es) :
    Faithful (tr ++ es) s' where
  fresh x hx hp r hr := by
    rw [ht] at hx
    have hr := (mem_append.mp hr).resolve_right (hy x.task r)
    rcases mem_append.mp hx with hx | hx
    · exact h.fresh x hx hp r hr
    · rw [mem_singleton.mp hx] at hr
      exact hnew r hr
  held x hx r hr := by
    rw [ht] at hx
    rcases mem_append.mp hx with hx | hx
    · exact (h.held x hx r hr).append
    · rw [mem_singleton.mp hx, hw] at hr
      simp at hr
  sent x hx := by
    rw [sentOf_append, hsent, append_nil] at hx
    exact (h.sent x hx).append

theorem Faithful.setPhase (h : Faithful tr s) (ht : s.trackers[i]? = some t) (hw : phase ≠ .waiting)
    (hphase : ∀ r, phase = .yielded r ∨ phase = .holding r → Outcome tr t.task r)
    (hsent : ∀ x ∈ sentOf es, Outcome tr x.1 x.2)
    (hy : ∀ x ∈ s.trackers, ∀ r, x ≠ t → x.phase = .waiting →
      .pool (.task x.task (.yielded r)) ∉ es) (hnodup : (s.trackers.map Tracker.task).Nodup) :
    Faithful (tr ++ es) { s.setPhase i t phase with pool := p', inner := i' } where
  fresh x hx hp r hr := by
    obtain ⟨k, hk⟩ := mem_iff_getElem?.mp hx
    rcases of_set ht hk with ⟨-, rfl⟩ | ⟨hne, hold⟩
    · exact hw hp
    · have hmem := mem_of_getElem? hold
      have hxt : x ≠ t := by
        rintro rfl
        exact hne ((List.getElem?_inj (lt_length hold)
          (List.Nodup.of_map _ hnodup)).mp (hold.trans ht.symm))
      rcases mem_append.mp hr with hr | hr
      · exact h.fresh x hmem hp r hr
      · exact hy x hmem r hxt hp hr
  held x hx r hr := by
    rcases mem_or_eq_of_mem_set hx with hx | rfl
    · exact (h.held x hx r hr).append
    · exact (hphase r hr).append
  sent x hx := by
    rw [sentOf_append] at hx
    rcases mem_append.mp hx with hx | hx
    · exact (h.sent x hx).append
    · exact (hsent x hx).append

theorem task_ne {x : Tracker V} (hnodup : (s.trackers.map Tracker.task).Nodup)
    (ht : t ∈ s.trackers) (hx : x ∈ s.trackers) (hne : x ≠ t) : x.task ≠ t.task :=
  fun h => hne (inj_on_of_nodup_map hnodup hx ht h)

theorem yielded_other {p : Pool.Sys V} {pop : Pool.Op V} (hs : Pool.step p pop = some (p', pes))
    (hne : ∀ cx, pop ≠ .task j (.poll cx)) : .pool (.task j (.yielded r)) ∉ pes.map Ev.pool := by
  intro hmem
  obtain ⟨x, hx, hxe⟩ := mem_map.mp hmem
  cases hxe
  obtain ⟨cx, hcx⟩ := poll_of_yielded hs hx
  exact hne cx hcx

theorem yielded_tracker {x : Tracker V} {hop : Handle.Op V}
    (hnodup : (s.trackers.map Tracker.task).Nodup)
    (ht : s.trackers[i]? = some t) (hx : x ∈ s.trackers) (hne : x ≠ t)
    (hp : Pool.step s.pool (.task t.task hop) = some (p', pes)) :
    .pool (.task x.task (.yielded r)) ∉ pes.map Ev.pool := by
  refine yielded_other hp fun cx heq => ?_
  simp only [Pool.Op.task.injEq] at heq
  exact task_ne hnodup (mem_of_getElem? ht) hx hne heq.1.symm

theorem yielded_chan (ces : List (Mpsc.Shared.Ev (ℕ × Result V))) (j : ℕ) (r : Result V) :
    .pool (.task j (.yielded r)) ∉ ces.map Ev.chan := by
  intro hmem
  obtain ⟨x, -, hx⟩ := mem_map.mp hmem
  cases hx

theorem faithful_step (hrun : Run step C new tr s)
    (h : Faithful tr s) (hs : step s op = some (s', es)) : Faithful (tr ++ es) s' := by
  have hL := ledger_run hrun
  cases step_moved hs with
  | pool hl hp =>
    refine h.keep rfl (silent_pool _).sent fun t ht r _ => yielded_other hp fun cx heq => ?_
    subst heq
    have htracks : s.tracks t.task = true := by
      simp only [Sys.tracks, List.any_eq_true, decide_eq_true_eq]
      exact ⟨t, ht, rfl⟩
    simp [Sys.leaves, htracks] at hl
  | insert =>
    refine h.insert rfl rfl (fun r hr => ?_) rfl (by simp)
    -- the task is new
    have hlt := (Outcomes.handle_runs (D := Any) (pool_run hrun)
      fun _ _ _ _ _ _ _ => trivial).1 _ _ (mem_pool.mpr hr)
    exact Nat.lt_irrefl _ hlt
  | @pends i cx t p' pes ht hph hp hn =>
    have hmem := List.mem_of_getElem? ht
    refine h.keep rfl (silent_pool _).sent fun x hx r hw => ?_
    by_cases hxt : x = t
    · subst hxt
      intro hy
      obtain ⟨e, he, hee⟩ := mem_map.mp hy
      cases hee
      exact absurd (findSome?_eq_none_iff.mp hn _ he) (by simp)
    · exact yielded_tracker hL.tasks ht hx hxt hp
  | @yields i cx t p' pes r ht hph hp hr =>
    have hmem := mem_of_getElem? ht
    refine h.setPhase ht (by simp) ?_ ?_
      (fun x hx r hne _ => yielded_tracker hL.tasks ht hx hne hp) hL.tasks
    · rintro r' (hr' | hr')
      · cases hr'
        exact tracked_outcome hrun (h.fresh t hmem hph) hp hr
      · cases hr'
    · rw [(silent_pool pes).sent]
      nofun
  | @release _ i t phase p' pes ht hph hp =>
    have hmem := mem_of_getElem? ht
    refine h.setPhase ht ?_ ?_ ?_
      (fun x hx r hne _ => yielded_tracker hL.tasks ht hx hne hp) hL.tasks
    · rcases hph with ⟨r, cx, -, -, rfl⟩ | ⟨-, -, rfl, -⟩ <;> simp
    · rintro r' hr'
      rcases hph with ⟨r, cx, -, hph, rfl⟩ | ⟨-, -, rfl, -⟩
      · simp only [reduceCtorEq, false_or, Phase.holding.injEq] at hr'
        subst hr'
        exact h.held t hmem r (.inl hph)
      · simp at hr'
    · rw [(silent_pool pes).sent]
      nofun
  | @send i cx t r ht hph =>
    have hmem := mem_of_getElem? ht
    have ho := h.held t hmem r (.inr hph)
    have hsend : unboundedSend s.inner (t.task, r) = (.accepted, push s.inner (t.task, r)) := by
      simp [unboundedSend, hL.alive]
    rw [hsend]
    refine h.setPhase ht (by simp) (by simp) (fun x hx => ?_) (fun x _ r' _ _ hy => ?_) hL.tasks
    · obtain rfl : x = (t.task, r) := by
        rw [show sentOf _ = (t.task, r) :: sentOf _ from rfl, (silent_chan _).sent] at hx
        exact mem_singleton.mp hx
      exact ho
    · rcases mem_cons.mp hy with hy | hy
      · cases hy
      · exact yielded_chan _ _ _ hy
  | @close i cx t phase i' ces ht hph =>
    refine h.setPhase ht ?_ ?_ ?_ (fun x _ r _ _ => yielded_chan ces _ r) hL.tasks
    · rcases hph with ⟨-, rfl⟩ | ⟨-, rfl⟩ <;> simp
    · rcases hph with ⟨-, rfl⟩ | ⟨-, rfl⟩ <;> simp
    · rw [(silent_chan ces).sent]
      nofun
  | @join _ call j n r q ws ces =>
    refine h.keep rfl ?_ fun t _ r' _ hy => ?_
    · exact (silent_chan ces).sent
    · rcases mem_cons.mp hy with hy | hy
      · cases hy
      · exact yielded_chan _ _ _ hy
  | nothing | waits | detach => exact h.keep rfl rfl fun _ _ _ _ => by simp

theorem faithful_run (h : Run step C new tr s) :
    Faithful tr s := by
  induction h with
  | nil => exact faithful_new
  | snoc hrun _ hs ih => exact faithful_step hrun ih hs

/-! ### The abort handles -/

theorem perm_removeAbortHandle {handles : List ℕ} (h : j ∈ handles) :
    handles.Perm (j :: removeAbortHandle handles j) := by
  unfold removeAbortHandle
  split
  · next p hp =>
    obtain ⟨hlt, heq, -⟩ := findIdx?_eq_some_iff_getElem.mp hp
    have hget : handles[p]? = some j := by
      rw [getElem?_eq_getElem hlt]
      simpa using heq
    exact perm_swapRemove hget
  · next hp =>
    exact absurd (findIdx?_eq_none_iff.mp hp j h) (by simp)

/-- No call of `detach_all`. -/
def NoDetach (_ : List (Ev V)) (_ : Sys V) (op : Op V) : Prop := op ≠ .detachAll

instance (tr : List (Ev ℕ)) (s : Sys ℕ) (op : Op ℕ) : Decidable (NoDetach tr s op) :=
  inferInstanceAs (Decidable (op ≠ .detachAll))

/-- The handles are those of the tasks not joined. -/
theorem handles_run (h : Run step NoDetach new tr s) :
    (s.abortHandles ++ (joinedOf tr).map Prod.fst).Perm (s.trackers.map Tracker.task) := by
  induction h with
  | nil => exact .refl _
  | @snoc tr s op s' es hrun hC hs ih =>
    have hL := ledger_run hrun
    -- neither the handles nor what is joined change
    have hkeep : joinedOf es = [] → s'.abortHandles = s.abortHandles →
        s'.trackers.map Tracker.task = s.trackers.map Tracker.task →
        (s'.abortHandles ++ (joinedOf (tr ++ es)).map Prod.fst).Perm
          (s'.trackers.map Tracker.task) := by
      intro hes ha ht
      rw [joinedOf_append, hes, append_nil, ha, ht]
      exact ih
    cases step_moved hs with
    | pool | pends => exact hkeep (silent_pool _).joined rfl rfl
    | yields ht | release ht => exact hkeep (silent_pool _).joined rfl (map_task_set ht)
    | send ht | close ht => exact hkeep (silent_chan _).joined rfl (map_task_set ht)
    | nothing | waits => exact hkeep rfl rfl rfl
    | insert =>
      rw [joinedOf_append, show joinedOf [Ev.pool (.created _ _), .inserted _] = [] from rfl,
        append_nil, map_append, map_singleton]
      have hswap := List.Perm.append_right [s.pool.tasks.length] ih
      refine List.Perm.trans ?_ hswap
      rw [append_assoc, append_assoc]
      exact perm_append_comm.append_left _
    | @join _ call j n r q ws ces hop hq =>
      obtain ⟨hmem, hnot⟩ := hL.queued hq
      have hj : j ∈ s.abortHandles := by
        rcases mem_append.mp (ih.mem_iff.mpr hmem) with hj | hj
        · exact hj
        · exact absurd hj hnot
      have hjoined : (joinedOf (tr ++ (Ev.joined call j r (call.output j r) ::
          ces.map Ev.chan))).map Prod.fst = (joinedOf tr).map Prod.fst ++ [j] := by
        rw [joinedOf_append, show joinedOf (Ev.joined call j r (call.output j r) ::
          ces.map Ev.chan) = (j, r) :: joinedOf (ces.map Ev.chan) from rfl, (silent_chan _).joined,
          map_append]
        rfl
      rw [hjoined]
      refine List.Perm.trans ?_ ih
      refine List.Perm.trans ?_ ((perm_removeAbortHandle hj).append_right _).symm
      rw [← append_assoc]
      exact perm_append_singleton j _
    | detach => exact absurd rfl hC

/-! ### Joining -/

theorem poll_nothing (h : Ledger tr s) (b : Bool) (cx : Waker) :
    ∃ s' es, step s (.poll b cx) = some (s', es) ∧ ((∃ call, .nothing call ∈ es) ↔ s.len = 0) := by
  have hfin : s.inner.finished = false := by
    rw [Mpsc.Moves.finished_eq_false, h.senders]
    exact ⟨by omega, .inl h.alive⟩
  simp only [step, Sys.pollJoinNext, Sys.len]
  by_cases hp : s.pending = 0
  · rw [if_pos hp]
    exact ⟨_, _, rfl, by simp [hp]⟩
  · rw [if_neg hp]
    unfold Mpsc.Shared.pollRecvShared Mpsc.Shared.take Sys.receive
    rcases hq : s.inner.queue with _ | ⟨⟨j, r⟩, q⟩
    · rw [hfin]
      exact ⟨_, _, rfl, by simp [hp]⟩
    · have hsub : checkedSub s.pending 1 = some (s.pending - 1) := by
        unfold checkedSub
        rw [if_pos (by omega)]
      refine ⟨_, _, by simp only [if_true, hsub, map_some]; rfl, ?_⟩
      simp [hp]

theorem output_of_joined (h : Run step C new tr s)
    {call : Call} {out : Output V} (hj : .joined call j r out ∈ tr) :
    out = call.output j r := by
  refine h.inv (I := fun tr _ => ∀ call j r out, .joined call j r out ∈ tr →
    out = call.output j r) nofun ?_ call j r out hj
  rintro tr s op s' es hI - hs call j r out hmem
  rcases mem_append.mp hmem with hmem | hmem
  · exact hI call j r out hmem
  · cases step_moved hs with
    | pool | pends | yields | release | close =>
      obtain ⟨x, -, hx⟩ := mem_map.mp hmem
      cases hx
    | send =>
      rcases mem_cons.mp hmem with hmem | hmem
      · cases hmem
      · obtain ⟨x, -, hx⟩ := mem_map.mp hmem
        cases hx
    | join =>
      rcases mem_cons.mp hmem with hmem | hmem
      · cases hmem
        rfl
      · obtain ⟨x, -, hx⟩ := mem_map.mp hmem
        cases hx
    | insert | nothing | waits | detach => simp at hmem

/-- **Every task is joined once.**  In every run without `detach_all`, whatever is inserted and in
whatever order the tasks complete, are aborted and are joined by the four calls:

* the tasks that are joined are different ones, and were inserted;
* each is joined with its outcome, which the calls with id return together with the id of the task
  if it is a value;
* `len` and the number of joined tasks add up to the number of inserted ones;
* `abort_handles` has one handle for each task that is not joined, and no other;
* a poll returns `None` if and only if `len` is 0. -/
theorem joined_once (h : Run step NoDetach new tr s) :
    ((joinedOf tr).map Prod.fst).Nodup ∧
    (∀ call j r out, .joined call j r out ∈ tr →
      .inserted j ∈ tr ∧ Outcome tr j r ∧ out = call.output j r) ∧
    (joinedOf tr).length + s.len = (insertedOf tr).length ∧
    s.abortHandles.Nodup ∧
    (∀ j, j ∈ s.abortHandles ↔ .inserted j ∈ tr ∧ j ∉ (joinedOf tr).map Prod.fst) ∧
    ∀ b cx, ∃ s' es, step s (.poll b cx) = some (s', es) ∧
      ((∃ call, .nothing call ∈ es) ↔ s.len = 0) := by
  have hL := ledger_run h
  have hF := faithful_run h
  have hH := handles_run h
  have hsent : ∀ x ∈ joinedOf tr, x ∈ sentOf tr := by
    intro x hx
    rw [hL.fifo]
    exact mem_append_left _ hx
  have hnodup : ((joinedOf tr).map Prod.fst).Nodup := by
    have := hL.sent_nodup
    rw [hL.fifo, map_append] at this
    exact (nodup_append.mp this).1
  have hinserted : ∀ j, .inserted j ∈ tr ↔ j ∈ s.trackers.map Tracker.task := by
    intro j
    rw [← mem_insertedOf, hL.inserted]
  have hboth := hH.nodup_iff.mpr hL.tasks
  refine ⟨hnodup, fun call j r out hj => ?_, ?_, (nodup_append.mp hboth).1, fun j => ?_,
    poll_nothing hL⟩
  · have hmem := hsent _ (mem_joinedOf.mpr ⟨call, out, hj⟩)
    refine ⟨(hinserted j).mpr (hL.sent_mem (mem_map_of_mem hmem)), hF.sent _ hmem, ?_⟩
    exact output_of_joined h hj
  · have := hL.count
    rw [hL.inserted, length_map, Sys.len]
    omega
  · rw [hinserted j, ← hH.mem_iff, mem_append]
    constructor
    · intro hj
      refine ⟨.inl hj, fun hj' => ?_⟩
      exact (nodup_append.mp hboth).2.2 j hj j hj' rfl
    · rintro ⟨hj | hj, hnot⟩
      · exact hj
      · exact absurd hj hnot

/-- An async task and a blocking one, which completes first and is joined. -/
def twoTasks : List (Op ℕ) :=
  [.spawn false, .spawn true, .pool (.task 1 (.run .start)), .pool (.task 1 (.run .advance)),
    .pool (.task 1 (.run .advance)), .pool (.task 1 (.run (.ready 7))),
    .pool (.task 1 (.run .advance)), .pool (.task 1 (.run .advance)), .tracker 0 3,
    .pool (.task 1 (.run .advance)), .tracker 1 4, .tracker 1 4, .tracker 1 4, .tryJoin true]

theorem joined_once_two : ∃ (s : Sys ℕ) (tr : List (Ev ℕ)), Run step NoDetach new tr s ∧
    .joined .tryJoinNextWithId 1 (.ok 7) (.withId (.ok (1, 7))) ∈ tr ∧ s.len = 1 ∧
    s.abortHandles = [0] ∧ (joinedOf tr).length + s.len = (insertedOf tr).length := by
  refine ⟨_, _, run_execIf twoTasks .nil rfl, by decide, rfl, rfl, ?_⟩
  exact (joined_once (run_execIf twoTasks .nil rfl)).2.2.1

end OhosFfrt.JoinSet.Once
