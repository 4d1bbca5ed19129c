import OhosFfrt.Local.Moves
import OhosFfrt.Lib.Traces

/-!
# `task::LocalSet` loses and repeats no task

The tasks of a set are in its queue or in the hands of its polls: a poll holds the queue it has
detached, and the task it is polling.  The loop of `poll_tasks` rotates the detached queue
(`Progress`), and the set keeps its tasks (`tasks_conserved`).
-/

namespace OhosFfrt.Local.Tasks

open Lib.Runs Local.System Local.Moves List

variable {home : ℕ → ℕ} {s s' : Sys} {op : Op} {es tr : List Ev} {k c t : ℕ} {l l' : LocalSet}
  {f : Frame} {p : Option Phase} {C : List Ev → Sys → Op → Prop} {q : List ℕ}

/-! ### Where the tasks are -/

/-- The tasks a poll has taken out. -/
def held : Phase → List ℕ
  | .tasks queue _ => queue
  | .task t queue _ => t :: queue
  | _ => []

/-- The tasks of the set `k`. -/
def owned (home : ℕ → ℕ) (s : Sys) (k : ℕ) : List ℕ :=
  (s.sets k).tasks ++ (frames home s k).flatMap fun f => held f.phase

/-- What happens to the tasks of a set in a step. -/
inductive Change (k next : ℕ) (before after : List ℕ) : List Ev → Prop
  | kept {es : List Ev} (hp : after.Perm before) (hs : ∀ t, .spawned k t ∉ es)
      (hf : ∀ c t, .finished c k t ∉ es) : Change k next before after es
  | added (hp : after.Perm (next :: before)) :
      Change k next before after [.spawned k next, .notified k next]
  | removed {c t : ℕ} (hp : before.Perm (t :: after)) : Change k next before after [.finished c k t]

theorem held_entered (kind : Kind) : held kind.entered = [] := by
  cases kind <;> rfl

theorem turn_change (next : ℕ) (h : Turn l f l' p es) (r : List ℕ) :
    Change f.set next (l.tasks ++ (held f.phase ++ r)) (l'.tasks ++ ((p.elim [] held) ++ r))
      es := by
  cases h with
  | finish hp =>
    refine .removed ?_
    simp only [hp, held, Option.elim]
    exact perm_middle
  | pend hp =>
    refine .kept ?_ (by simp) (by simp)
    simp only [hp, held, Option.elim]
    exact ((perm_append_singleton _ _).append_right r).append_left _
  | loop hp =>
    refine .kept ?_ (by simp) (by simp)
    simp [hp, held]
  | swap hp =>
    refine .kept ?_ (by simp) (by simp)
    rcases hn : l.notified <;> simp [hp, held]
  | enter hp =>
    refine .kept ?_ (by simp) (by simp)
    rw [hp, Option.elim, held_entered]
    rfl
  | mainReady hp | mainPending hp | mainPanics hp | take hp | pick hp | selfWake hp | empty hp
  | pending hp | clear hp => exact .kept (by simp [hp, held]) (by simp) (by simp)

theorem owned_seen (h : Seen home k s s' es) :
    Change k s.next (owned home s k) (owned home s' k) es := by
  unfold owned
  cases h with
  | idle ht hr hn hf he =>
    rw [ht, hf]
    exact .kept (List.Perm.refl _) (fun t ht => he _ ht rfl) (fun c t ht => he _ ht rfl)
  | poll hs hf | notify hs hf =>
    rw [hs, hf]
    exact .kept (List.Perm.refl _) (by simp) (by simp)
  | @turn f r p es hf hk ho ht hf' =>
    subst hk
    have h := turn_change s.next ht (r.flatMap fun f => held f.phase)
    rw [hf, hf', flatMap_cons]
    rcases p with _ | p
    · exact h
    · exact h
  | spawn hs hf =>
    rw [hs, hf]
    refine .added ?_
    rw [append_assoc]
    exact perm_middle
  | taken ht hr hn hf =>
    rw [ht, hf]
    exact .kept (List.Perm.refl _) nofun nofun

/-- **The tasks of a set are those that were spawned and have not finished**, each once. -/
structure Conserved (k next : ℕ) (tr : List Ev) (tasks : List ℕ) : Prop where
  nodup : tasks.Nodup
  mem : ∀ t, t ∈ tasks ↔ .spawned k t ∈ tr ∧ ∀ c, .finished c k t ∉ tr
  fresh : ∀ t, .spawned k t ∈ tr → t < next
  spawned : ∀ c t, .finished c k t ∈ tr → .spawned k t ∈ tr

theorem Conserved.change {next next' : ℕ} {before after : List ℕ} (h : Conserved k next tr before)
    (hc : Change k next before after es) (hle : next ≤ next')
    (hlt : (∃ t, .spawned k t ∈ es) → next < next') : Conserved k next' (tr ++ es) after := by
  cases hc with
  | kept hp hs hf =>
    refine ⟨hp.nodup_iff.mpr h.nodup, fun t => ?_, fun t ht => ?_, fun c t ht => ?_⟩
    · rw [hp.mem_iff, h.mem t]
      simp [hs t, hf]
    · have := h.fresh t (by simpa [hs t] using ht)
      omega
    · have := h.spawned c t (by simpa [hf c t] using ht)
      exact mem_append_left _ this
  | added hp =>
    have hnew : next ∉ before := by
      intro hmem
      have := h.fresh next ((h.mem next).mp hmem).1
      omega
    have hunfinished : ∀ c, .finished c k next ∉ tr := by
      intro c hfin
      have := h.fresh next (h.spawned c next hfin)
      omega
    refine ⟨hp.nodup_iff.mpr (nodup_cons.mpr ⟨hnew, h.nodup⟩), fun t => ?_, fun t ht => ?_,
      fun c t ht => ?_⟩
    · rw [hp.mem_iff, mem_cons, h.mem t]
      by_cases ht : t = next
      · subst ht
        simp [hunfinished]
      · simp [ht]
    · have hlt' : next < next' := hlt ⟨next, by simp⟩
      rcases mem_append.mp ht with ht | ht
      · have := h.fresh t ht
        omega
      · have htn : t = next := by simpa using ht
        omega
    · have := h.spawned c t (by simpa using ht)
      exact mem_append_left _ this
  | @removed c t hp =>
    have hnodup : t ∉ after ∧ after.Nodup := nodup_cons.mp (hp.nodup_iff.mp h.nodup)
    have hold : .spawned k t ∈ tr := ((h.mem t).mp (hp.mem_iff.mpr mem_cons_self)).1
    refine ⟨hnodup.2, fun u => ?_, fun u hu => ?_, fun c' u hu => ?_⟩
    · by_cases hu : u = t
      · subst hu
        simp only [hnodup.1, false_iff, not_and, not_forall]
        exact fun _ => ⟨c, by simp⟩
      · have hiff : u ∈ before ↔ u ∈ after := by rw [hp.mem_iff, mem_cons]; simp [hu]
        rw [← hiff, h.mem u]
        simp [hu]
    · have := h.fresh u (by simpa using hu)
      omega
    · rcases mem_append.mp hu with hu | hu
      · exact mem_append_left _ (h.spawned c' u hu)
      · simp only [mem_singleton, Ev.finished.injEq] at hu
        obtain ⟨-, -, rfl⟩ := hu
        exact mem_append_left _ hold

theorem turn_spawned (h : Turn l f l' p es) : .spawned k t ∉ es := by
  cases h <;> simp

theorem next_lt (h : Seen home k s s' es) (hx : ∃ t, .spawned k t ∈ es) : s.next < s'.next := by
  obtain ⟨t, hx⟩ := hx
  cases h with
  | idle _ _ _ _ he => exact absurd rfl (he _ hx)
  | turn _ _ _ ht => exact (turn_spawned ht hx).elim
  | spawn => omega
  | poll | notify => simp at hx
  | taken => cases hx

/-- No task is lost or doubled. -/
theorem conserved_run (k : ℕ) (h : Run (step home) C new tr s) :
    Conserved k s.next tr (owned home s k) := by
  refine (h.along (I := fun _ s => Nested home s) fun _ _ => nested_run).inv
    (I := fun tr s => Conserved k s.next tr (owned home s k)) ?_ ?_
  · exact ⟨nodup_nil, by simp [owned, new, LocalSet.new, frames], by simp, by simp⟩
  · rintro tr s op s' es hI ⟨-, hn⟩ hs
    have hseen := step_seen hn k hs
    exact hI.change (owned_seen hseen) (next_le hs) (next_lt hseen)

/-! ### The rounds of a poll -/

/-- The tasks of the set `k` that the poll number `c` has polled, in order. -/
def polledIn (c k : ℕ) (tr : List Ev) : List ℕ :=
  tr.filterMap fun
    | .polled c' k' t => if c' = c ∧ k' = k then some t else none
    | _ => none

theorem polledIn_append (c k : ℕ) (tr es : List Ev) :
    polledIn c k (tr ++ es) = polledIn c k tr ++ polledIn c k es :=
  filterMap_append ..

theorem polledIn_eq_nil (h : ∀ t, .polled c k t ∉ es) : polledIn c k es = [] := by
  refine filterMap_eq_nil_iff.mpr fun e he => ?_
  split
  · next c' k' t =>
    refine if_neg ?_
    rintro ⟨rfl, rfl⟩
    exact h t he
  · rfl

theorem polledIn_quiet (h : ∀ t, .polled c k t ∉ es) :
    polledIn c k (tr ++ es) = polledIn c k tr := by
  rw [polledIn_append, polledIn_eq_nil h, append_nil]

theorem polledIn_singleton : polledIn c k [.polled c k t] = [t] := by
  simp [polledIn]

/-- **How far a poll is**: with `rounds` to go, what it has polled and the first `rounds` tasks of
its queue are what it took. -/
def Progress (k : ℕ) (tr : List Ev) (f : Frame) : Prop :=
  match f.phase with
  | .enter | .main | .take => polledIn f.call k tr = [] ∧ ∀ q, .took f.call k q ∉ tr
  | .tasks queue rounds | .task _ queue rounds => rounds ≤ queue.length ∧
      ∀ q, .took f.call k q ∈ tr → q.Nodup ∧ polledIn f.call k tr ++ queue.take rounds = q
  | .swap | .selfWake | .test | .clear =>
      ∀ q, .took f.call k q ∈ tr → q.Nodup ∧ polledIn f.call k tr = q

theorem Progress.append (h : Progress k tr f) (hpolled : ∀ t, .polled f.call k t ∉ es)
    (htook : ∀ q, .took f.call k q ∉ es) : Progress k (tr ++ es) f := by
  have heq : polledIn f.call k (tr ++ es) = polledIn f.call k tr := polledIn_quiet hpolled
  have hmem : ∀ q, .took f.call k q ∈ tr ++ es ↔ .took f.call k q ∈ tr := by simp [htook]
  unfold Progress at h ⊢
  simp only [heq, hmem]
  exact h

theorem progress_entered {kind : Kind} (h : Progress k tr { f with phase := .enter }) :
    Progress k tr { f with phase := kind.entered } := by
  cases kind <;> exact h

theorem turn_progress {q : Phase} (h : Turn l f l' (some q) es) (hp : Progress f.set tr f)
    (hn : l.tasks.Nodup) : Progress f.set (tr ++ es) { f with phase := q } := by
  cases h with
  | enter hph =>
    rw [append_nil]
    refine progress_entered ?_
    simpa only [Progress, hph] using hp
  | mainReady hph =>
    simp only [Progress, hph] at hp
    rw [append_nil]
    exact fun q hq => (hp.2 q hq).elim
  | mainPending hph | empty hph =>
    simp only [Progress, hph] at hp
    rw [append_nil]
    exact hp
  | take hph =>
    simp only [Progress, hph] at hp
    refine ⟨Nat.le_refl _, fun q hq => ?_⟩
    have hq : q = l.tasks := by simpa [hp.2 q] using hq
    have hnone : polledIn f.call f.set (tr ++ [.took f.call f.set l.tasks]) = [] := by
      rw [polledIn_append, hp.1]
      rfl
    rw [hq, hnone, take_length]
    exact ⟨hn, rfl⟩
  | pick hph =>
    simp only [Progress, hph] at hp
    refine ⟨by simpa using hp.1, fun q hq => ?_⟩
    obtain ⟨hnodup, heq⟩ := hp.2 q (by simpa using hq)
    refine ⟨hnodup, ?_⟩
    rw [polledIn_append, polledIn_singleton, append_assoc]
    exact heq
  | @loop rounds queue hph hq =>
    simp only [Progress, hph] at hp
    rw [append_nil]
    intro q htook
    obtain ⟨hnodup, heq⟩ := hp.2 q htook
    have hnone : queue.take rounds = [] := by
      rcases hq with rfl | rfl
      · exact take_nil
      · exact take_zero
    rw [hnone, append_nil] at heq
    exact ⟨hnodup, heq⟩
  | swap hph =>
    simp only [Progress, hph] at hp
    rw [append_nil]
    rcases l.notified <;> exact hp
  | selfWake hph =>
    have hp' : Progress f.set tr { f with phase := .test } := by
      simpa only [Progress, hph] using hp
    exact hp'.append (by simp) (by simp)
  | @finish t rounds queue hph =>
    have hp' : Progress f.set tr { f with phase := .tasks queue rounds } := by
      simpa only [Progress, hph] using hp
    exact hp'.append (by simp) (by simp)
  | @pend t rounds queue hph =>
    simp only [Progress, hph] at hp
    have hp' : Progress f.set tr { f with phase := .tasks (queue ++ [t]) rounds } := by
      refine ⟨by rw [length_append]; omega, fun q hq => ?_⟩
      rw [take_append_of_le_length hp.1]
      exact hp.2 q hq
    exact hp'.append (by simp) (by simp)

theorem turn_gone (h : Turn l f l' none es) (hp : Progress f.set tr f)
    (hq : .took f.call f.set q ∈ tr ++ es) :
    q.Nodup ∧ polledIn f.call f.set (tr ++ es) = q := by
  cases h with
  | mainPanics hph =>
    simp only [Progress, hph] at hp
    exact (hp.2 q (by simpa using hq)).elim
  | pending hph | clear hph =>
    simp only [Progress, hph] at hp
    rw [polledIn_quiet]
    · exact hp q (by simpa using hq)
    · simp

/-- The polls of a set: the inner ones are the later ones, and each is as far as it should be. -/
structure Rounds (home : ℕ → ℕ) (k : ℕ) (tr : List Ev) (s : Sys) : Prop where
  order : (frames home s k).Pairwise fun f g => g.call < f.call
  bound : ∀ f ∈ frames home s k, f.call < s.polls
  polled : ∀ c t, .polled c k t ∈ tr → c < s.polls
  took : ∀ c q, .took c k q ∈ tr → c < s.polls
  progress : ∀ f ∈ frames home s k, Progress k tr f
  gone : ∀ c q, .took c k q ∈ tr → (∀ f ∈ frames home s k, f.call ≠ c) →
    q.Nodup ∧ polledIn c k tr = q

theorem Rounds.still (h : Rounds home k tr s) (hf : frames home s' k = frames home s k)
    (hle : s.polls ≤ s'.polls) (hpolled : ∀ c t, .polled c k t ∉ es)
    (htook : ∀ c q, .took c k q ∉ es) : Rounds home k (tr ++ es) s' := by
  refine ⟨by rw [hf]; exact h.order, fun f hf' => ?_, fun c t hx => ?_, fun c q hx => ?_,
    fun f hf' => ?_, fun c q hx hno => ?_⟩
  · rw [hf] at hf'
    exact Nat.lt_of_lt_of_le (h.bound f hf') hle
  · exact Nat.lt_of_lt_of_le (h.polled c t (by simpa [hpolled c t] using hx)) hle
  · exact Nat.lt_of_lt_of_le (h.took c q (by simpa [htook c q] using hx)) hle
  · rw [hf] at hf'
    exact (h.progress f hf').append (hpolled f.call) (htook f.call)
  · rw [hf] at hno
    rw [polledIn_quiet (hpolled c)]
    exact h.gone c q (by simpa [htook c q] using hx) hno

theorem Rounds.poll (h : Rounds home k tr s) {w : Waker} {kind : Kind}
    (hf : frames home s' k = ⟨s.polls, k, w, kind, .enter⟩ :: frames home s k)
    (hp : s'.polls = s.polls + 1) : Rounds home k (tr ++ [.began s.polls k w]) s' := by
  have hle : s.polls ≤ s'.polls := by omega
  refine ⟨?_, ?_, fun c t hx => ?_, fun c q hx => ?_, ?_, fun c q hx hno => ?_⟩
  · rw [hf]
    exact pairwise_cons.mpr ⟨h.bound, h.order⟩
  · rw [hf]
    intro f hf'
    rcases mem_cons.mp hf' with rfl | hf'
    · show s.polls < s'.polls
      omega
    · exact Nat.lt_of_lt_of_le (h.bound f hf') hle
  · exact Nat.lt_of_lt_of_le (h.polled c t (by simpa using hx)) hle
  · exact Nat.lt_of_lt_of_le (h.took c q (by simpa using hx)) hle
  · rw [hf]
    intro f hf'
    rcases mem_cons.mp hf' with rfl | hf'
    · -- its number is new
      refine ⟨polledIn_eq_nil fun t hx => ?_, fun q hx => ?_⟩
      · exact Nat.lt_irrefl _ (h.polled _ t (by simpa using hx))
      · exact Nat.lt_irrefl _ (h.took _ q (by simpa using hx))
    · exact (h.progress f hf').append (by simp) (by simp)
  · have hold : ∀ f ∈ frames home s k, f.call ≠ c := by
      intro f hf'
      refine hno f ?_
      rw [hf]
      exact mem_cons_of_mem _ hf'
    rw [polledIn_quiet]
    · exact h.gone c q (by simpa using hx) hold
    · simp

theorem turn_polled (h : Turn l f l' p es) (hx : .polled c k t ∈ es) :
    c = f.call ∧ es = [.polled c k t] ∧ t ∈ held f.phase := by
  cases h <;> simp at hx
  case pick hp =>
    obtain ⟨rfl, rfl, rfl⟩ := hx
    exact ⟨rfl, rfl, by simp [hp, held]⟩

theorem turn_took (h : Turn l f l' p es) (hx : .took c k q ∈ es) :
    c = f.call ∧ q = l.tasks := by
  cases h <;> simp at hx
  case take => exact ⟨hx.1, hx.2.2⟩

theorem mem_turned {g : Frame} {r : List Frame} (hg : g ∈ turned f r p) :
    (∃ q, p = some q ∧ g = { f with phase := q }) ∨ g ∈ r := by
  rcases p with _ | q
  · exact .inr hg
  · rcases mem_cons.mp hg with rfl | hg
    · exact .inl ⟨q, rfl, rfl⟩
    · exact .inr hg

theorem Rounds.turn (h : Rounds home k tr s) {r : List Frame} (hf : frames home s k = f :: r)
    (hk : f.set = k) (ht : Turn (s.sets k) f (s'.sets k) p es)
    (hf' : frames home s' k = turned f r p) (hle : s.polls ≤ s'.polls)
    (hn : (s.sets k).tasks.Nodup) : Rounds home k (tr ++ es) s' := by
  subst hk
  obtain ⟨horder, hbound, hpolled, htook, hprogress, hgone⟩ := h
  rw [hf] at horder hbound hprogress hgone
  obtain ⟨hfirst, hrest⟩ := pairwise_cons.mp horder
  have hcall : f.call < s.polls := hbound f mem_cons_self
  have hother : ∀ c, c ≠ f.call → (∀ t, .polled c f.set t ∉ es) ∧ ∀ q, .took c f.set q ∉ es :=
    fun c hc => ⟨fun t hx => hc (turn_polled ht hx).1, fun q hx => hc (turn_took ht hx).1⟩
  refine ⟨?_, ?_, fun c t hx => ?_, fun c q hx => ?_, ?_, fun c q hx hno => ?_⟩
  · rw [hf']
    rcases p with _ | q
    · exact hrest
    · exact pairwise_cons.mpr ⟨hfirst, hrest⟩
  · rw [hf']
    intro g hg
    rcases mem_turned hg with ⟨q, -, rfl⟩ | hg
    · exact Nat.lt_of_lt_of_le hcall hle
    · exact Nat.lt_of_lt_of_le (hbound g (mem_cons_of_mem _ hg)) hle
  · rcases mem_append.mp hx with hx | hx
    · exact Nat.lt_of_lt_of_le (hpolled c t hx) hle
    · rw [(turn_polled ht hx).1]
      exact Nat.lt_of_lt_of_le hcall hle
  · rcases mem_append.mp hx with hx | hx
    · exact Nat.lt_of_lt_of_le (htook c q hx) hle
    · rw [(turn_took ht hx).1]
      exact Nat.lt_of_lt_of_le hcall hle
  · rw [hf']
    intro g hg
    rcases mem_turned hg with ⟨q, rfl, rfl⟩ | hg
    · exact turn_progress ht (hprogress f mem_cons_self) hn
    · have hne : g.call ≠ f.call := Nat.ne_of_lt (hfirst g hg)
      exact (hprogress g (mem_cons_of_mem _ hg)).append (hother _ hne).1 (hother _ hne).2
  · rw [hf'] at hno
    by_cases hc : c = f.call
    · subst hc
      rcases p with _ | q'
      · exact turn_gone ht (hprogress f mem_cons_self) hx
      · exact absurd rfl (hno { f with phase := q' } mem_cons_self)
    · rw [polledIn_quiet (hother c hc).1]
      refine hgone c q (by simpa [(hother c hc).2 q] using hx) fun g hg => ?_
      rcases mem_cons.mp hg with rfl | hg
      · exact Ne.symm hc
      · refine hno g ?_
        rcases p with _ | q'
        · exact hg
        · exact mem_cons_of_mem _ hg

theorem tasks_nodup (k : ℕ) (h : Run (step home) C new tr s) :
    (s.sets k).tasks.Nodup :=
  (nodup_append.mp (conserved_run k h).nodup).1

theorem rounds_run (k : ℕ) (h : Run (step home) C new tr s) :
    Rounds home k tr s := by
  refine (h.along (I := fun _ s => Nested home s ∧ (s.sets k).tasks.Nodup)
    fun _ _ h => ⟨nested_run h, tasks_nodup k h⟩).inv ?_ ?_
  · exact ⟨List.Pairwise.nil, nofun, nofun, nofun, nofun, nofun⟩
  · rintro tr s op s' es hI ⟨-, hnest, hnodup⟩ hs
    cases step_seen hnest k hs with
    | idle ht hr hn hf he =>
      exact hI.still hf (polls_le hs) (fun c t hx => he _ hx rfl) (fun c q hx => he _ hx rfl)
    | poll _ hf hp => exact hI.poll hf hp
    | turn hf hk ho ht hf' => exact hI.turn hf hk ht hf' (polls_le hs) hnodup
    | spawn _ hf | notify _ hf => exact hI.still hf (polls_le hs) (by simp) (by simp)
    | taken _ _ _ hf => exact hI.still hf (polls_le hs) nofun nofun

/-! ### When a poll is ready -/

/-- A poll with a main future is not of a `LocalSet`; a poll of a `LocalSet` that is about to be
ready has found the queue empty. -/
def Ready (home : ℕ → ℕ) (k : ℕ) (s : Sys) : Prop :=
  ∀ f ∈ frames home s k, f.kind = .localSet →
    f.phase ≠ .main ∧ (f.phase = .clear → (s.sets k).tasks = [])

theorem turn_ready {q : Phase} (h : Turn l f l' (some q) es) (hk : f.kind = .localSet)
    (hm : f.phase ≠ .main) : q ≠ .main ∧ (q = .clear → l'.tasks = []) := by
  cases h with
  | enter => simp [hk, Kind.entered]
  | mainReady hp | mainPending hp => exact absurd hp hm
  | empty _ _ hl => exact ⟨nofun, fun _ => hl⟩
  | swap => rcases l.notified <;> exact ⟨nofun, nofun⟩
  | take | pick | loop | selfWake | finish | pend => exact ⟨nofun, nofun⟩

theorem ready_run (k : ℕ) (h : Run (step home) C new tr s) :
    Ready home k s := by
  refine (h.along (I := fun _ s => Nested home s) fun _ _ => nested_run).inv
    (I := fun _ s => Ready home k s) nofun ?_
  rintro tr s op s' es hI ⟨-, hnest⟩ hs f hf hk
  cases step_seen hnest k hs with
  | idle ht _ _ hf' | taken ht _ _ hf' =>
    rw [hf'] at hf
    rw [ht]
    exact hI f hf hk
  | poll hset hf' =>
    rw [hf'] at hf
    rw [hset]
    rcases mem_cons.mp hf with rfl | hf
    · exact ⟨nofun, nofun⟩
    · exact hI f hf hk
  | @turn g r p es hfr hg ho ht hf' =>
    rw [hf'] at hf
    rcases mem_turned hf with ⟨q, rfl, rfl⟩ | hf
    · exact turn_ready ht hk (hI g (by rw [hfr]; exact mem_cons_self) hk).1
    · -- the outer polls are in the code of a future
      have hopen := ho f hf
      refine ⟨(hI f (by rw [hfr]; exact mem_cons_of_mem _ hf) hk).1, fun hp => ?_⟩
      rw [hp] at hopen
      cases hopen
  | spawn _ hf' ho =>
    rw [hf'] at hf
    have hopen := ho f hf
    refine ⟨(hI f hf hk).1, fun hp => ?_⟩
    rw [hp] at hopen
    cases hopen
  | notify hset hf' =>
    rw [hf'] at hf
    rw [hset]
    exact hI f hf hk

/-! ### The tasks of a set are conserved -/

theorem polled_owned (h : Seen home k s s' es) (hx : .polled c k t ∈ es) :
    es = [.polled c k t] ∧ t ∈ owned home s k := by
  cases h with
  | idle _ _ _ _ he => exact absurd rfl (he _ hx)
  | turn hf _ _ ht =>
    obtain ⟨-, hes, ht⟩ := turn_polled ht hx
    refine ⟨hes, mem_append_right _ ?_⟩
    rw [hf, flatMap_cons]
    exact mem_append_left _ ht
  | poll | spawn | notify => simp at hx
  | taken => cases hx

/-- A finished task is not polled. -/
theorem polled_run (k : ℕ) (h : Run (step home) C new tr s) :
    Each (fun l x => ∀ c t, x = .polled c k t → ∀ c', .finished c' k t ∉ l) tr := by
  refine (h.along (I := fun tr s => Nested home s ∧ Conserved k s.next tr (owned home s k))
    fun _ _ h => ⟨nested_run h, conserved_run k h⟩).inv
    (I := fun tr _ => Each (fun l x => ∀ c t, x = .polled c k t → ∀ c', .finished c' k t ∉ l) tr)
    each_nil ?_
  rintro tr s op s' es hI ⟨-, hnest, hcons⟩ hs
  refine hI.append fun l x r hes c t hx c' => ?_
  subst hx
  obtain ⟨hone, hmem⟩ := polled_owned (c := c) (t := t) (step_seen hnest k hs) (by simp [hes])
  obtain ⟨rfl, -⟩ := split_singleton (hone.symm.trans hes)
  rw [append_nil]
  exact ((hcons.mem t).mp hmem).2 c'

theorem took_eq (h : Seen home k s s' es) (hx : .took c k q ∈ es) :
    q = (s.sets k).tasks := by
  cases h with
  | idle _ _ _ _ he => exact absurd rfl (he _ hx)
  | turn _ _ _ ht => exact (turn_took ht hx).2
  | poll | spawn | notify => simp at hx
  | taken => cases hx

theorem turn_returned {b : Bool} (h : Turn l f l' p es) (hx : .returned c k .localSet b ∈ es)
    (hr : f.kind = .localSet → f.phase = .clear → l.tasks = []) : b = true ↔ l'.tasks = [] := by
  cases h <;> simp at hx
  case pending hp hl =>
    obtain ⟨-, -, hk, rfl⟩ := hx
    simpa using hl hk.symm
  case clear hp hl =>
    obtain ⟨-, -, hk, rfl⟩ := hx
    simpa using hr hk.symm hp

theorem returned_iff {b : Bool} (h : Seen home k s s' es) (hx : .returned c k .localSet b ∈ es)
    (hr : Ready home k s) : b = true ↔ (s'.sets k).tasks = [] := by
  cases h with
  | idle _ _ _ _ he => exact absurd rfl (he _ hx)
  | turn hf _ _ ht =>
    refine turn_returned ht hx fun hk => (hr _ ?_ hk).2
    rw [hf]
    exact mem_cons_self
  | poll | spawn | notify => simp at hx
  | taken => cases hx

/-- The poll number `c` is in its loop. -/
def Looping (home : ℕ → ℕ) (s : Sys) (c k : ℕ) : Prop :=
  ∃ f ∈ frames home s k, f.call = c ∧
    match f.phase with
    | .tasks .. | .task .. => True
    | _ => False

theorem Rounds.exact (h : Rounds home k tr s) (hq : .took c k q ∈ tr)
    (hl : ¬ Looping home s c k) : q.Nodup ∧ polledIn c k tr = q := by
  by_cases hf : ∃ f ∈ frames home s k, f.call = c
  · obtain ⟨f, hf, rfl⟩ := hf
    have hp := h.progress f hf
    unfold Progress at hp
    split at hp
    · exact (hp.2 q hq).elim
    · exact (hp.2 q hq).elim
    · exact (hp.2 q hq).elim
    iterate 2
      · next hph => exact (hl ⟨f, hf, rfl, by rw [hph]; trivial⟩).elim
    all_goals exact hp q hq
  · exact h.gone c q hq fun f hf' hc => hf ⟨f, hf', hc⟩

/-- **A set keeps its tasks.**  Whatever the tasks do, at any nesting of the polls:

* a call of `poll_tasks` takes the queue as it is, and when its loop is over it has polled each task
  of that queue exactly once, in this order, and no other;
* a task that has finished is not polled again;
* when no poll of the set is under way, its queue holds exactly the tasks that were spawned and have
  not finished, each once;
* a poll of a `LocalSet` is ready if and only if it leaves the queue empty. -/
theorem tasks_conserved (h : Run (step home) Any new tr s) (k : ℕ) :
    (∀ c q, .took c k q ∈ tr → ¬ Looping home s c k → q.Nodup ∧ polledIn c k tr = q) ∧
    (∀ l c t r, tr = l ++ .polled c k t :: r → ∀ c', .finished c' k t ∉ l) ∧
    (frames home s k = [] → (s.sets k).tasks.Nodup ∧
      ∀ t, t ∈ (s.sets k).tasks ↔ .spawned k t ∈ tr ∧ ∀ c, .finished c k t ∉ tr) ∧
    ∀ op s' es c, step home s op = some (s', es) →
      (∀ q, .took c k q ∈ es → q = (s.sets k).tasks) ∧
      ∀ b, .returned c k .localSet b ∈ es → (b = true ↔ (s'.sets k).tasks = []) := by
  have hnest := nested_run h
  refine ⟨fun c q hq hl => (rounds_run k h).exact hq hl, fun l c t r heq => ?_, fun hf => ?_,
    fun op s' es c hs => ?_⟩
  · exact polled_run k h l _ r heq c t rfl
  · have hcons := conserved_run k h
    have howned : owned home s k = (s.sets k).tasks := by rw [owned, hf]; simp
    rw [howned] at hcons
    exact ⟨hcons.nodup, hcons.mem⟩
  · have hseen := step_seen hnest k hs
    exact ⟨fun q hq => took_eq hseen hq, fun b hb => returned_iff hseen hb (ready_run k h)⟩

/-- A task spawns another one and waits for it: it blocks on a `run_until` of its own set, which
polls the new task to its end, and is then pending itself. -/
theorem tasks_conserved_nested : ∃ tr s, Run (step fun _ => 0) Any new tr s ∧
    frames (fun _ => 0) s 0 = [] ∧ (s.sets 0).tasks = [0] ∧ .took 0 0 [0] ∈ tr ∧
    .took 1 0 [1] ∈ tr ∧ polledIn 0 0 tr = [0] ∧ polledIn 1 0 tr = [1] := by
  obtain ⟨s, tr, hrun, hf, ht, h0, h1⟩ : ∃ s tr, Run (step fun _ => 0) Any new tr s ∧
      frames (fun _ => 0) s 0 = [] ∧ (s.sets 0).tasks = [0] ∧ .took 0 0 [0] ∈ tr ∧
      .took 1 0 [1] ∈ tr := by
    refine ⟨_, _, run_exec [.spawn 0, .call 0, .call 0, .poll 0 .localSet (.root 1), .advance 0,
      .advance 0, .advance 0, .spawn 0, .call 1, .call 1, .call 1, .poll 0 .runUntil (.root 2),
      .advance 0, .mainPending 0, .advance 0, .advance 0, .finish 0, .advance 0, .advance 0,
      .advance 0, .advance 0, .pend 0, .advance 0, .advance 0, .advance 0] rfl, rfl, rfl, ?_, ?_⟩
    · decide
    · decide
  have hover : ∀ c, ¬ Looping (fun _ => 0) s c 0 := by
    rintro c ⟨f, hmem, -⟩
    rw [hf] at hmem
    cases hmem
  have hall := (tasks_conserved hrun 0).1
  exact ⟨tr, s, hrun, hf, ht, h0, h1, (hall 0 [0] h0 (hover 0)).2, (hall 1 [1] h1 (hover 1)).2⟩

end OhosFfrt.Local.Tasks
