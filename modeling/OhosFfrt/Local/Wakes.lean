import OhosFfrt.Lib.Traces
import OhosFfrt.Local.Moves

/-!
# `task::LocalSet` loses no wake

One flag and one waker serve all tasks of a set.  A wake of a task stores `notified` and then takes
the waker out of `run_waker`; a poll of the set stores its waker first, polls every task that is in
the queue, and swaps `notified` last.  From the store on the waker is there or has found its wake
(`Kept`); up to the swap, a task that is due again has set `notified` (`Noted`); after it, there is
the wake that made the task due (`Covered`).  So the waker is woken (`outer_waker_woken`).
-/

namespace OhosFfrt.Local.Wakes

open Lib.Runs Lib.Arena Local.System Local.Moves List

variable {home : ℕ → ℕ} {s s' : Sys} {op : Op} {es tr : List Ev} {k t : ℕ} {w : Waker}
  {f : Frame} {ts : List ℕ}

/-! ### Wakes under way -/

/-- A wake is about to wake the waker `w`. -/
def Coming (s : Sys) (w : Waker) : Prop := ∃ call ∈ s.calls, call.pc = .wake w

/-- A wake is between its two steps in the set `k`. -/
def AtLock (s : Sys) (k : ℕ) : Prop := ∃ call ∈ s.calls, call.pc = .lock k

theorem coming_step (hs : step home s op = some (s', es)) (h : Coming s w) :
    Coming s' w ∨ .woke w ∈ es := by
  obtain ⟨call, hmem, hpc⟩ := h
  cases step_moved hs with
  | poll | turn => exact .inl ⟨call, hmem, hpc⟩
  | selfWake | spawn | wake => exact .inl ⟨call, mem_append_left _ hmem, hpc⟩
  | store hc | lock hc | unlock hc =>
    refine .inl ⟨call, mem_set_of_ne hc hmem ?_, hpc⟩
    rintro rfl
    cases hpc
  | @woke c w' held hc =>
    by_cases heq : call = ⟨held, .wake w'⟩
    · subst heq
      cases hpc
      exact .inr mem_cons_self
    · exact .inl ⟨call, mem_set_of_ne hc hmem heq, hpc⟩

/-- The waker of the set `k` is where it was, or a wake has taken it. -/
def Lent (k : ℕ) (s s' : Sys) : Prop :=
  (s'.sets k).runWaker = (s.sets k).runWaker ∨
    (s'.sets k).runWaker = none ∧ ∀ w, (s.sets k).runWaker = some w → Coming s' w

theorem atLock_step (hs : step home s op = some (s', es)) (h : AtLock s k) :
    AtLock s' k ∨ (s'.sets k).runWaker = none ∧
      ∀ w, (s.sets k).runWaker = some w → Coming s' w := by
  obtain ⟨call, hmem, hpc⟩ := h
  cases step_moved hs with
  | poll | turn => exact .inl ⟨call, hmem, hpc⟩
  | selfWake | spawn | wake => exact .inl ⟨call, mem_append_left _ hmem, hpc⟩
  | store hc | woke hc | unlock hc =>
    refine .inl ⟨call, mem_set_of_ne hc hmem ?_, hpc⟩
    rintro rfl
    cases hpc
  | @lock c m held hc =>
    by_cases heq : call = ⟨held, .lock m⟩
    · subst heq
      cases hpc
      refine .inr ⟨by simp [Sys.modify, Sys.setCall], fun w hw => ?_⟩
      exact ⟨_, mem_set_self hc, by simp [hw]⟩
    · exact .inl ⟨call, mem_set_of_ne hc hmem heq, hpc⟩

/-! ### What has happened since -/

/-- A poll of `k` begins. -/
def Begins (k : ℕ) (e : Ev) : Prop := ∃ c w, e = .began c k w

/-- `k` polls the task `t`. -/
def Polls (k t : ℕ) (e : Ev) : Prop := ∃ c, e = .polled c k t

/-- A poll of `k` returns `Pending`. -/
def Pends (k : ℕ) (e : Ev) : Prop := ∃ c kind, e = .returned c k kind false

/-- **A task is due**: it was woken, or spawned, after its last poll began. -/
def Due (k t : ℕ) (tr : List Ev) : Prop := Since (· = .notified k t) (Polls k t) tr

/-- The latest poll of the set has the waker `w`. -/
def Latest (k : ℕ) (w : Waker) (tr : List Ev) : Prop :=
  Since (fun e => ∃ c, e = .began c k w) (Begins k) tr

/-- The waker has been woken since the latest poll of the set began. -/
def Woken (k : ℕ) (w : Waker) (tr : List Ev) : Prop := Since (· = .woke w) (Begins k) tr

/-- The latest poll of the set has returned `Pending`. -/
def Pended (k : ℕ) (tr : List Ev) : Prop := Since (Pends k) (Begins k) tr

theorem Latest.unique {w' : Waker} (h : Latest k w tr) (h' : Latest k w' tr) : w = w' := by
  obtain ⟨_, ⟨c, rfl⟩, c', hx⟩ := Since.same h h' (fun _ ⟨c, hx⟩ => ⟨c, w, hx⟩)
    fun _ ⟨c, hx⟩ => ⟨c, w', hx⟩
  cases hx
  rfl

/-- **Where the waker of the latest poll is.** -/
def Kept (k : ℕ) (w : Waker) (tr : List Ev) (s : Sys) : Prop :=
  (s.sets k).runWaker = some w ∨ Woken k w tr ∨ Coming s w

/-- **The waker was woken, or will be**, by a wake that is under way. -/
def Assured (k : ℕ) (w : Waker) (tr : List Ev) (s : Sys) : Prop :=
  Woken k w tr ∨ Coming s w ∨ (s.sets k).runWaker = some w ∧ AtLock s k

/-- For a task of the set that is due the waker was woken, or will be. -/
def Covered (k : ℕ) (w : Waker) (tr : List Ev) (s : Sys) : Prop :=
  ∀ t ∈ (s.sets k).tasks, Due k t tr → Assured k w tr s

/-- For a task of the set, or of a list, that is due `notified` is set. -/
def Noted (k : ℕ) (ts : List ℕ) (tr : List Ev) (s : Sys) : Prop :=
  ∀ t, t ∈ (s.sets k).tasks ∨ t ∈ ts → Due k t tr → (s.sets k).notified = true

section Step
variable (hs : step home s op = some (s', es)) (hb : ∀ e ∈ es, ¬ Begins k e)
include hs hb

theorem coming_or_woken (tr : List Ev) (h : Coming s w) : Coming s' w ∨ Woken k w (tr ++ es) := by
  rcases coming_step hs h with h | h
  · exact .inl h
  · exact .inr (since_of_mem h rfl hb)

theorem Kept.step (hl : Lent k s s') (h : Kept k w tr s) : Kept k w (tr ++ es) s' := by
  rcases h with h | h | h
  · rcases hl with hsame | ⟨-, hcoming⟩
    · exact .inl (hsame.trans h)
    · exact .inr (.inr (hcoming w h))
  · exact .inr (.inl (h.append hb))
  · rcases coming_or_woken hs hb tr h with h | h
    · exact .inr (.inr h)
    · exact .inr (.inl h)

theorem Assured.step (hl : Lent k s s') (h : Assured k w tr s) : Assured k w (tr ++ es) s' := by
  rcases h with h | h | ⟨hw, hlock⟩
  · exact .inl (h.append hb)
  · rcases coming_or_woken hs hb tr h with h | h
    · exact .inr (.inl h)
    · exact .inl h
  · rcases hl with hsame | ⟨-, hcoming⟩
    · rcases atLock_step hs hlock with hlock' | ⟨-, hcoming⟩
      · exact .inr (.inr ⟨hsame.trans hw, hlock'⟩)
      · exact .inr (.inl (hcoming w hw))
    · exact .inr (.inl (hcoming w hw))

end Step

theorem Kept.assured (h : Kept k w tr s) (hlock : AtLock s k) : Assured k w tr s := by
  rcases h with h | h | h
  · exact .inr (.inr ⟨h, hlock⟩)
  · exact .inl h
  · exact .inr (.inl h)

theorem kept_of_woken (h : Woken k w tr) : Kept k w tr s := .inr (.inl h)

/-! ### Steps outside the polls of the set -/

/-- **What a step may do in which no poll of the set does anything.** -/
structure Quiet (k : ℕ) (s s' : Sys) (es : List Ev) : Prop where
  lent : Lent k s s'
  tasks : ∀ t ∈ (s'.sets k).tasks, t ∈ (s.sets k).tasks ∨ .notified k t ∈ es
  keeps : (s.sets k).notified = true → (s'.sets k).notified = true
  noted : ∀ t, .notified k t ∈ es → (s'.sets k).notified = true ∧ AtLock s' k
  begins : ∀ e ∈ es, ¬ Begins k e
  pends : ∀ e ∈ es, ¬ Pends k e

theorem quiet_notified (hr : (s'.sets k).runWaker = (s.sets k).runWaker)
    (ht : ∀ t ∈ (s'.sets k).tasks, t ∈ (s.sets k).tasks ∨ .notified k t ∈ es)
    (hn : (s'.sets k).notified = true) (hc : AtLock s' k)
    (hes : ∀ e ∈ es, ∃ t, e = .spawned k t ∨ e = .notified k t) : Quiet k s s' es := by
  refine ⟨.inl hr, ht, fun _ => hn, fun _ _ => ⟨hn, hc⟩, ?_, ?_⟩
  · rintro e he ⟨c, w, rfl⟩
    obtain ⟨t, h | h⟩ := hes _ he <;> cases h
  · rintro e he ⟨c, kind, rfl⟩
    obtain ⟨t, h | h⟩ := hes _ he <;> cases h

theorem due_append (h : Due k t (tr ++ es)) : .notified k t ∈ es ∨ Due k t tr := by
  rcases since_append h with ⟨_, hx, rfl⟩ | ⟨hold, -⟩
  · exact .inl hx
  · exact .inr hold

theorem Noted.quiet (h : Noted k ts tr s) (hq : Quiet k s s' es) : Noted k ts (tr ++ es) s' := by
  intro t ht hdue
  rcases due_append hdue with hnew | hold
  · exact (hq.noted t hnew).1
  · rcases ht with ht | ht
    · rcases hq.tasks t ht with ht | hnew
      · exact hq.keeps (h t (.inl ht) hold)
      · exact (hq.noted t hnew).1
    · exact hq.keeps (h t (.inr ht) hold)

theorem Covered.quiet (h : Covered k w tr s) (hkept : Kept k w tr s) (hq : Quiet k s s' es)
    (hs : step home s op = some (s', es)) : Covered k w (tr ++ es) s' := by
  have hkept' : Kept k w (tr ++ es) s' := hkept.step hs hq.begins hq.lent
  intro t ht hdue
  by_cases hnew : .notified k t ∈ es
  · exact hkept'.assured (hq.noted t hnew).2
  · have hold : Due k t tr := (due_append hdue).resolve_left hnew
    have ht : t ∈ (s.sets k).tasks := (hq.tasks t ht).resolve_right hnew
    exact (h t ht hold).step hs hq.begins hq.lent

/-! ### The stages of a poll -/

/-- **What holds at each place of a poll.** -/
def Stage (k : ℕ) (tr : List Ev) (s : Sys) (f : Frame) : Prop :=
  match f.phase with
  | .enter | .clear => True
  | .main | .take | .selfWake => Kept k f.waker tr s
  | .tasks queue rounds => Kept k f.waker tr s ∧ rounds ≤ queue.length ∧
      Noted k (queue.drop rounds) tr s
  | .task t queue rounds => Kept k f.waker tr s ∧ rounds ≤ queue.length ∧
      Noted k (t :: queue.drop rounds) tr s
  | .swap => Kept k f.waker tr s ∧ Noted k [] tr s
  | .test => Kept k f.waker tr s ∧ Covered k f.waker tr s

theorem Stage.quiet (h : Stage k tr s f) (hq : Quiet k s s' es)
    (hs : step home s op = some (s', es)) : Stage k (tr ++ es) s' f := by
  have hkept : Kept k f.waker tr s → Kept k f.waker (tr ++ es) s' :=
    fun hkept => hkept.step hs hq.begins hq.lent
  unfold Stage at h ⊢
  split at h
  · trivial
  · trivial
  · exact hkept h
  · exact hkept h
  · exact hkept h
  · exact ⟨hkept h.1, h.2.1, h.2.2.quiet hq⟩
  · exact ⟨hkept h.1, h.2.1, h.2.2.quiet hq⟩
  · exact ⟨hkept h.1, h.2.quiet hq⟩
  · exact ⟨hkept h.1, h.2.quiet h.1 hq hs⟩

section Turn
variable {l' l : LocalSet} {q : Phase} {p : Option Phase}

theorem turn_lent (h : Turn (s.sets k) f (s'.sets k) p es)
    (he : f.phase ≠ .enter) (hc : f.phase ≠ .clear) : Lent k s s' := by
  generalize hl : s'.sets k = l' at h
  left
  rw [hl]
  cases h with
  | enter hp => exact absurd hp he
  | clear hp => exact absurd hp hc
  | _ => rfl

theorem turn_begins {l' : LocalSet} (h : Turn l f l' p es) :
    ∀ e ∈ es, ¬ Begins k e := by
  rintro e he ⟨c, w, rfl⟩
  cases h <;> simp at he

theorem turn_notified {l' : LocalSet} (h : Turn l f l' p es) :
    .notified k t ∉ es := by
  cases h <;> simp

theorem turn_due {l' : LocalSet} (h : Turn l f l' p es)
    (hd : Due k t (tr ++ es)) : Due k t tr ∧ ∀ e ∈ es, ¬ Polls k t e := by
  rcases since_append hd with ⟨_, hx, rfl⟩ | hold
  · exact (turn_notified h hx).elim
  · exact hold

theorem Stage.turn (h : Stage k tr s f) (hk : f.set = k)
    (ht : Turn (s.sets k) f (s'.sets k) (some q) es) (hs : step home s op = some (s', es)) :
    Stage k (tr ++ es) s' { f with phase := q } := by
  have hb : ∀ e ∈ es, ¬ Begins k e := turn_begins ht
  have hkept : f.phase ≠ .enter → f.phase ≠ .clear → Kept k f.waker tr s →
      Kept k f.waker (tr ++ es) s' :=
    fun he hc hkept => hkept.step hs hb (turn_lent ht he hc)
  have hdue : ∀ t, Due k t (tr ++ es) → Due k t tr ∧ ∀ e ∈ es, ¬ Polls k t e :=
    fun t hd => turn_due ht hd
  generalize hl : s'.sets k = l' at ht
  unfold Stage at h
  cases ht with
  | enter =>
    have hstored : Kept k f.waker (tr ++ []) s' := .inl (by rw [hl])
    show Stage k (tr ++ []) s' { f with phase := f.kind.entered }
    cases f.kind <;> exact hstored
  | mainReady | empty => trivial
  | mainPending hp =>
    rw [hp] at h
    exact hkept (by simp [hp]) (by simp [hp]) h
  | take hp =>
    rw [hp] at h
    refine ⟨hkept (by simp [hp]) (by simp [hp]) h, Nat.le_refl _, fun t ht => ?_⟩
    -- nothing is left in the queue, and no round is over
    rw [hl, drop_length] at ht
    simp at ht
  | pick hp =>
    rw [hp] at h
    obtain ⟨h1, hle, hnoted⟩ := h
    refine ⟨hkept (by simp [hp]) (by simp [hp]) h1, by simpa using hle, fun u hu hd => ?_⟩
    obtain ⟨hold, hnot⟩ := hdue u hd
    rw [hl] at hu ⊢
    rcases hu with hu | hu
    · exact hnoted u (.inl hu) hold
    · rcases mem_cons.mp hu with rfl | hu
      · exact absurd ⟨f.call, by rw [hk]⟩ (hnot _ mem_cons_self)
      · exact hnoted u (.inr hu) hold
  | @loop rounds queue hp hq =>
    rw [hp] at h
    obtain ⟨h1, hle, hnoted⟩ := h
    refine ⟨hkept (by simp [hp]) (by simp [hp]) h1, fun u hu hd => ?_⟩
    have hdrop : queue.drop rounds = queue := by
      rcases hq with rfl | rfl
      · exact drop_nil
      · exact drop_zero
    rw [hdrop] at hnoted
    rw [hl] at hu ⊢
    have hu : u ∈ (s.sets k).tasks ∨ u ∈ queue := by simpa using hu
    exact hnoted u hu (hdue u hd).1
  | swap hp =>
    rw [hp] at h
    obtain ⟨h1, hnoted⟩ := h
    have h1' := hkept (by simp [hp]) (by simp [hp]) h1
    rcases hn : (s.sets k).notified with _ | _
    · -- nobody has set `notified`, so no task is due
      refine ⟨h1', fun u hu hd => ?_⟩
      rw [hl] at hu
      have hset := hnoted u (.inl hu) (hdue u hd).1
      rw [hn] at hset
      cases hset
    · exact h1'
  | selfWake =>
    have hwoken : Woken k f.waker (tr ++ [.woke f.waker]) :=
      since_of_mem mem_cons_self rfl hb
    exact ⟨kept_of_woken hwoken, fun u _ _ => .inl hwoken⟩
  | finish hp =>
    rw [hp] at h
    obtain ⟨h1, hle, hnoted⟩ := h
    refine ⟨hkept (by simp [hp]) (by simp [hp]) h1, hle, fun u hu hd => ?_⟩
    rw [hl] at hu ⊢
    exact hnoted u (hu.imp_right (mem_cons_of_mem _)) (hdue u hd).1
  | pend hp =>
    rw [hp] at h
    obtain ⟨h1, hle, hnoted⟩ := h
    refine ⟨hkept (by simp [hp]) (by simp [hp]) h1, ?_, fun u hu hd => ?_⟩
    · rw [length_append]
      omega
    · rw [hl, drop_append_of_le_length hle] at hu
      rw [hl]
      refine hnoted u (hu.imp_right fun hu => ?_) (hdue u hd).1
      simpa [or_comm] using hu

end Turn

/-! ### Polls from outside the set -/

/-- **The set is polled from outside**: not while a poll of it is under way. -/
def Outside (home : ℕ → ℕ) (k : ℕ) (_ : List Ev) (s : Sys) : Op → Prop
  | .poll j _ _ => j = k → frames home s k = []
  | _ => True

instance (tr : List Ev) (s : Sys) (op : Op) : Decidable (Outside home k tr s op) := by
  unfold Outside
  split <;> infer_instance

theorem began_op {c : ℕ} (hs : step home s op = some (s', es)) (hx : .began c k w ∈ es) :
    ∃ kind, op = .poll k kind w := by
  cases step_moved hs with
  | poll j kind w' hop =>
    simp only [mem_singleton, Ev.began.injEq] at hx
    obtain ⟨-, rfl, rfl⟩ := hx
    exact ⟨kind, hop⟩
  | turn _ _ ht => exact (turn_begins (k := k) ht _ hx ⟨c, w, rfl⟩).elim
  | _ => simp at hx

/-- **What holds of a set that is polled from outside.** -/
structure Served (home : ℕ → ℕ) (k : ℕ) (tr : List Ev) (s : Sys) : Prop where
  one : ∀ f r, frames home s k = f :: r → r = []
  polling : ∀ f ∈ frames home s k, Latest k f.waker tr ∧ ¬ Pended k tr ∧ Stage k tr s f
  pended : frames home s k = [] → Pended k tr → ∀ w, Latest k w tr →
    Kept k w tr s ∧ Covered k w tr s

theorem latest_append (h : Latest k w (tr ++ es)) (hb : ∀ e ∈ es, ¬ Begins k e) :
    Latest k w tr := by
  rcases since_append h with ⟨_, hx, c, rfl⟩ | ⟨hold, -⟩
  · exact (hb _ hx ⟨c, w, rfl⟩).elim
  · exact hold

theorem pended_append (h : Pended k (tr ++ es)) (hp : ∀ e ∈ es, ¬ Pends k e) : Pended k tr := by
  rcases since_append h with ⟨x, hx, hpend⟩ | ⟨hold, -⟩
  · exact (hp x hx hpend).elim
  · exact hold

theorem Served.quiet (h : Served home k tr s) (hf : frames home s' k = frames home s k)
    (hq : Quiet k s s' es) (hs : step home s op = some (s', es)) :
    Served home k (tr ++ es) s' := by
  refine ⟨by rw [hf]; exact h.one, fun f hmem => ?_, fun hnone hp w hw => ?_⟩
  · rw [hf] at hmem
    obtain ⟨hlatest, hpend, hstage⟩ := h.polling f hmem
    exact ⟨hlatest.append hq.begins, fun hp => hpend (pended_append hp hq.pends),
      hstage.quiet hq hs⟩
  · rw [hf] at hnone
    obtain ⟨hkept, hcov⟩ :=
      h.pended hnone (pended_append hp hq.pends) w (latest_append hw hq.begins)
    exact ⟨hkept.step hs hq.begins hq.lent, hcov.quiet hkept hq hs⟩

theorem Served.poll {kind : Kind} (hnone : frames home s k = [])
    (hf : frames home s' k = ⟨s.polls, k, w, kind, .enter⟩ :: frames home s k) :
    Served home k (tr ++ [.began s.polls k w]) s' := by
  rw [hnone] at hf
  have hnot : ¬ Pended k (tr ++ [.began s.polls k w]) := by
    intro hp
    rcases since_append hp with ⟨x, hx, c, kind, rfl⟩ | ⟨-, hb⟩
    · simp at hx
    · exact hb _ mem_cons_self ⟨s.polls, w, rfl⟩
  refine ⟨fun f r heq => ?_, fun f hmem => ?_, fun _ hp => (hnot hp).elim⟩
  · rw [hf, List.cons.injEq] at heq
    exact heq.2.symm
  · rw [hf, mem_singleton] at hmem
    subst hmem
    exact ⟨⟨tr, .began s.polls k w, [], rfl, ⟨s.polls, rfl⟩, nofun⟩, hnot, trivial⟩

theorem turn_pends {l l' : LocalSet} {p : Option Phase} (h : Turn l f l' p es)
    (hp : f.phase ≠ .test) : ∀ e ∈ es, ¬ Pends k e := by
  rintro e he ⟨c, kind, rfl⟩
  cases h with
  | pending hph => exact hp hph
  | _ => simp at he

theorem turn_some_pends {l l' : LocalSet} {q : Phase} (h : Turn l f l' (some q) es) :
    ∀ e ∈ es, ¬ Pends k e := by
  rintro e he ⟨c, kind, rfl⟩
  cases h <;> simp at he

theorem Served.turn (h : Served home k tr s) {r : List Frame} {p : Option Phase}
    (hf : frames home s k = f :: r) (hk : f.set = k)
    (ht : Turn (s.sets k) f (s'.sets k) p es) (hf' : frames home s' k = turned f r p)
    (hs : step home s op = some (s', es)) : Served home k (tr ++ es) s' := by
  have hr : r = [] := h.one f r hf
  subst hr
  obtain ⟨hlatest, hnot, hstage⟩ := h.polling f (by rw [hf]; exact mem_cons_self)
  have hb : ∀ e ∈ es, ¬ Begins k e := turn_begins ht
  rcases p with _ | q
  · refine ⟨fun g r heq => ?_, fun g hmem => ?_, fun _ hp w hw => ?_⟩
    · rw [hf'] at heq
      cases heq
    · rw [hf'] at hmem
      cases hmem
    · by_cases hph : f.phase = .test
      · have hw' : w = f.waker := (latest_append hw hb).unique hlatest
        subst hw'
        simp only [Stage, hph] at hstage
        have hl := turn_lent ht (by simp [hph]) (by simp [hph])
        refine ⟨hstage.1.step hs hb hl, fun t htask hd => ?_⟩
        have hsame : (s'.sets k).tasks = (s.sets k).tasks := by
          generalize s'.sets k = l' at ht
          cases ht <;> rfl
        rw [hsame] at htask
        exact (hstage.2 t htask (turn_due ht hd).1).step hs hb hl
      · exact (hnot (pended_append hp (turn_pends ht hph))).elim
  · have hmem' : ∀ g ∈ frames home s' k, g = { f with phase := q } := by
      intro g hmem
      rw [hf'] at hmem
      exact mem_singleton.mp hmem
    refine ⟨fun g r heq => ?_, fun g hmem => ?_, fun hnone => ?_⟩
    · rw [hf'] at heq
      cases heq
      rfl
    · rw [hmem' g hmem]
      exact ⟨hlatest.append hb, fun hp => hnot (pended_append hp (turn_some_pends ht)),
        hstage.turn hk ht hs⟩
    · rw [hf'] at hnone
      cases hnone

theorem served_run (h : Run (step home) (Outside home k) new tr s) : Served home k tr s := by
  refine (h.along (I := fun _ s => Nested home s) fun _ _ => nested_run).inv ?_ ?_
  · refine ⟨nofun, nofun, ?_⟩
    rintro - ⟨l, x, r, heq, -⟩
    cases l <;> cases heq
  · rintro tr s op s' es hI ⟨hC, hnest⟩ hs
    cases step_seen hnest k hs with
    | idle ht hr hn hf he =>
      refine hI.quiet hf ⟨.inl hr, fun t hmem => .inl (ht ▸ hmem), fun h => hn.trans h,
        fun t hx => (he _ hx rfl).elim, ?_, ?_⟩ hs
      · rintro e hmem ⟨c, w, rfl⟩
        exact he _ hmem rfl
      · rintro e hmem ⟨c, kind, rfl⟩
        exact he _ hmem rfl
    | poll hset hf =>
      obtain ⟨kind, rfl⟩ := began_op hs mem_cons_self
      exact Served.poll (hC rfl) hf
    | turn hf hk ho ht hf' => exact hI.turn hf hk ht hf' hs
    | spawn hset hf ho hn hc =>
      refine hI.quiet hf (quiet_notified ?_ (fun t hmem => ?_) ?_ hc (by simp)) hs
      · rw [hset]
      · rw [hset] at hmem
        simpa using hmem
      · rw [hset]
    | notify hset hf hc =>
      refine hI.quiet hf (quiet_notified ?_ (fun t hmem => ?_) ?_ hc (by simp)) hs
      · rw [hset]
      · rw [hset] at hmem
        exact .inl hmem
      · rw [hset]
    | taken ht hr hn hf hc =>
      exact hI.quiet hf ⟨.inr ⟨hr, hc⟩, fun t hmem => .inl (ht ▸ hmem), fun h => hn.trans h,
        nofun, nofun, nofun⟩ hs

/-- **No wake of a task is lost.**  If the latest poll of a set that is polled from outside has
returned `Pending`, and a task of the set was woken, or spawned, after its last poll began, then the
waker of that poll was woken after the poll began; or a wake has it in its hands and is about to
wake it; or it is in `run_waker` and a wake, which has stored `notified`, is about to take it. -/
theorem outer_waker_woken (h : Run (step home) (Outside home k) new tr s) (hp : Pended k tr)
    (hw : Latest k w tr) (ht : t ∈ (s.sets k).tasks) (hd : Due k t tr) :
    Woken k w tr ∨ Coming s w ∨ (s.sets k).runWaker = some w ∧ AtLock s k := by
  have hserved := served_run h
  have hnone : frames home s k = [] := by
    rcases hf : frames home s k with _ | ⟨f, r⟩
    · rfl
    · exact ((hserved.polling f (by rw [hf]; exact mem_cons_self)).2.1 hp).elim
  exact (hserved.pended hnone hp w hw).2 t ht hd

/-- A task is polled by two polls, and woken after the second one: the wake has stored `notified`
and is about to take the waker of the second poll. -/
theorem outer_waker_woken_again : ∃ tr s,
    Run (step fun _ => 0) (Outside (fun _ => 0) 0) new tr s ∧ Pended 0 tr ∧ Latest 0 (.root 2) tr ∧
    Due 0 0 tr ∧ (Woken 0 (.root 2) tr ∨ Coming s (.root 2) ∨
      (s.sets 0).runWaker = some (.root 2) ∧ AtLock s 0) := by
  obtain ⟨s, tr, htr, hrun, hmem⟩ : ∃ s tr,
      tr = [.spawned 0 0, .notified 0 0, .began 0 0 (.root 1), .took 0 0 [0], .polled 0 0 0,
        .pended 0 0 0, .woke (.root 1), .returned 0 0 .runUntil false, .began 1 0 (.root 2),
        .took 1 0 [0], .polled 1 0 0, .pended 1 0 0, .returned 1 0 .runUntil false,
        .notified 0 0] ∧
      Run (step fun _ => 0) (Outside (fun _ => 0) 0) new tr s ∧ 0 ∈ (s.sets 0).tasks :=
    ⟨_, _, rfl, run_execIf [.spawn 0, .call 0, .call 0, .poll 0 .runUntil (.root 1), .advance 0,
      .mainPending 0, .advance 0, .advance 0, .pend 0, .advance 0, .advance 0, .advance 0,
      .advance 0, .poll 0 .runUntil (.root 2), .advance 0, .mainPending 0, .advance 0, .advance 0,
      .pend 0, .advance 0, .advance 0, .advance 0, .wake 0 0, .call 2] .nil rfl, by decide⟩
  have hp : Pended 0 tr := by
    refine ⟨tr.take 12, .returned 1 0 .runUntil false, [.notified 0 0], by rw [htr]; rfl,
      ⟨1, .runUntil, rfl⟩, ?_⟩
    rintro e he ⟨c, w, rfl⟩
    simp at he
  have hw : Latest 0 (.root 2) tr := by
    refine ⟨tr.take 8, .began 1 0 (.root 2), tr.drop 9, by rw [htr]; rfl, ⟨1, rfl⟩, ?_⟩
    rintro e he ⟨c, w, rfl⟩
    simp [htr] at he
  have hd : Due 0 0 tr := ⟨tr.take 13, .notified 0 0, [], by rw [htr]; rfl, rfl, nofun⟩
  exact ⟨tr, s, hrun, hp, hw, hd, outer_waker_woken hrun hp hw hmem hd⟩

end OhosFfrt.Local.Wakes
