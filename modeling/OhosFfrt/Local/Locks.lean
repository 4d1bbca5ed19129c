import Mathlib.Data.List.Nodup
import OhosFfrt.Lib.Paths
import OhosFfrt.Local.Moves

/-!
# `task::LocalSet`: wakes and the locks of `run_waker`

A wake that takes a `TaskWaker` out of `run_waker` wakes it inside the lock, so it goes on to the
lock of another set with the first one held.  Draw an arrow from a set to the set of the `TaskWaker`
in its `run_waker`, or of the one that a wake has just taken out of it (`Edge`).  A wake follows the
arrows; it comes to a lock that it holds itself only if they form a circle (`no_self_deadlock`).
The only step that draws an arrow is a poll that stores its waker.
-/

namespace OhosFfrt.Local.Locks

open Relation Lib.Runs Lib.Arena Lib.Paths Local.System List Option
  Local.Moves

variable {home : ℕ → ℕ} {s s' : Sys} {op : Op} {es tr : List Ev} {i j k c : ℕ} {call call' : Call}

/-! ### The arrows -/

/-- The sets a wake has come through, the latest first; at the front that it is about to enter. -/
def path (call : Call) : List ℕ :=
  match call.pc with
  | .store k _ | .lock k | .wake (.task k _) => k :: call.held
  | .wake (.root _) | .ret => call.held

/-- **From the set `j` a wake goes on to the set `k`.** -/
inductive Edge (s : Sys) (j k : ℕ) : Prop
  | stored {t : ℕ} (h : (s.sets j).runWaker = some (.task k t))
  | taken {call : Call} (hc : call ∈ s.calls) (h : [k, j] <:+: path call)

theorem not_edge_new : ¬ Edge new j k := by
  rintro (h | ⟨hc, -⟩)
  · cases h
  · cases hc

theorem pair_infix_cons {a b x : ℕ} {l : List ℕ} (h : [a, b] <:+: x :: l) :
    a = x ∧ [b] <+: l ∨ [a, b] <:+: l := by
  rcases infix_cons_iff.mp h with h | h
  · rw [cons_prefix_cons] at h
    exact .inl h
  · exact .inr h

theorem field_update {β : Type} {g : LocalSet → β} {m : ℕ} {l : LocalSet}
    (hsets : s'.sets = Function.update s.sets m l) (hl : g l = g (s.sets m)) :
    g (s'.sets j) = g (s.sets j) := by
  rw [hsets]
  by_cases hj : j = m
  · subst hj
    rw [Function.update_self, hl]
  · rw [Function.update_of_ne hj]

theorem Edge.of_old (h : Edge s' j k)
    (hr : ∀ j, (s'.sets j).runWaker = (s.sets j).runWaker ∨ (s'.sets j).runWaker = none)
    (hc : ∀ call ∈ s'.calls, ∀ j k, [k, j] <:+: path call → Edge s j k) : Edge s j k := by
  rcases h with h | ⟨hmem, h⟩
  · rcases hr j with hsame | hnone
    · exact .stored (hsame.symm.trans h)
    · rw [hnone] at h
      cases h
  · exact hc _ hmem j k h

theorem Edge.of_sets (h : Edge s' j k)
    (hr : ∀ j, (s'.sets j).runWaker = (s.sets j).runWaker ∨ (s'.sets j).runWaker = none)
    (hc : s'.calls = s.calls) : Edge s j k :=
  h.of_old hr fun _ hmem _ _ hp => .taken (hc ▸ hmem) hp

theorem Edge.of_snoc {pc : Pc} (h : Edge s' j k)
    (hr : ∀ j, (s'.sets j).runWaker = (s.sets j).runWaker)
    (hc : s'.calls = s.calls ++ [⟨[], pc⟩]) : Edge s j k := by
  refine h.of_old (fun j => .inl (hr j)) fun call hmem j k hp => ?_
  rw [hc] at hmem
  rcases mem_append.mp hmem with hmem | hmem
  · exact .taken hmem hp
  · rw [mem_singleton.mp hmem] at hp
    have := hp.length_le
    rcases pc with _ | _ | ⟨_ | _⟩ | _ <;> simp [path] at this

theorem Edge.of_set (h : Edge s' j k)
    (hr : ∀ j, (s'.sets j).runWaker = (s.sets j).runWaker ∨ (s'.sets j).runWaker = none)
    (hcalls : s'.calls = s.calls.set c call') (hc : s.calls[c]? = some call)
    (hp : ∀ j k, [k, j] <:+: path call' → [k, j] <:+: path call ∨ Edge s j k) :
    Edge s j k := by
  refine h.of_old hr fun call₁ hmem j k hp₁ => ?_
  rw [hcalls] at hmem
  rcases mem_or_eq_of_mem_set hmem with hmem | rfl
  · exact .taken hmem hp₁
  · rcases hp j k hp₁ with hp₂ | he
    · exact .taken (mem_of_getElem? hc) hp₂
    · exact he

theorem turn_runWaker {l l' : LocalSet} {f : Frame} {p : Option Phase} {w : Waker}
    (h : Turn l f l' p es) (hw : l'.runWaker = some w) :
    l.runWaker = some w ∨ f.phase = .enter ∧ f.waker = w := by
  cases h with
  | enter hp => exact .inr ⟨hp, some.inj hw⟩
  | clear => cases hw
  | _ => exact .inl hw

theorem edge_step (hs : step home s op = some (s', es)) (h : Edge s' j k) :
    Edge s j k ∨ ∃ i f t, op = .advance i ∧ f ∈ (s.threads i).head? ∧ f.phase = .enter ∧
      f.set = j ∧ f.waker = .task k t := by
  cases step_moved hs with
  | poll => exact .inl (h.of_sets (fun _ => .inl rfl) rfl)
  | @turn i f rest l p es hop hst ht =>
    by_cases hnew : f.phase = .enter ∧ f.set = j ∧ ∃ t, f.waker = .task k t
    · obtain ⟨hp, hj, t, hw⟩ := hnew
      exact .inr ⟨i, f, t, hop (by rw [hp]; rfl), by rw [hst]; rfl, hp, hj, hw⟩
    · left
      rcases h with @⟨t, h⟩ | ⟨hmem, hp⟩
      · refine .stored (t := t) ?_
        by_cases hj : j = f.set
        · subst hj
          have hl : l.runWaker = some (.task k t) := by simpa [Sys.modify, Sys.put] using h
          rcases turn_runWaker ht hl with hold | ⟨hp, hw⟩
          · exact hold
          · exact (hnew ⟨hp, rfl, t, hw⟩).elim
        · simpa [Sys.modify, Sys.put, hj] using h
      · exact .taken hmem hp
  | selfWake | wake => exact .inl (h.of_snoc (fun _ => rfl) rfl)
  | spawn => exact .inl (h.of_snoc (fun _ => field_update (g := LocalSet.runWaker) rfl rfl) rfl)
  | store hc =>
    refine .inl (h.of_set (fun j => .inl ?_) rfl hc fun j k hp => .inl ?_)
    · exact field_update (g := LocalSet.runWaker) rfl rfl
    · exact hp
  | @lock c m held hc =>
    refine .inl (h.of_set (fun j => ?_) rfl hc fun j k hp => ?_)
    · by_cases hj : j = m
      · subst hj
        exact .inr (by simp [Sys.modify, Sys.setCall])
      · exact .inl (by simp [Sys.modify, Sys.setCall, hj])
    · -- the arrow that was in `run_waker` is now on the path of the wake
      rcases hr : (s.sets m).runWaker with _ | ⟨n⟩ | ⟨m', t⟩ <;> rw [hr] at hp
      · exact .inl hp
      · exact .inl hp
      · rcases pair_infix_cons hp with ⟨rfl, hpre⟩ | hp
        · rw [cons_prefix_cons] at hpre
          rw [hpre.1]
          exact .inr (.stored hr)
        · exact .inl hp
  | @woke c w held hc =>
    refine .inl (h.of_set (fun _ => .inl rfl) rfl hc fun j k hp => .inl ?_)
    rcases w with n | ⟨m, t⟩ <;> exact hp
  | @unlock c m held hc =>
    refine .inl (h.of_set (fun j => .inl ?_) rfl hc fun j k hp => .inl ?_)
    · exact field_update (g := LocalSet.runWaker) rfl rfl
    · exact hp.trans (suffix_cons m held).isInfix

/-! ### Polls that close no circle -/

/-- **A poll that stores its waker closes no circle**: the arrows do not lead from the set of the
waker to the set that is polled. -/
def Outward (_ : List Ev) (s : Sys) : Op → Prop
  | .advance i => ∀ f ∈ (s.threads i).head?, f.phase = .enter → ∀ k t, f.waker = .task k t →
      ¬ ReflTransGen (Edge s) k f.set
  | _ => True

theorem acyclic_step (h : Acyclic (Edge s)) (hC : Outward tr s op)
    (hs : step home s op = some (s', es)) : Acyclic (Edge s') := by
  by_cases hnew : ∃ i f k t, op = .advance i ∧ f ∈ (s.threads i).head? ∧ f.phase = .enter ∧
      f.waker = .task k t
  · obtain ⟨i, f, k, t, rfl, hf, hp, hw⟩ := hnew
    refine (h.insert (hC f hf hp k t hw)).mono fun x y hxy => ?_
    rcases edge_step hs hxy with hold | ⟨i', f', t', hop, hf', -, hx, hw'⟩
    · exact .inl hold
    · cases hop
      have hff : f = f' := some.inj (hf.symm.trans hf')
      subst hff
      rw [hw] at hw'
      cases hw'
      exact .inr ⟨hx.symm, rfl⟩
  · refine h.mono fun x y hxy => ?_
    rcases edge_step hs hxy with hold | ⟨i, f, t, hop, hf, hp, -, hw⟩
    · exact hold
    · exact (hnew ⟨i, f, y, t, hop, hf, hp, hw⟩).elim

/-- The arrows form no circle. -/
theorem acyclic_run (h : Run (step home) Outward new tr s) : Acyclic (Edge s) := by
  refine h.inv (I := fun _ s => Acyclic (Edge s)) (acyclic_of_not fun _ _ => not_edge_new) ?_
  intro tr s op s' es hI hC hs
  exact acyclic_step hI hC hs

theorem path_nodup (h : Acyclic (Edge s)) (hc : call ∈ s.calls) :
    (path call).Nodup := by
  have hchain : (path call).IsChain fun k j => Edge s j k := by
    refine isChain_iff_forall_rel_of_append_cons_cons.mpr fun a b l₁ l₂ heq => ?_
    exact .taken hc ⟨l₁, l₂, by simp [heq]⟩
  exact nodup_reverse.mp (h.nodup (isChain_reverse.mpr hchain))

/-- **A lock is held by the wake that it says.** -/
def Locked (s : Sys) : Prop :=
  ∀ k c, (s.sets k).lock = some c → ∃ call, s.calls[c]? = some call ∧ k ∈ call.held

theorem Locked.of_calls (h : Locked s) (hl : ∀ k, (s'.sets k).lock = (s.sets k).lock)
    (hc : s.calls <+: s'.calls) : Locked s' := by
  intro k c hk
  rw [hl k] at hk
  obtain ⟨call, hcall, hmem⟩ := h k c hk
  obtain ⟨calls, hc⟩ := hc
  refine ⟨call, ?_, hmem⟩
  rw [← hc, get_append hcall]

theorem Locked.of_set (h : Locked s) (hc : s.calls[c]? = some call)
    (hcalls : s'.calls = s.calls.set c call')
    (hl : ∀ k c', (s'.sets k).lock = some c' → c' ≠ c → (s.sets k).lock = some c')
    (hk : ∀ k, (s'.sets k).lock = some c → k ∈ call'.held) : Locked s' := by
  intro k c' hlock
  rw [hcalls]
  by_cases hcc : c' = c
  · subst hcc
    exact ⟨call', get_set hc, hk k hlock⟩
  · obtain ⟨call₁, hcall, hmem⟩ := h k c' (hl k c' hlock hcc)
    exact ⟨call₁, by rw [getElem?_set_ne (Ne.symm hcc)]; exact hcall, hmem⟩

theorem Locked.mem (h : Locked s) (hc : s.calls[c]? = some call)
    (hk : (s.sets k).lock = some c) : k ∈ call.held := by
  obtain ⟨call', hc', hmem⟩ := h k c hk
  rw [hc] at hc'
  cases hc'
  exact hmem

theorem Locked.of_same (h : Locked s) (hc : s.calls[c]? = some call)
    (hcalls : s'.calls = s.calls.set c call') (hl : ∀ k, (s'.sets k).lock = (s.sets k).lock)
    (hheld : call'.held = call.held) : Locked s' := by
  refine h.of_set hc hcalls (fun k c' hk _ => (hl k).symm.trans hk) fun k hk => ?_
  rw [hheld]
  exact h.mem hc ((hl k).symm.trans hk)

theorem turn_lock {l l' : LocalSet} {f : Frame} {p : Option Phase} (h : Turn l f l' p es) :
    l'.lock = l.lock := by
  cases h <;> rfl

theorem locked_step (h : Locked s) (hs : step home s op = some (s', es)) : Locked s' := by
  cases step_moved hs with
  | poll => exact h
  | turn _ _ ht =>
    exact h.of_calls (fun _ => field_update (g := LocalSet.lock) rfl (turn_lock ht))
      prefix_rfl
  | selfWake | wake => exact h.of_calls (fun _ => rfl) (prefix_append _ _)
  | spawn =>
    exact h.of_calls (fun _ => field_update (g := LocalSet.lock) rfl rfl)
      (prefix_append _ _)
  | store hc =>
    exact h.of_same hc rfl (fun _ => field_update (g := LocalSet.lock) rfl rfl) rfl
  | @lock c m held hc =>
    refine h.of_set hc rfl (fun k c' hk hne => ?_) (fun k hk => ?_) <;> by_cases hkm : k = m
    · subst hkm
      simp only [Sys.modify, Sys.setCall, Function.update_self, some.injEq] at hk
      exact (hne hk.symm).elim
    · simpa [Sys.modify, Sys.setCall, hkm] using hk
    · rw [hkm]
      exact mem_cons_self
    · refine mem_cons_of_mem _ (h.mem hc ?_)
      simpa [Sys.modify, Sys.setCall, hkm] using hk
  | woke hc => exact h.of_same hc rfl (fun _ => rfl) rfl
  | @unlock c m held hc =>
    refine h.of_set hc rfl (fun k c' hk _ => ?_) (fun k hk => ?_) <;> by_cases hkm : k = m
    · subst hkm
      simp [Sys.modify, Sys.setCall] at hk
    · simpa [Sys.modify, Sys.setCall, hkm] using hk
    · subst hkm
      simp [Sys.modify, Sys.setCall] at hk
    · have hmem := h.mem (k := k) hc (by simpa [Sys.modify, Sys.setCall, hkm] using hk)
      exact (mem_cons.mp hmem).resolve_left hkm

theorem locked_run {C : List Ev → Sys → Op → Prop} (h : Run (step home) C new tr s) :
    Locked s := by
  refine h.inv (I := fun _ s => Locked s) nofun ?_
  intro tr s op s' es hI _ hs
  exact locked_step hI hs

/-- The `run_waker` of the set `j` is a `TaskWaker` of the set `k`. -/
def Follows (s : Sys) (j k : ℕ) : Prop := ∃ t, (s.sets j).runWaker = some (.task k t)

/-- **No wake waits for itself** if no poll closes a circle: a wake, or a `spawn_local`, that is
about to lock the `run_waker` of a set does not hold this lock; and from any set the wakers in
`run_waker` lead to no set twice. -/
theorem no_self_deadlock (h : Run (step home) Outward new tr s) :
    (∀ c call k, s.calls[c]? = some call → call.pc = .lock k →
      k ∉ call.held ∧ (s.sets k).lock ≠ some c) ∧
    ∀ l : List ℕ, l.IsChain (Follows s) → l.Nodup := by
  have hacyclic := acyclic_run h
  refine ⟨fun c call k hc hpc => ?_, fun l hl => ?_⟩
  · have hnodup := path_nodup hacyclic (mem_of_getElem? hc)
    simp only [path, hpc] at hnodup
    have hnot : k ∉ call.held := (nodup_cons.mp hnodup).1
    exact ⟨hnot, fun hk => hnot ((locked_run h).mem hc hk)⟩
  · refine hacyclic.nodup (hl.imp ?_)
    rintro j k ⟨t, ht⟩
    exact .stored ht

/-- A poll with a waker of another set, whose `run_waker` leads to no set, while no lock is held. -/
def Shallow (_ : List Ev) (s : Sys) : Op → Prop
  | .advance i => ∀ f ∈ (s.threads i).head?, f.phase = .enter →
      match f.waker with
      | .root _ => True
      | .task k _ => k ≠ f.set ∧ (∀ w ∈ (s.sets k).runWaker, w.entry = .ret) ∧
          ∀ call ∈ s.calls, call.held = []
  | _ => True

instance (tr : List Ev) (s : Sys) (op : Op) : Decidable (Shallow tr s op) := by
  unfold Shallow
  split
  · refine @Option.decidableForallMem _ _ (fun f => ?_) _
    refine @instDecidableForall _ _ _ ?_
    split <;> infer_instance
  · infer_instance

theorem Shallow.outward (h : Shallow tr s op) : Outward tr s op := by
  rcases op with _ | i | _ | _ | _ | _ | _ | _ | _ | _ <;> try trivial
  intro f hf hp k t hw hpath
  have h := h f hf hp
  rw [hw] at h
  obtain ⟨hne, hroot, hheld⟩ := h
  rcases ReflTransGen.cases_head hpath with heq | ⟨m, hedge, -⟩
  · exact hne heq
  · rcases hedge with hr | @⟨call, hc, hp⟩
    · cases hroot _ hr
    · have hle := hp.length_le
      have hnil := hheld call hc
      obtain ⟨held, pc⟩ := call
      subst hnil
      rcases pc with _ | _ | ⟨_ | _⟩ | _ <;> simp [path] at hle

/-- A task of the set 0 polls a `run_until` of the set 1; a wake of a task of the set 1 goes on to
the set 0. -/
theorem no_self_deadlock_nested : ∃ tr s, Run (step fun _ => 0) Outward new tr s ∧
    s.calls[2]? = some ⟨[1], .lock 0⟩ ∧ (s.sets 0).lock ≠ some 2 := by
  obtain ⟨s, tr, hrun, hcall⟩ : ∃ s tr, Run (step fun _ => 0) Shallow new tr s ∧
      s.calls[2]? = some ⟨[1], .lock 0⟩ :=
    ⟨_, _, run_execIf [.spawn 0, .call 0, .call 0, .spawn 1, .call 1, .call 1,
      .poll 0 .runUntil (.root 1), .advance 0, .mainPending 0, .advance 0, .advance 0,
      .poll 1 .runUntil (.task 0 0), .advance 0, .wake 1 1, .call 2, .call 2, .call 2, .call 2]
      .nil rfl, rfl⟩
  have hrun : Run (step fun _ => 0) Outward new tr s :=
    Run.along_inputs (f := id) hrun fun _ _ _ hC => hC.outward
  exact ⟨tr, s, hrun, hcall, ((no_self_deadlock hrun).1 2 _ 0 hcall rfl).2⟩

/-- **A task that waits in its own set waits for ever.**  It polls a `run_until` of the set it
belongs to, with its own waker; `notified` is set, so the poll wakes this waker, which locks
`run_waker`, takes itself out of it, and is about to lock it once more; its thread waits for it. -/
theorem self_deadlock : ∃ tr s, Run (step fun _ => 0) Any new tr s ∧
    s.calls[1]? = some ⟨[0], .lock 0⟩ ∧ (s.sets 0).lock = some 1 ∧ s.canRun 0 = false ∧
    (step (fun _ => 0) s (.call 1)).isNone := by
  refine ⟨_, _, run_exec [.spawn 0, .call 0, .call 0, .poll 0 .runUntil (.root 1), .advance 0,
    .mainPending 0, .advance 0, .advance 0, .poll 0 .runUntil (.task 0 0), .advance 0,
    .mainPending 0, .advance 0, .advance 0, .advance 0, .advance 0, .call 1, .call 1, .call 1,
    .call 1] rfl, rfl, rfl, rfl, rfl⟩

end OhosFfrt.Local.Locks
