import OhosFfrt.Lib.Traces
import OhosFfrt.Task.Moves

/-!
# `runtime`: no wake is lost

`wait` clears `woken` on two paths and never looks at it again.  A wake that has completed since the
latest poll began still stands in `woken` or has made `cond_wait` return (`heard`).
-/

namespace OhosFfrt.Task.Wakes

open Basic Lib.Runs Task.Runner Task.Moves List Option

variable {T : Type*} {s s' : Sys T} {op : Op T} {tr es : List (Ev T)} {k : Kind} {id : ℕ}
  {w : Waker}

def Woke : Ev T → Prop
  | .woke _ => True
  | _ => False

def Polled : Ev T → Prop
  | .polled => True
  | _ => False

/-- The loop is left. -/
def Leaves : Ev T → Prop
  | .ready _ | .panicked | .checked true => True
  | _ => False

/-- An event of the runner itself. -/
def own : Ev T → Bool
  | .woke _ | .aborted | .took _ | .abortReturned => false
  | _ => true

/-! ## A wake is kept -/

/-- Between a poll and `wait`, or asleep. -/
def waits (pc : Pc T) : Bool := pc matches .polling | .recheck | .wait | .blocked

/-- Where a wake since the last poll stands: it is not asleep on it, and it is called. -/
structure Heard (s : Sys T) : Prop where
  kept : waits s.pc → s.woken = true
  called : 0 < s.wakers

theorem wake_woken (hk : s.kind = .blockOn ∨ s.kind = .async) :
    (s.wake w).1.woken = true := by
  rcases hk with hk | hk <;> simp [Sys.wake, hk]

theorem heard_woke (hk : s.kind = .blockOn ∨ s.kind = .async) (hm : Made s)
    (h : step s op = some (s', es)) {x : Ev T} (hx : x ∈ es) (hw : Woke x) : Heard s' := by
  cases step_moved h with
  | wake h0 hle =>
    refine ⟨fun _ => wake_woken hk, ?_⟩
    rw [wake_wakers]
    exact Nat.lt_of_lt_of_le h0 hle
  | give hc =>
    refine ⟨fun _ => wake_woken hk, ?_⟩
    obtain ⟨h0, hle⟩ := hm.took _ _ hc
    rw [wake_wakers]
    exact Nat.lt_of_lt_of_le h0 hle
  | _ =>
    exfalso
    simp only [mem_cons, not_mem_nil, or_false] at hx
    rcases hx with rfl | rfl <;> exact hw

theorem heard_step (hk : s.kind = .blockOn ∨ s.kind = .async) (hh : Heard s)
    (h : step s op = some (s', es)) (hn : ∀ y ∈ es, ¬ Polled y) : Heard s' := by
  have hkept := hh.kept
  have hcalled := hh.called
  cases step_moved h with
  | beginBlockOn | begin | beginLocal => exact ⟨by simp [waits], Nat.succ_pos _⟩
  | poll => exact absurd trivial (hn .polled (by simp))
  | ready | panics => exact ⟨by cases s.kind <;> simp [Kind.leave, waits], hcalled⟩
  | pending hpc hp | recheck hpc => exact ⟨fun _ => hkept (by simp [hpc, waits]), hcalled⟩
  | block hpc hw =>
    rw [hkept (by simp [hpc, waits])] at hw
    cases hw
  | skip | resume => exact ⟨by cases s.kind <;> simp [Kind.again, waits], hcalled⟩
  | wake | give => exact ⟨fun _ => wake_woken hk, by rw [wake_wakers]; exact hcalled⟩
  | abort | take | giveNone => exact ⟨hkept, hcalled⟩
  | _ => exact ⟨by simp [waits], hcalled⟩

theorem heard (hk : k = .blockOn ∨ k = .async) (h : Run step Any (new k id) tr s) :
    Since Woke Polled tr → Heard s := by
  have hrun := h.along (I := fun _ s => s.kind = k ∧ Made s)
    fun _ _ h => ⟨kind_run h, made_run h⟩
  refine hrun.since ?_ ?_
  · rintro _ s _ s' es x ⟨-, hkind, hm⟩ hs hx hw
    exact heard_woke (hkind ▸ hk) hm hs hx hw
  · rintro _ s _ s' es ⟨-, hkind, -⟩ hs hh hn
    exact heard_step (hkind ▸ hk) hh hs hn

theorem blocked_run (h : Run step Any (new k id) tr s) : s.pc = .blocked → s.woken = false := by
  refine (h.along (I := fun _ s => s.kind ∈ kinds s.pc) fun _ _ h => kinds_run h).inv
    (I := fun _ s => s.pc = .blocked → s.woken = false) ?_ ?_
  · cases k <;> simp [new]
  · rintro _ s _ s' es hI ⟨-, hkinds⟩ hs
    cases step_moved hs with
    | ready | panics => cases s.kind <;> rintro ⟨⟩
    | pending hpc hk =>
      rintro rfl
      rcases hkind : s.kind <;> rw [hkind] at hk <;> cases hk
    | skip | resume => exact fun _ => rfl
    | block _ hw => exact fun _ => hw
    | wake | give =>
      intro hb
      exfalso
      rcases hpc : s.pc <;> rcases hkind : s.kind <;> simp_all [Sys.wake, kinds]
    | abort | take | giveNone => exact hI
    | _ => rintro ⟨⟩

/-! ## The next poll -/

/-- How many steps of its own the runner is away from its next poll. -/
def ahead : Pc T → ℕ
  | .polling => 5
  | .recheck => 4
  | .wait | .resuming | .register => 3
  | .check => 2
  | .poll => 1
  | _ => 0

/-- On the way to the next poll, with nothing that could stop it. -/
def Awake (s : Sys T) : Prop := 0 < ahead s.pc ∧ (waits s.pc → s.woken = true)

theorem ahead_le (pc : Pc T) : ahead pc ≤ 5 := by
  cases pc <;> simp [ahead]

theorem wake_awake (hk : s.kind = .blockOn ∨ s.kind = .async) (ha : Awake s) :
    (s.wake w).1.pc = s.pc ∧ Awake (s.wake w).1 := by
  have hpc : (s.wake w).1.pc = s.pc := by
    rcases wake_pc (s := s) (w := w) with hp | ⟨hb, -⟩
    · exact hp
    · rw [Awake, hb] at ha
      exact absurd ha.1 (by simp [ahead])
  refine ⟨hpc, ?_, fun _ => wake_woken hk⟩
  rw [hpc]
  exact ha.1

/-- **Every step of the runner brings the next poll nearer**, and nothing else moves it away. -/
theorem awake_step (hk : s.kind = .blockOn ∨ s.kind = .async) (ha : Awake s)
    (h : step s op = some (s', es)) :
    (∃ x ∈ es, Polled x ∨ Leaves x) ∨ Awake s' ∧ ahead s'.pc + es.countP own ≤ ahead s.pc := by
  obtain ⟨hpos, hwoken⟩ := ha
  cases step_moved h with
  | poll => exact .inl ⟨.polled, by simp, .inl trivial⟩
  | @ready v => exact .inl ⟨.ready v, by simp, .inr trivial⟩
  | panics => exact .inl ⟨.panicked, by simp, .inr trivial⟩
  | observe | reobserve => exact .inl ⟨.checked true, by simp, .inr trivial⟩
  | register hpc | check hpc | recheck hpc =>
    rw [hpc] at hwoken
    refine .inr ⟨⟨?_, ?_⟩, ?_⟩ <;> simp_all [ahead, waits, own]
  | pending hpc hp =>
    rw [hpc] at hwoken
    rcases hk with hk | hk <;> rw [hk] at hp <;> cases hp <;>
      exact .inr ⟨⟨by simp [ahead], by simp_all [waits]⟩, by simp [hpc, ahead, own]⟩
  | skip hpc | resume hpc =>
    refine .inr ?_
    rcases hk with hk | hk <;> simp [hk, hpc, Kind.again, Awake, ahead, waits, own]
  | block hpc hw =>
    rw [hwoken (by simp [hpc, waits])] at hw
    cases hw
  | wake | give =>
    obtain ⟨hpc, ha⟩ := wake_awake hk ⟨hpos, hwoken⟩
    exact .inr ⟨ha, by simp [hpc, own]⟩
  | abort | take | giveNone => exact .inr ⟨⟨hpos, hwoken⟩, by simp [own]⟩
  | _ => simp_all [ahead]

/-- **Five steps of the runner get it to its next poll**, unless it leaves its loop on the way. -/
theorem awake_run (hk : s.kind = .blockOn ∨ s.kind = .async) (ha : Awake s)
    (h : Run step Any s es s') :
    (∃ x ∈ es, Polled x ∨ Leaves x) ∨ Awake s' ∧ ahead s'.pc + es.countP own ≤ ahead s.pc := by
  refine (h.rank (P := fun x => Polled x ∨ Leaves x) (K := fun s' => s'.kind = s.kind ∧ Awake s')
    (m := fun s => ahead s.pc) ⟨rfl, ha⟩ ?_).imp_right fun h => ⟨h.1.2, h.2⟩
  rintro tr s₁ op s₂ es ⟨hkind, ha⟩ - hs
  refine (awake_step (hkind ▸ hk) ha hs).imp_right fun h => ⟨⟨?_, h.1⟩, h.2⟩
  rw [kind_step hs, hkind]

/-- In its loop, or not called. -/
def Looping (pc : Pc T) : Prop := 0 < ahead pc ∨ pc = .queued ∨ pc = .blocked ∨ pc = .gone

theorem wake_looping (h : Looping s.pc) : Looping (s.wake w).1.pc := by
  rcases wake_pc (s := s) (w := w) with hp | ⟨-, hp⟩
  · rw [hp]
    exact h
  · rw [hp]
    exact .inl (by simp [ahead])

theorem looping_step (hk : s.kind = .blockOn ∨ s.kind = .async) (hl : Looping s.pc)
    (h : step s op = some (s', es)) (hn : ∀ x ∈ es, ¬ Leaves x) : Looping s'.pc := by
  cases step_moved h with
  | call hkind =>
    rw [hkind] at hk
    simp at hk
  | @ready v => exact absurd trivial (hn (.ready v) (by simp))
  | panics => exact absurd trivial (hn .panicked (by simp))
  | observe | reobserve => exact absurd trivial (hn (.checked true) (by simp))
  | pending _ hp => rcases hk with hk | hk <;> rw [hk] at hp <;> cases hp <;> simp [Looping, ahead]
  | skip | resume => rcases hk with hk | hk <;> simp [hk, Kind.again, Looping, ahead]
  | wake | give => exact wake_looping hl
  | abort | take | giveNone => exact hl
  | _ => simp_all [Looping, ahead]

theorem looping_run (hk : k = .blockOn ∨ k = .async) (h : Run step Any (new k id) tr s)
    (hl : ∀ x ∈ tr, ¬ Leaves x) : Looping s.pc := by
  refine (h.along (I := fun _ s => s.kind = k) fun _ _ h => kind_run h).inv
    (I := fun tr s => (∀ x ∈ tr, ¬ Leaves x) → Looping s.pc) ?_ ?_ hl
  · intro _
    rcases hk with rfl | rfl <;> exact .inr (.inl rfl)
  · rintro tr s op s' es hI ⟨-, hkind⟩ hs hl
    have hold : ∀ x ∈ tr, ¬ Leaves x := fun x hx => hl x (mem_append_left _ hx)
    have hnew : ∀ x ∈ es, ¬ Leaves x := fun x hx => hl x (mem_append_right _ hx)
    exact looping_step (hkind ▸ hk) (hI hold) hs hnew

/-- **Since a wake, a runner that has not left its loop is on the way to its next poll.** -/
theorem awake_of_since (hk : k = .blockOn ∨ k = .async) (h : Run step Any (new k id) tr s)
    (hw : Since Woke Polled tr) (hl : ∀ x ∈ tr, ¬ Leaves x) : Awake s := by
  obtain ⟨hkept, hcalled⟩ := heard hk h hw
  refine ⟨?_, hkept⟩
  have hm := made_run h
  rcases looping_run hk h hl with ha | hq | hb | hg
  · exact ha
  · rw [hm.queued hq] at hcalled
    exact absurd hcalled (Nat.lt_irrefl 0)
  · have hfalse := blocked_run h hb
    rw [hkept (by simp [hb, waits])] at hfalse
    cases hfalse
  · have hne : s.kind ≠ .localJoin := by
      rw [kind_run h]
      rcases hk with rfl | rfl <;> nofun
    rw [hm.gone hne hg] at hcalled
    exact absurd hcalled (Nat.lt_irrefl 0)

/-- The runner can take a step, or the slot is locked by an `abort` that can. -/
def CanGo (s : Sys T) : Prop :=
  (∃ op r, step s op = some r ∧ r.2.any own) ∨
    ∃ c, s.state.lock = some c ∧ (step s (.abortAdvance c)).isSome

theorem locked_goes (hm : Made s) (hl : s.state.lock ≠ none) :
    ∃ c, s.state.lock = some c ∧ (step s (.abortAdvance c)).isSome := by
  obtain ⟨c, hc⟩ := ne_none_iff_exists'.mp hl
  obtain ⟨w, hw⟩ := (hm.locked c).mp hc
  exact ⟨c, hc, by simp [step, Sys.abortAdvance, hw]⟩

theorem advance_goes (h : s.advance.isSome) : CanGo s := by
  obtain ⟨r, hr⟩ := isSome_iff_exists.mp h
  refine .inl ⟨.advance, r, hr, ?_⟩
  unfold Sys.advance Sys.isCancelled at hr
  split at hr <;> (try split_ifs at hr) <;> cases hr <;> rfl

theorem awake_goes (hk : s.kind = .blockOn ∨ s.kind = .async) (hm : Made s) (ha : Awake s) :
    CanGo s := by
  have hpos := ha.1
  by_cases hl : s.state.lock = none
  · by_cases hpc : s.pc = .polling
    · refine .inl ⟨.pending, ?_⟩
      rcases hk with hk | hk <;> simp [step, Sys.pending, hpc, hk, Kind.pended, own]
    · refine advance_goes ?_
      unfold Sys.advance
      split <;> (try split_ifs) <;> simp_all [ahead]
  · exact .inr (locked_goes hm hl)

theorem cancelled_run {C : List (Ev T) → Sys T → Op T → Prop} (h : Run step C (new k id) tr s) :
    (s.state.cancelled = true → .aborted ∈ tr) ∧ (.checked true ∈ tr → .aborted ∈ tr) := by
  refine h.inv (I := fun tr s => (s.state.cancelled = true → .aborted ∈ tr) ∧
    (.checked true ∈ tr → .aborted ∈ tr)) ⟨nofun, nofun⟩ ?_
  rintro tr s op s' es ⟨hc, ht⟩ - hs
  cases step_moved hs with
  | observe _ hcancelled | reobserve _ hcancelled => simp [hc hcancelled]
  | abort => simp
  | _ => simp_all

/-- **`block_on` and task runners lose no wake.**  A runner sleeps in the condition wait only if it
has not been woken since its latest poll began.  After a wake a runner that has not left its loop
can always go on, and within five steps of its own it has begun another poll or left the loop: with
a poll that is ready or panics, or because it was aborted. -/
theorem no_wake_lost (hk : k = .blockOn ∨ k = .async) (h : Run step Any (new k id) tr s) :
    (s.pc = .blocked → s.woken = false ∧ ¬ Since Woke Polled tr) ∧
      (Since Woke Polled tr → (∀ x ∈ tr, ¬ Leaves x) → CanGo s ∧
        ∀ es s', Run step Any s es s' → 5 ≤ es.countP own → ∃ x ∈ es, Polled x ∨ Leaves x) ∧
      (.checked true ∈ tr → .aborted ∈ tr) := by
  refine ⟨fun hb => ⟨blocked_run h hb, fun hw => ?_⟩, fun hw hl => ⟨?_, fun es s' h' hes => ?_⟩,
    (cancelled_run h).2⟩
  · have hwoken := (heard hk h hw).kept (by simp [hb, waits])
    rw [blocked_run h hb] at hwoken
    cases hwoken
  · exact awake_goes (kind_run h ▸ hk) (made_run h) (awake_of_since hk h hw hl)
  · rcases awake_run (kind_run h ▸ hk) (awake_of_since hk h hw hl) h' with hx | ⟨ha, hle⟩
    · exact hx
    · have h5 := ahead_le s.pc
      have hpos := ha.1
      omega

/-- A wake during the first poll, which is pending. -/
theorem no_wake_lost_pending : ∃ (s : Sys ℕ) (tr : List (Ev ℕ)),
    Run step Any (new .async 1) tr s ∧ s.pc = .wait ∧ CanGo s ∧
      ∀ es s', Run step Any s es s' → 5 ≤ es.countP own → ∃ x ∈ es, Polled x ∨ Leaves x := by
  have hrun : Run step Any (new .async 1 : Sys ℕ)
      [.began 1, .registered 1, .checked false, .polled, .woke 1, .pended, .checked false]
      { kind := .async, state := ⟨false, false, some 1, none, 1⟩, woken := true, wakers := 1
        pc := .wait, aborts := [] } :=
    run_exec [.start, .advance, .advance, .advance, .wake 1, .pending, .advance] rfl
  have hsince : Since Woke Polled ([.began 1, .registered 1, .checked false, .polled, .woke 1,
      .pended, .checked false] : List (Ev ℕ)) :=
    ⟨[.began 1, .registered 1, .checked false, .polled], .woke 1, [.pended, .checked false], rfl,
      trivial, by simp [Polled]⟩
  have hlost := (no_wake_lost (.inr rfl) hrun).2.1 hsince (by simp [Leaves])
  exact ⟨_, _, hrun, rfl, hlost.1, hlost.2⟩

end OhosFfrt.Task.Wakes
