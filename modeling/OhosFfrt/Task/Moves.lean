import OhosFfrt.Lib.Arena
import OhosFfrt.Task.Runner

/-!
# `runtime` and `task`: what a step of a runner can do

`step_moved` lists what a step can do to a runner and to the calls of `abort`.  `kinds` says which
runners can be at a place.
-/

namespace OhosFfrt.Task.Moves

open Basic Lib.Arena Lib.Runs Task.Runner List Option

variable {T : Type*} {s s' : Sys T} {op : Op T} {tr es : List (Ev T)} {pc : Pc T} {k : Kind}
  {id c : ℕ} {C : List (Ev T) → Sys T → Op T → Prop}

/-! ## A wake -/

section wake
variable {w : Waker} {p : Pc T → Bool}

@[simp] theorem wake_kind : (s.wake w).1.kind = s.kind := by
  unfold Sys.wake; split <;> rfl

@[simp] theorem wake_state : (s.wake w).1.state = s.state := by
  unfold Sys.wake; split <;> rfl

@[simp] theorem wake_wakers : (s.wake w).1.wakers = s.wakers := by
  unfold Sys.wake; split <;> rfl

@[simp] theorem wake_aborts : (s.wake w).1.aborts = s.aborts := by
  unfold Sys.wake; split <;> rfl

@[simp] theorem wake_events : (s.wake w).2 = [.woke w] := by
  unfold Sys.wake; split <;> rfl

/-- A wake makes a runner in `cond_wait` ready to go on, and moves no other. -/
theorem wake_pc : (s.wake w).1.pc = s.pc ∨ s.pc = .blocked ∧ (s.wake w).1.pc = .resuming := by
  rcases hpc : s.pc <;> rcases hk : s.kind <;> simp [Sys.wake, hpc, hk]

theorem wake_at (h : p (s.wake w).1.pc = true) (hn : p .resuming = false) : p s.pc = true := by
  rcases wake_pc (s := s) (w := w) with hp | ⟨-, hp⟩
  · rwa [hp] at h
  · rw [hp, hn] at h
    cases h

theorem wake_keeps (h : p s.pc = true) (hn : p .blocked = false) :
    p (s.wake w).1.pc = true := by
  rcases wake_pc (s := s) (w := w) with hp | ⟨hb, -⟩
  · rwa [hp]
  · rw [hb, hn] at h
    cases h

end wake

/-! ## A step -/

/-- **What a step can do.** -/
inductive Moved (s : Sys T) : Op T → Sys T → List (Ev T) → Prop
  | call (hk : s.kind = .blocking) (hpc : s.pc = .queued) :
      Moved s .start { s with pc := .check } [.started]
  | beginBlockOn (hk : s.kind = .blockOn) (hpc : s.pc = .queued) :
      Moved s .start { s with wakers := s.wakers + 1, pc := .poll } [.began (s.wakers + 1)]
  | begin (hk : s.kind = .async) (hpc : s.pc = .queued) :
      Moved s .start { s with wakers := s.wakers + 1, pc := .register } [.began (s.wakers + 1)]
  | beginLocal (hk : s.kind = .localJoin) (hpc : s.pc = .idle) :
      Moved s .start { s with wakers := s.wakers + 1, pc := .register } [.began (s.wakers + 1)]
  | discard (hk : s.kind ≠ .blockOn) (hpc : s.pc = .queued) :
      Moved s .discard { s with pc := .gone } [.dropped, .senderDropped]
  | register (hpc : s.pc = .register) (hl : s.state.lock = none) :
      Moved s .advance { s with state := s.state.register s.wakers, pc := .check }
        [.registered s.wakers]
  | observe (hpc : s.pc = .check) (hc : s.state.cancelled = true) :
      Moved s .advance { s with pc := .dropping s.cancelled false } [.checked true]
  | reobserve (hpc : s.pc = .recheck) (hc : s.state.cancelled = true) :
      Moved s .advance { s with pc := .dropping s.cancelled false } [.checked true]
  | check (hpc : s.pc = .check) (hc : s.state.cancelled = false) :
      Moved s .advance { s with pc := .poll } [.checked false]
  | recheck (hpc : s.pc = .recheck) (hc : s.state.cancelled = false) :
      Moved s .advance { s with pc := .wait } [.checked false]
  | poll (hpc : s.pc = .poll) : Moved s .advance { s with pc := .polling } [.polled]
  | ready {v : T} (hpc : s.pc = .polling) :
      Moved s (.ready v) { s with pc := s.kind.leave (.ok v) false } [.ready v]
  | pending {pc : Pc T} (hpc : s.pc = .polling) (hk : s.kind.pended = some pc) :
      Moved s .pending { s with pc := pc } [.pended]
  | panics (hpc : s.pc = .polling) :
      Moved s .panics { s with pc := s.kind.leave s.panicError (s.kind = .async) } [.panicked]
  | skip (hpc : s.pc = .wait) (hw : s.woken = true) :
      Moved s .advance { s with woken := false, pc := s.kind.again } [.skipped]
  | block (hpc : s.pc = .wait) (hw : s.woken = false) :
      Moved s .advance { s with pc := .blocked } [.blocked]
  | spurious (hpc : s.pc = .blocked) : Moved s .spurious { s with pc := .resuming } [.spurious]
  | resume (hpc : s.pc = .resuming) :
      Moved s .advance { s with woken := false, pc := s.kind.again } [.resumed]
  | tear {u : Bool} (hpc : s.pc = .idle) :
      Moved s (.teardown u) { s with pc := .tearing u } [.torn u]
  | drop {r : Result T} {u : Bool} (hpc : s.pc = .dropping r u) :
      Moved s .drops { s with pc := .finish r (s.kind ≠ .localJoin) } [.dropped]
  | dropTorn {u : Bool} (hpc : s.pc = .tearing u) :
      Moved s .drops { s with pc := .finish s.cancelled true } [.dropped]
  | dropPanics {r : Result T} (hk : s.kind = .async) (hpc : s.pc = .dropping r false) :
      Moved s .dropPanics { s with pc := .finish s.panicError true } [.dropPanicked]
  | dropPanicsLocal {r : Result T} {u : Bool} (hk : s.kind = .localJoin)
      (hpc : s.pc = .dropping r u) :
      Moved s .dropPanics { s with pc := .finish s.cancelled true } [.dropPanicked]
  | dropPanicsTorn (hk : s.kind = .localJoin) (hpc : s.pc = .tearing false) :
      Moved s .dropPanics { s with pc := .gone } [.dropPanicked, .senderDropped]
  | finish {r : Result T} {last : Bool} (hpc : s.pc = .finish r last) :
      Moved s .advance { s with state := { s.state with finished := true }, pc := .clear r last }
        [.finished (!s.state.finished)]
  | clear {r : Result T} {last : Bool} (hpc : s.pc = .clear r last) (hl : s.state.lock = none) :
      Moved s .advance { s with state := { s.state with waker := none }, pc := .send r last }
        [.cleared]
  | send {r : Result T} (hpc : s.pc = .send r true) :
      Moved s .advance { s with pc := .done } [.sends r]
  | sendLocal {r : Result T} (hpc : s.pc = .send r false) :
      Moved s .advance { s with pc := .refinish } [.sends r]
  | refinish (hpc : s.pc = .refinish) :
      Moved s .advance { s with state := { s.state with finished := true }, pc := .reclear }
        [.finished (!s.state.finished)]
  | reclear (hpc : s.pc = .reclear) (hl : s.state.lock = none) :
      Moved s .advance { s with state := { s.state with waker := none }, pc := .done } [.cleared]
  | wake {w : Waker} (h0 : 0 < w) (hw : w ≤ s.wakers) : Moved s (.wake w) (s.wake w).1 [.woke w]
  | abort (hk : s.kind ≠ .blockOn) :
      Moved s .abort { s with
        state := { s.state with cancelled := true }
        aborts := s.aborts ++ [.stored] } [.aborted]
  | take {c : ℕ} (hc : s.aborts[c]? = some .stored) (hl : s.state.lock = none) :
      Moved s (.abortAdvance c) { s with
        state := { s.state with waker := none, lock := some c }
        aborts := s.aborts.set c (.took s.state.waker) } [.took s.state.waker]
  | giveNone {c : ℕ} (hc : s.aborts[c]? = some (.took none)) :
      Moved s (.abortAdvance c) { s with
        state := { s.state with lock := none }
        aborts := s.aborts.set c .returned } [.abortReturned]
  | give {c : ℕ} {w : Waker} (hc : s.aborts[c]? = some (.took (some w))) :
      Moved s (.abortAdvance c) { (s.wake w).1 with
        state := { s.state with lock := none }
        aborts := s.aborts.set c .returned } [.woke w, .abortReturned]

theorem start_moved (h : s.start = some (s', es)) : Moved s .start s' es := by
  unfold Sys.start at h
  split at h <;> cases h
  · exact .beginBlockOn ‹_› ‹_›
  · exact .begin ‹_› ‹_›
  · exact .call ‹_› ‹_›
  · exact .beginLocal ‹_› ‹_›

theorem advance_moved (h : s.advance = some (s', es)) : Moved s .advance s' es := by
  unfold Sys.advance Sys.isCancelled at h
  split at h
  · split_ifs at h with hl
    cases h
    exact .register ‹_› hl
  · split_ifs at h with hc <;> cases h
    · exact .observe ‹_› hc
    · exact .check ‹_› (by simpa using hc)
  · cases h
    exact .poll ‹_›
  · split_ifs at h with hc <;> cases h
    · exact .reobserve ‹_› hc
    · exact .recheck ‹_› (by simpa using hc)
  · split_ifs at h with hw <;> cases h
    · exact .skip ‹_› hw
    · exact .block ‹_› (by simpa using hw)
  · cases h
    exact .resume ‹_›
  · cases h
    exact .finish ‹_›
  · split_ifs at h with hl
    cases h
    exact .clear ‹_› hl
  · rename_i last hpc
    cases h
    cases last
    · exact .sendLocal hpc
    · exact .send hpc
  · cases h
    exact .refinish ‹_›
  · split_ifs at h with hl
    cases h
    exact .reclear ‹_› hl
  · cases h

theorem dropPanics_moved (h : s.dropPanics = some (s', es)) : Moved s .dropPanics s' es := by
  unfold Sys.dropPanics at h
  split at h <;> cases h
  · exact .dropPanics ‹_› ‹_›
  · exact .dropPanicsLocal ‹_› ‹_›
  · exact .dropPanicsTorn ‹_› ‹_›

theorem abortAdvance_moved (h : s.abortAdvance c = some (s', es)) :
    Moved s (.abortAdvance c) s' es := by
  unfold Sys.abortAdvance at h
  rw [bind_eq_some_iff] at h
  obtain ⟨a, hc, h⟩ := h
  rcases a with _ | (_ | w) | _
  · dsimp only at h
    split_ifs at h with hl
    cases h
    exact .take hc hl
  · cases h
    exact .giveNone hc
  · simp only [elim_some, wake_state, wake_aborts, wake_events, cons_append,
      nil_append] at h
    cases h
    exact .give hc
  · cases h

theorem step_moved (h : step s op = some (s', es)) : Moved s op s' es := by
  cases op with
  | start => exact start_moved h
  | discard =>
    simp only [step] at h
    split at h <;> [skip; cases h]
    split_ifs at h with hk
    cases h
    exact .discard hk ‹_›
  | advance => exact advance_moved h
  | ready | panics | spurious | teardown =>
    simp only [step, Sys.ready, Sys.panics] at h
    split at h <;> cases h
    constructor
    assumption
  | pending =>
    simp only [step, Sys.pending] at h
    split at h <;> [skip; cases h]
    obtain ⟨pc, hk, h⟩ := map_eq_some_iff.mp h
    cases h
    exact .pending ‹_› hk
  | drops =>
    simp only [step, Sys.drops] at h
    split at h <;> cases h
    · exact .drop ‹_›
    · exact .dropTorn ‹_›
  | dropPanics => exact dropPanics_moved h
  | wake w =>
    simp only [step] at h
    split_ifs at h with hw
    rw [some.injEq] at h
    obtain ⟨rfl, rfl⟩ : (s.wake w).1 = s' ∧ (s.wake w).2 = es :=
      ⟨congrArg Prod.fst h, congrArg Prod.snd h⟩
    rw [wake_events]
    exact .wake hw.1 hw.2
  | abort =>
    simp only [step] at h
    split_ifs at h with hk
    cases h
    exact .abort hk
  | abortAdvance => exact abortAdvance_moved h

/-! ## Where a runner can be -/

/-- The kinds of runners that can be at a place. -/
def kinds : Pc T → List Kind
  | .queued => [.blockOn, .async, .blocking]
  | .idle | .tearing _ | .refinish | .reclear => [.localJoin]
  | .register => [.async, .localJoin]
  | .check => [.async, .blocking, .localJoin]
  | .recheck => [.async]
  | .wait | .blocked | .resuming => [.blockOn, .async]
  | .poll | .polling => [.blockOn, .async, .blocking, .localJoin]
  | .dropping .. | .done | .gone => [.async, .blocking, .localJoin]
  | .returned => [.blockOn]
  | .finish _ last | .clear _ last | .send _ last =>
    if last then [.async, .blocking, .localJoin] else [.localJoin]

theorem kind_step (h : step s op = some (s', es)) : s'.kind = s.kind := by
  cases step_moved h <;> first | rfl | exact wake_kind

theorem kind_run (h : Run step C (new k id) tr s) : s.kind = k := by
  refine h.inv (I := fun _ s => s.kind = k) rfl ?_
  intro _ s _ s' _ hk _ hs
  rw [kind_step hs, hk]

theorem kinds_wake {w : Waker} (hf : s.kind ∈ kinds s.pc) :
    s.kind ∈ kinds (s.wake w).1.pc := by
  rcases wake_pc (s := s) (w := w) with hp | ⟨hb, hp⟩
  · rw [hp]
    exact hf
  · rw [hb] at hf
    rw [hp]
    exact hf

theorem kinds_step (hf : s.kind ∈ kinds s.pc) (h : step s op = some (s', es)) :
    s'.kind ∈ kinds s'.pc := by
  cases step_moved h with
  | pending hpc hk =>
    rcases hkind : s.kind <;> rw [hkind] at hk <;>
      simp only [Kind.pended, some.injEq, reduceCtorEq] at hk <;> subst hk <;>
      simp [kinds]
  | ready hpc | panics hpc => rcases hkind : s.kind <;> simp [Kind.leave, kinds]
  | skip hpc | resume hpc => rw [hpc] at hf; rcases hkind : s.kind <;> simp_all [Kind.again, kinds]
  | wake | give =>
    rw [wake_kind]
    exact kinds_wake hf
  | discard hk hpc | register hpc hl =>
    simp_all only [kinds, mem_cons, not_mem_nil, or_false]
    tauto
  | drop hpc =>
    rw [hpc] at hf
    by_cases hk : s.kind = .localJoin <;> simp_all [kinds]
  | _ => simp_all [kinds]

theorem kinds_run (h : Run step C (new k id) tr s) : s.kind ∈ kinds s.pc := by
  refine h.inv (I := fun _ s => s.kind ∈ kinds s.pc) ?_ ?_
  · cases k <;> simp [new, kinds]
  · intro _ s _ s' _ hf _ hs
    exact kinds_step hf hs

/-! ## The wakers and the lock -/

section register
variable {state : CancellationState} {w : Waker}

@[simp] theorem register_waker : (state.register w).waker = some w := by
  unfold CancellationState.register
  rcases hw : state.waker with _ | v
  · simp
  · by_cases hv : v = w
    · subst hv
      simp [hw]
    · simp [hv]

@[simp] theorem register_cancelled : (state.register w).cancelled = state.cancelled := by
  unfold CancellationState.register; split_ifs <;> rfl

@[simp] theorem register_finished : (state.register w).finished = state.finished := by
  unfold CancellationState.register; split_ifs <;> rfl

@[simp] theorem register_lock : (state.register w).lock = state.lock := by
  unfold CancellationState.register; split_ifs <;> rfl

@[simp] theorem register_id : (state.register w).id = state.id := by
  unfold CancellationState.register; split_ifs <;> rfl

end register

theorem snoc_stored {l : List Abort} {a : Abort} (h : (l ++ [.stored])[c]? = some a)
    (ha : a ≠ .stored) : l[c]? = some a := by
  rcases of_snoc h with h | ⟨-, rfl⟩
  · exact h
  · exact absurd rfl ha

/-- The wakers around are wakers that were made, the slot is locked by a call of `abort` that has
taken what was in it, and a runner that was not called has made no waker. -/
structure Made (s : Sys T) : Prop where
  slot : ∀ w, s.state.waker = some w → 0 < w ∧ w ≤ s.wakers
  took : ∀ (c : ℕ) w, s.aborts[c]? = some (.took (some w)) → 0 < w ∧ w ≤ s.wakers
  locked : ∀ c : ℕ, s.state.lock = some c ↔ ∃ w, s.aborts[c]? = some (.took w)
  queued : s.pc = .queued → s.wakers = 0
  registers : s.pc = .register → 0 < s.wakers
  gone : s.kind ≠ .localJoin → s.pc = .gone → s.wakers = 0

theorem leave_ne {r : Result T} {u : Bool} :
    k.leave r u ≠ .queued ∧ k.leave r u ≠ .register ∧ k.leave r u ≠ .gone := by
  cases k <;> simp [Kind.leave]

theorem pended_ne (h : k.pended = some pc) :
    pc ≠ .queued ∧ pc ≠ .register ∧ pc ≠ .gone := by
  cases k <;> simp only [Kind.pended, some.injEq, reduceCtorEq] at h <;> subst h <;> simp

theorem again_ne : k.again ≠ (.queued : Pc T) ∧ k.again ≠ (.register : Pc T) ∧
    k.again ≠ (.gone : Pc T) := by
  cases k <;> simp [Kind.again]

theorem wake_ne {w : Waker} (h : (s.wake w).1.pc = pc) (hpc : pc ≠ .resuming) :
    s.pc = pc := by
  rcases wake_pc (s := s) (w := w) with hp | ⟨-, hp⟩
  · rw [← hp, h]
  · rw [← h, hp] at hpc
    exact absurd rfl hpc

theorem Made.goes (h : Made s) {pc : Pc T} (hpc : pc ≠ .queued ∧ pc ≠ .register ∧ pc ≠ .gone)
    {woken : Bool} : Made { s with woken := woken, pc := pc } where
  slot := h.slot
  took := h.took
  locked := h.locked
  queued hq := absurd hq hpc.1
  registers hr := absurd hr hpc.2.1
  gone _ hg := absurd hg hpc.2.2

theorem Made.abort (h : Made s) : Made { s with
      state := { s.state with cancelled := true }
      aborts := s.aborts ++ [.stored] } where
  slot := h.slot
  took := by
    intro c w hc
    exact h.took c w (snoc_stored hc nofun)
  locked := by
    intro c
    rw [h.locked c]
    refine exists_congr fun w => ⟨fun hc => ?_, fun hc => snoc_stored hc nofun⟩
    exact get_append hc _
  queued := h.queued
  registers := h.registers
  gone := h.gone

theorem Made.take (h : Made s) {c : ℕ} (hc : s.aborts[c]? = some .stored)
    (hl : s.state.lock = none) :
    Made { s with
      state := { s.state with waker := none, lock := some c }
      aborts := s.aborts.set c (.took s.state.waker) } where
  slot := nofun
  took := by
    intro d w hd
    rcases of_set hc hd with ⟨rfl, heq⟩ | ⟨-, hd⟩
    · exact h.slot w (Abort.took.inj heq).symm
    · exact h.took d w hd
  locked := by
    intro d
    constructor
    · intro hd
      obtain rfl : c = d := some.inj hd
      exact ⟨_, get_set hc⟩
    · rintro ⟨w, hd⟩
      rcases of_set hc hd with ⟨rfl, -⟩ | ⟨-, hd⟩
      · rfl
      · rw [(h.locked d).mpr ⟨w, hd⟩] at hl
        cases hl
  queued := h.queued
  registers := h.registers
  gone := h.gone

theorem Made.give (h : Made s) {w : Option Waker} (hc : s.aborts[c]? = some (.took w)) :
    Made { s with
      state := { s.state with lock := none }
      aborts := s.aborts.set c .returned } where
  slot := h.slot
  took := by
    intro d v hd
    rcases of_set hc hd with ⟨-, heq⟩ | ⟨-, hd⟩
    · cases heq
    · exact h.took d v hd
  locked := by
    intro d
    constructor
    · intro hd
      cases hd
    · rintro ⟨v, hd⟩
      rcases of_set hc hd with ⟨-, heq⟩ | ⟨hne, hd⟩
      · cases heq
      · have h1 := (h.locked c).mpr ⟨w, hc⟩
        rw [(h.locked d).mpr ⟨v, hd⟩] at h1
        exact absurd (some.inj h1) hne
  queued := h.queued
  registers := h.registers
  gone := h.gone

theorem Made.wake (h : Made s) {w : Waker} : Made (s.wake w).1 where
  slot := by rw [wake_state, wake_wakers]; exact h.slot
  took := by rw [wake_aborts, wake_wakers]; exact h.took
  locked := by rw [wake_state, wake_aborts]; exact h.locked
  queued hq := by rw [wake_wakers]; exact h.queued (wake_ne hq nofun)
  registers hr := by rw [wake_wakers]; exact h.registers (wake_ne hr nofun)
  gone hk hg := by
    rw [wake_kind] at hk
    rw [wake_wakers]
    exact h.gone hk (wake_ne hg nofun)

theorem made_step (h : Made s) (hs : step s op = some (s', es)) : Made s' := by
  cases step_moved hs with
  | beginBlockOn | begin | beginLocal =>
    refine ⟨fun w hw => ?_, fun c w hc => ?_, h.locked, nofun, fun _ => Nat.succ_pos _, nofun⟩
    · exact (h.slot w hw).imp_right Nat.le_succ_of_le
    · exact (h.took c w hc).imp_right Nat.le_succ_of_le
  | discard hk hpc => exact ⟨h.slot, h.took, h.locked, nofun, nofun, fun _ _ => h.queued hpc⟩
  | register hpc =>
    have hpos : 0 < s.wakers := h.registers hpc
    refine ⟨fun w hw => ?_, h.took, fun c => ?_, nofun, nofun, nofun⟩
    · rw [register_waker] at hw
      cases hw
      exact ⟨hpos, Nat.le_refl _⟩
    · rw [register_lock]
      exact h.locked c
  | ready | panics => exact h.goes leave_ne
  | pending _ hk => exact h.goes (pended_ne hk)
  | skip | resume => exact h.goes again_ne
  | dropPanicsTorn hk => exact ⟨h.slot, h.took, h.locked, nofun, nofun, fun hne => absurd hk hne⟩
  | finish | refinish => exact ⟨h.slot, h.took, h.locked, nofun, nofun, nofun⟩
  | clear | reclear => exact ⟨nofun, h.took, h.locked, nofun, nofun, nofun⟩
  | wake => exact h.wake
  | abort => exact h.abort
  | take hc hl => exact h.take hc hl
  | giveNone hc => exact h.give hc
  | @give c w hc =>
    have hc' : (s.wake w).1.aborts[c]? = some (.took (some w)) := by rw [wake_aborts]; exact hc
    have hgive := h.wake.give hc'
    rwa [wake_state, wake_aborts] at hgive
  | _ => refine h.goes ⟨?_, ?_, ?_⟩ <;> nofun

theorem made_run (h : Run step C (new k id) tr s) : Made s := by
  refine h.inv ?_ fun _ _ _ _ _ hm _ hs => made_step hm hs
  refine ⟨nofun, nofun, fun c => ⟨nofun, nofun⟩, fun _ => rfl, ?_, fun _ _ => rfl⟩
  cases k <;> simp [new]

end OhosFfrt.Task.Moves
