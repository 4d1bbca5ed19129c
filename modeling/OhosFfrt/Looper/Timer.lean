import OhosFfrt.Lib.Arena
import OhosFfrt.Lib.Runs

/-!
# `looper`: the references to the data of a timer

The data of a timer is in an `Arc`.  One reference is the `LooperTimer`'s, one the registration's,
which FFRT has as a raw pointer, and a callback takes one for the time it runs.  Whoever finds
`registration_owned` set gives that of the registration up: `try_timer_start` if FFRT refuses the
timer, a `stop` that succeeds, or the callback of a one-shot timer.  A callback that has been
started has no reference before it has taken one.

`registration_released_once` is the protocol of these references, under what is assumed of the order
of steps; `callback_after_free` is what the code does without.
-/

namespace OhosFfrt.Looper

open Lib.Arena Lib.Runs List Option

/-! ## The system -/

/-- A call of `LooperTimer::stop`, by its user or by `drop`. -/
inductive Call
  | stop
  | drop
  deriving DecidableEq, Repr

/-- Where the thread that has the `LooperTimer` is. -/
inductive Pc
  /-- Before `ffrt_loop_timer_start`. -/
  | starting
  | idle
  /-- At the first load of `stop`. -/
  | loading (c : Call)
  /-- Before `ffrt_loop_timer_stop`. -/
  | stopping (c : Call)
  /-- It returned `ret`, which is not `0`. -/
  | reloading (c : Call) (ret : ℤ)
  /-- In `release_registration`. -/
  | swapping (c : Call)
  | decrementing (c : Call)
  /-- The `Arc` is dropped next. -/
  | dropping
  | gone
  deriving DecidableEq, Repr

/-- Where a callback is. -/
inductive Phase
  /-- Before `Arc::increment_strong_count`. -/
  | called
  | running
  /-- In `release_registration`. -/
  | swapping
  | decrementing
  /-- Its reference is dropped next. -/
  | leaving
  | finished
  deriving DecidableEq, Repr

inductive Ev
  | started
  | startFailed
  | stopped
  | stopFailed (ret : ℤ)
  | dropped
  | called (i : ℕ)
  | finished (i : ℕ)
  | released
  deriving DecidableEq, Repr

inductive Op
  /-- `ffrt_loop_timer_start` returns `handle`. -/
  | started (handle : ℤ)
  | stop
  | drop
  /-- `ffrt_loop_timer_stop` returns `ret`. -/
  | stopped (ret : ℤ)
  | go
  | callback
  | run (i : ℕ)
  deriving DecidableEq, Repr

/-- A timer: its `TimerData` with the strong count, the `LooperTimer`, and FFRT. -/
structure Sys where
  repeats : Bool
  registrationOwned : Bool
  strong : ℕ
  active : Bool
  handle : Pc
  /-- FFRT may start a callback. -/
  armed : Bool
  callbacks : List Phase
  deriving DecidableEq, Repr

/-- `try_timer_start` up to the call of FFRT: there are `data` and the raw pointer. -/
def new (repeats : Bool) : Sys := ⟨repeats, true, 2, false, .starting, false, []⟩

/-- What follows the call. -/
def Call.next : Call → Pc
  | .stop => .idle
  | .drop => .dropping

/-- The handle's call goes on. -/
def Sys.goOn (s : Sys) : Option (Sys × List Ev) :=
  match s.handle with
  | .loading c =>
    if !s.active || !s.registrationOwned then
      some ({ s with active := false, handle := c.next }, [.stopped])
    else some ({ s with handle := .stopping c }, [])
  | .reloading c ret =>
    if !s.registrationOwned then some ({ s with active := false, handle := c.next }, [.stopped])
    else some ({ s with handle := c.next }, [.stopFailed ret])
  | .swapping c =>
    if s.registrationOwned then
      some ({ s with registrationOwned := false, handle := .decrementing c }, [])
    else some ({ s with handle := c.next }, [.stopped])
  | .decrementing c =>
    some ({ s with strong := s.strong - 1, handle := c.next }, [.released, .stopped])
  | .dropping => some ({ s with strong := s.strong - 1, handle := .gone }, [.dropped])
  | _ => none

/-- The callback `i` goes on. -/
def Sys.advance (s : Sys) (i : ℕ) : Phase → Option (Sys × List Ev)
  | .called => some ({ s with strong := s.strong + 1, callbacks := s.callbacks.set i .running }, [])
  | .running =>
    some ({ s with
      callbacks := s.callbacks.set i (if s.repeats then .leaving else .swapping) }, [])
  | .swapping =>
    if s.registrationOwned then
      some ({ s with
        registrationOwned := false
        callbacks := s.callbacks.set i .decrementing }, [])
    else some ({ s with callbacks := s.callbacks.set i .leaving }, [])
  | .decrementing =>
    some ({ s with strong := s.strong - 1, callbacks := s.callbacks.set i .leaving }, [.released])
  | .leaving =>
    some ({ s with strong := s.strong - 1, callbacks := s.callbacks.set i .finished },
      [.finished i])
  | .finished => none

/-- **One step.**  FFRT calls no callback of a timer that it has refused, that it has stopped, or
that is one-shot and was called. -/
def step (s : Sys) : Op → Option (Sys × List Ev)
  | .started handle =>
    if s.handle = .starting then
      if handle < 0 then
        -- `release_registration`, and `data` is dropped: nobody else has the data
        some ({ s with registrationOwned := false, strong := s.strong - 1 - 1, handle := .gone },
          [.released, .startFailed])
      else some ({ s with handle := .idle, active := true, armed := true }, [.started])
    else none
  | .stop => if s.handle = .idle then some ({ s with handle := .loading .stop }, []) else none
  | .drop => if s.handle = .idle then some ({ s with handle := .loading .drop }, []) else none
  | .stopped ret =>
    match s.handle with
    | .stopping c =>
      if ret = 0 then some ({ s with active := false, armed := false, handle := .swapping c }, [])
      else some ({ s with handle := .reloading c ret }, [])
    | _ => none
  | .go => s.goOn
  | .callback =>
    if s.armed then
      some ({ s with armed := s.repeats, callbacks := s.callbacks ++ [.called] },
        [.called s.callbacks.length])
    else none
  | .run i => s.callbacks[i]?.bind (s.advance i)

/-- The thread has the reference of the `LooperTimer`. -/
def Pc.holds : Pc → Bool
  | .gone => false
  | _ => true

/-- The flag is taken and the reference of the registration not given up yet. -/
def Pc.releases : Pc → Bool
  | .decrementing _ => true
  | _ => false

/-- There is a `LooperTimer`, and it is not in `release_registration`. -/
def Pc.quiet : Pc → Bool
  | .idle | .loading _ | .stopping _ | .reloading _ _ | .dropping => true
  | _ => false

/-- It has its own reference. -/
def Phase.holds : Phase → Bool
  | .called | .finished => false
  | _ => true

/-- It is to drop the registration's reference. -/
def Phase.releases : Phase → Bool
  | .decrementing => true
  | _ => false

/-- The calls that have taken the flag and not given the reference up yet. -/
def Sys.releasing (s : Sys) : ℕ := s.handle.releases.toNat + s.callbacks.countP Phase.releases

/-! ## What a step can do -/

/-- **What a step can do**, to the `LooperTimer` or to a callback. -/
inductive Moved (s : Sys) (op : Op) : Sys → List Ev → Prop
  | refused (here : s.handle = .starting) :
      Moved s op { s with registrationOwned := false, strong := s.strong - 1 - 1, handle := .gone }
        [.released, .startFailed]
  | started (here : s.handle = .starting) :
      Moved s op { s with handle := .idle, active := true, armed := true } [.started]
  /-- A call begins, goes on, fails, or finds nothing to stop. -/
  | moves {pc : Pc} {active : Bool} {es : List Ev} (here : s.handle.quiet = true)
      (there : pc.quiet = true) (calm : ∀ x ∈ es, x = .stopped ∨ ∃ ret, x = .stopFailed ret)
      (vain : active = s.active ∧ .stopped ∉ es ∨ (op = .go ∧ s.handle ≠ .dropping) ∧
        (s.active = false ∨ s.registrationOwned = false)) :
      Moved s op { s with active := active, handle := pc } es
  | stops {c : Call} (here : s.handle.quiet = true) :
      Moved s op { s with active := false, armed := false, handle := .swapping c } []
  | swaps {c : Call} (here : s.handle = .swapping c) (owned : s.registrationOwned = true) :
      Moved s op { s with registrationOwned := false, handle := .decrementing c } []
  | late {c : Call} (own : op = .go) (here : s.handle = .swapping c)
      (owned : s.registrationOwned = false) :
      Moved s op { s with handle := c.next } [.stopped]
  | decrements {c : Call} (here : s.handle = .decrementing c) :
      Moved s op { s with strong := s.strong - 1, handle := c.next } [.released, .stopped]
  | drops (own : op = .go) (here : s.handle = .dropping) :
      Moved s op { s with strong := s.strong - 1, handle := .gone } [.dropped]
  | calls (armed : s.armed = true) :
      Moved s op { s with armed := s.repeats, callbacks := s.callbacks ++ [.called] }
        [.called s.callbacks.length]
  | enters {i : ℕ} (here : s.callbacks[i]? = some .called) :
      Moved s op { s with strong := s.strong + 1, callbacks := s.callbacks.set i .running } []
  | ran {i : ℕ} {p : Phase} (here : s.callbacks[i]? = some .running)
      (there : p = .leaving ∧ s.repeats = true ∨ p = .swapping ∧ s.repeats = false) :
      Moved s op { s with callbacks := s.callbacks.set i p } []
  | takes {i : ℕ} (here : s.callbacks[i]? = some .swapping) (owned : s.registrationOwned = true) :
      Moved s op { s with
        registrationOwned := false
        callbacks := s.callbacks.set i .decrementing } []
  | misses {i : ℕ} (here : s.callbacks[i]? = some .swapping)
      (owned : s.registrationOwned = false) :
      Moved s op { s with callbacks := s.callbacks.set i .leaving } []
  | gives {i : ℕ} (here : s.callbacks[i]? = some .decrementing) :
      Moved s op { s with strong := s.strong - 1, callbacks := s.callbacks.set i .leaving }
        [.released]
  | leaves {i : ℕ} (own : op = .run i) (here : s.callbacks[i]? = some .leaving) :
      Moved s op { s with strong := s.strong - 1, callbacks := s.callbacks.set i .finished }
        [.finished i]

variable {s s' : Sys} {op : Op} {tr es : List Ev} {r i : ℕ} {p : Phase}

theorem quiet_next (c : Call) : c.next.quiet = true := by
  cases c <;> rfl

theorem goOn_moved (h : s.goOn = some (s', es)) : Moved s .go s' es := by
  rcases hpc : s.handle with _ | _ | c | c | ⟨c, ret⟩ | c | c | _ | _ <;>
    simp only [Sys.goOn, hpc, reduceCtorEq] at h
  · -- the first load of `stop`
    have hquiet : s.handle.quiet = true := by rw [hpc]; rfl
    split_ifs at h with hover <;> cases h
    · exact .moves hquiet (quiet_next c) (by simp)
        (.inr ⟨⟨rfl, by simp [hpc]⟩, by simpa using hover⟩)
    · exact .moves hquiet rfl nofun (.inl ⟨rfl, nofun⟩)
  · -- the second
    have hquiet : s.handle.quiet = true := by rw [hpc]; rfl
    split_ifs at h with hover <;> cases h
    · exact .moves hquiet (quiet_next c) (by simp)
        (.inr ⟨⟨rfl, by simp [hpc]⟩, .inr (by simpa using hover)⟩)
    · exact .moves hquiet (quiet_next c) (by simp) (.inl ⟨rfl, by simp⟩)
  · split_ifs at h with howned <;> cases h
    · exact .swaps hpc howned
    · exact .late rfl hpc (by simpa using howned)
  · cases h
    exact .decrements hpc
  · cases h
    exact .drops rfl hpc

theorem advance_moved (hp : s.callbacks[i]? = some p)
    (h : s.advance i p = some (s', es)) : Moved s (.run i) s' es := by
  cases p <;> simp only [Sys.advance, reduceCtorEq] at h
  case swapping =>
    split_ifs at h with howned <;> cases h
    · exact .takes hp howned
    · exact .misses hp (by simpa using howned)
  all_goals cases h
  case called => exact .enters hp
  case running =>
    refine .ran hp ?_
    rcases s.repeats with _ | _
    · exact .inr ⟨rfl, rfl⟩
    · exact .inl ⟨rfl, rfl⟩
  case decrementing => exact .gives hp
  case leaving => exact .leaves rfl hp

/-- Every step is a move. -/
theorem step_moved (h : step s op = some (s', es)) : Moved s op s' es := by
  cases op with
  | started =>
    simp only [step] at h
    split_ifs at h with here <;> cases h
    · exact .refused here
    · exact .started here
  | stop | drop =>
    simp only [step] at h
    split_ifs at h with here
    cases h
    exact .moves (by rw [here]; rfl) rfl nofun (.inl ⟨rfl, nofun⟩)
  | stopped =>
    simp only [step] at h
    split at h
    · next c here =>
      have hquiet : s.handle.quiet = true := by rw [here]; rfl
      split_ifs at h <;> cases h
      · exact .stops hquiet
      · exact .moves hquiet rfl nofun (.inl ⟨rfl, nofun⟩)
    · cases h
  | go => exact goOn_moved h
  | callback =>
    simp only [step] at h
    split_ifs at h with harmed
    cases h
    exact .calls harmed
  | run =>
    obtain ⟨p, hp, h⟩ := bind_eq_some_iff.mp h
    exact advance_moved hp h

/-! ## The references -/

/-- What the place of a callback says. -/
def Phase.Fits (repeats owned : Bool) : Phase → Prop
  | .swapping | .decrementing => repeats = false
  | .leaving | .finished => repeats = false → owned = false
  | _ => True

/-- **The references and the flag**, when that of the registration was given up `r` times. -/
structure Inv (r : ℕ) (s : Sys) : Prop where
  strong : s.strong + r = 1 + s.handle.holds.toNat + s.callbacks.countP Phase.holds
  flag : r + s.releasing = (!s.registrationOwned).toNat
  starting : s.handle = .starting → s = new s.repeats ∧ r = 0
  armed : s.armed = true → s.registrationOwned = true ∧ ∀ c, s.handle ≠ .swapping c
  /-- The callback of a one-shot timer is called once. -/
  once : s.repeats = false → s.callbacks.length + s.armed.toNat ≤ 1
  active : s.active = false → s.handle.quiet = true → s.registrationOwned = false
  fits : ∀ p ∈ s.callbacks, p.Fits s.repeats s.registrationOwned

theorem Phase.Fits.mono {repeats owned owned' : Bool} (h : p.Fits repeats owned)
    (howned : owned = false → owned' = false) : p.Fits repeats owned' := by
  cases p with
  | leaving | finished => exact fun honce => howned (h honce)
  | _ => exact h

theorem quiet_spec {pc : Pc} (h : pc.quiet = true) : pc.holds = true ∧ pc.releases = false ∧
    pc ≠ .starting ∧ ∀ c, pc ≠ .swapping c := by
  cases pc <;> simp_all [Pc.quiet, Pc.holds, Pc.releases]

theorem Inv.le_one (h : Inv r s) : r ≤ 1 := by
  have hflag := h.flag
  have hone : (!s.registrationOwned).toNat ≤ 1 := Bool.toNat_le _
  omega

theorem Inv.of_owned (h : Inv r s) (howned : s.registrationOwned = true) :
    r = 0 ∧ s.releasing = 0 := by
  have hflag := h.flag
  rw [howned, Bool.not_true, Bool.toNat_false] at hflag
  omega

theorem Inv.of_releasing (h : Inv r s) (hpos : 0 < s.releasing) :
    s.registrationOwned = false ∧ r = 0 := by
  rcases howned : s.registrationOwned with _ | _
  · have hflag := h.flag
    rw [howned, Bool.not_false, Bool.toNat_true] at hflag
    exact ⟨rfl, by omega⟩
  · have hzero := (h.of_owned howned).2
    omega

theorem releasing_pos {c : Call} (h : s.handle = .decrementing c) : 0 < s.releasing := by
  unfold Sys.releasing
  rw [h]
  exact Nat.lt_add_right _ Nat.one_pos

theorem Inv.goes {pc : Pc} {active : Bool} {strong r' : ℕ} (h : Inv r s)
    (hholds : s.handle.holds = true) (there : pc.quiet = true)
    (hactive : active = s.active ∧ s.handle.quiet = true ∨ s.registrationOwned = false)
    (hstrong : strong + r' = s.strong + r) (hr : r' = r + s.handle.releases.toNat) :
    Inv r' { s with strong := strong, active := active, handle := pc } := by
  obtain ⟨hholds', hreleases', hstarting', hswapping'⟩ := quiet_spec there
  refine { h with strong := ?_, flag := ?_, starting := ?_, armed := ?_, active := ?_ }
  · rw [hholds', ← hholds, hstrong]
    exact h.strong
  · have hflag := h.flag
    unfold Sys.releasing at hflag ⊢
    rw [hreleases', Bool.toNat_false]
    show r' + (0 + s.callbacks.countP Phase.releases) = (!s.registrationOwned).toNat
    omega
  · exact fun hstarting => absurd hstarting hstarting'
  · exact fun harmed => ⟨(h.armed harmed).1, hswapping'⟩
  · intro hoff _
    rcases hactive with ⟨rfl, here⟩ | howned
    · exact h.active hoff here
    · exact howned

theorem Inv.runs {strong r' : ℕ} {p' : Phase} {owned : Bool} (h : Inv r s)
    (here : s.callbacks[i]? = some p)
    (hstrong : strong + r' + p.holds.toNat = s.strong + r + p'.holds.toNat)
    (hflag : r' + p'.releases.toNat + (!s.registrationOwned).toNat =
      r + p.releases.toNat + (!owned).toNat)
    (howned : owned = s.registrationOwned ∨ s.repeats = false ∧ owned = false)
    (hfits : p'.Fits s.repeats owned) :
    Inv r' { s with
      strong := strong, registrationOwned := owned, callbacks := s.callbacks.set i p' } := by
  have hlt := lt_length here
  have hmono : s.registrationOwned = false → owned = false := by
    intro hold
    rcases howned with rfl | ⟨-, rfl⟩
    · exact hold
    · rfl
  refine ⟨?_, ?_, fun hstarting => ?_, fun harmed => ?_, ?_, ?_, fun q hq => ?_⟩
  · have hcount := countP_set (b := p') (p := Phase.holds) here
    have hold := h.strong
    show strong + r' = 1 + s.handle.holds.toNat + (s.callbacks.set i p').countP Phase.holds
    omega
  · have hcount := countP_set (b := p') (p := Phase.releases) here
    have hold := h.flag
    unfold Sys.releasing at hold ⊢
    show r' + (s.handle.releases.toNat + (s.callbacks.set i p').countP Phase.releases) =
      (!owned).toNat
    omega
  · -- the timer was started
    have hnone : s.callbacks = [] := congrArg Sys.callbacks (h.starting hstarting).1
    rw [hnone] at hlt
    cases hlt
  · rcases howned with rfl | ⟨honce, -⟩
    · exact h.armed harmed
    · -- FFRT does not call a one-shot timer again
      have hcount := h.once honce
      have harmed : s.armed = true := harmed
      rw [harmed, Bool.toNat_true] at hcount
      omega
  · rw [length_set]
    exact h.once
  · exact fun hoff hquiet => hmono (h.active hoff hquiet)
  · rcases mem_or_eq_of_mem_set hq with hq | rfl
    · exact (h.fits q hq).mono hmono
    · exact hfits

theorem Inv.moved (h : Inv r s) (hm : Moved s op s' es) : Inv (r + es.count .released) s' := by
  have hstrong := h.strong
  have hflag := h.flag
  unfold Sys.releasing at hflag
  cases hm with
  | refused here =>
    obtain ⟨hnew, rfl⟩ := h.starting here
    rw [hnew]
    exact ⟨rfl, rfl, nofun, nofun, fun _ => Nat.zero_le _, fun _ => nofun, nofun⟩
  | started here =>
    obtain ⟨hnew, rfl⟩ := h.starting here
    rw [hnew]
    exact ⟨rfl, rfl, nofun, fun _ => ⟨rfl, nofun⟩, fun _ => Nat.le_refl _, nofun, nofun⟩
  | @moves pc active es here there calm vain =>
    have hzero : es.count .released = 0 := by
      refine count_eq_zero.mpr fun hmem => ?_
      rcases calm _ hmem with hx | ⟨ret, hx⟩ <;> cases hx
    obtain ⟨hholds, hreleases, -⟩ := quiet_spec here
    rw [hzero]
    refine h.goes hholds there ?_ rfl (by rw [hreleases]; rfl)
    rcases vain with ⟨rfl, -⟩ | ⟨-, hoff | howned⟩
    · exact .inl ⟨rfl, here⟩
    · exact .inr (h.active hoff here)
    · exact .inr howned
  | stops here =>
    obtain ⟨hholds, hreleases, -⟩ := quiet_spec here
    rw [hholds] at hstrong
    rw [hreleases] at hflag
    refine { h with strong := hstrong, flag := hflag, starting := nofun, armed := nofun, once := ?_,
                    active := fun _ => nofun }
    exact fun honce => Nat.le_trans (Nat.le_add_right _ _) (h.once honce)
  | @swaps c here owned =>
    rw [here] at hstrong hflag
    refine { h with strong := hstrong, flag := ?_, starting := nofun, armed := ?_,
                    active := fun _ => nofun, fits := ?_ }
    · rw [owned] at hflag
      have hflag : r + (0 + s.callbacks.countP Phase.releases) = 0 := hflag
      show r + (1 + s.callbacks.countP Phase.releases) = 1
      omega
    · exact fun harmed => absurd here ((h.armed harmed).2 c)
    · exact fun q hq => (h.fits q hq).mono fun _ => rfl
  | late own here owned =>
    exact h.goes (by rw [here]; rfl) (quiet_next _) (.inr owned) rfl (by rw [here]; rfl)
  | decrements here =>
    obtain ⟨howned, hr⟩ := h.of_releasing (releasing_pos here)
    refine h.goes (by rw [here]; rfl) (quiet_next _) (.inr howned) ?_ (by rw [here]; rfl)
    show s.strong - 1 + (r + 1) = s.strong + r
    omega
  | drops own here =>
    rw [here] at hstrong hflag
    refine { h with strong := ?_, flag := hflag, starting := nofun, armed := ?_,
                    active := fun _ => nofun }
    · have hstrong : s.strong + r = 1 + 1 + s.callbacks.countP Phase.holds := hstrong
      have hone := h.le_one
      show s.strong - 1 + r = 1 + 0 + s.callbacks.countP Phase.holds
      omega
    · exact fun harmed => ⟨(h.armed harmed).1, nofun⟩
  | calls armed =>
    refine { h with strong := ?_, flag := ?_, starting := ?_, armed := fun _ => h.armed armed,
                    once := ?_, fits := ?_ }
    · rw [countP_append]
      exact hstrong
    · unfold Sys.releasing
      rw [countP_append]
      exact hflag
    · intro hstarting
      rw [(h.starting hstarting).1] at armed
      cases armed
    · intro honce
      have hcount := h.once honce
      rw [armed, Bool.toNat_true] at hcount
      rw [length_append, honce, Bool.toNat_false, length_singleton]
      omega
    · intro q hq
      rcases mem_append.mp hq with hq | hq
      · exact h.fits q hq
      · rw [mem_singleton.mp hq]
        trivial
  | enters here => exact h.runs here (by simp [Phase.holds]; omega) rfl (.inl rfl) trivial
  | ran here there =>
    rcases there with ⟨rfl, hrepeats⟩ | ⟨rfl, honce⟩
    · refine h.runs here rfl rfl (.inl rfl) fun honce => ?_
      rw [hrepeats] at honce
      cases honce
    · exact h.runs here rfl rfl (.inl rfl) honce
  | takes here owned =>
    have honce : s.repeats = false := h.fits _ (mem_of_getElem? here)
    refine h.runs here rfl ?_ (.inr ⟨honce, rfl⟩) honce
    rw [owned]
    rfl
  | misses here owned => exact h.runs here rfl rfl (.inl rfl) fun _ => owned
  | gives here =>
    have hmem := mem_of_getElem? here
    have hpos : 0 < s.callbacks.countP Phase.releases := countP_pos_iff.mpr ⟨_, hmem, rfl⟩
    obtain ⟨howned, hr⟩ := h.of_releasing (Nat.lt_add_left _ hpos)
    refine h.runs here ?_ rfl (.inl rfl) fun _ => howned
    show s.strong - 1 + (r + 1) + 1 = s.strong + r + 1
    omega
  | leaves own here =>
    have hmem := mem_of_getElem? here
    have hpos : 0 < s.callbacks.countP Phase.holds := countP_pos_iff.mpr ⟨_, hmem, rfl⟩
    have hone := h.le_one
    have hfits : Phase.leaving.Fits s.repeats s.registrationOwned := h.fits _ hmem
    refine h.runs here ?_ rfl (.inl rfl) hfits
    show s.strong - 1 + r + 1 = s.strong + r + 0
    omega

/-- The callback of a one-shot timer is the only one. -/
theorem Inv.only {q : Phase} (h : Inv r s) (honce : s.repeats = false)
    (here : s.callbacks[i]? = some p) (hq : q ∈ s.callbacks) : q = p := by
  have hcount := h.once honce
  have hlt := lt_length here
  obtain ⟨j, hj⟩ := mem_iff_getElem?.mp hq
  have hlt' := lt_length hj
  obtain rfl : i = j := by omega
  exact Option.some.inj (hj.symm.trans here)

/-! ## What is assumed -/

/-- **What is assumed of the order of steps.**  When the reference of the registration was given up,
the `LooperTimer` is dropped only while no callback has been started that has not taken its own; and
no `stop` goes on, and no callback of a one-shot timer ends, while another call has taken the flag
and not given the reference up. -/
def Settled (tr : List Ev) (s : Sys) : Op → Prop
  | .go =>
    if s.handle = .dropping then .released ∈ tr → .called ∉ s.callbacks
    else .decrementing ∉ s.callbacks
  | .run i => s.callbacks[i]? = some .leaving → s.repeats = false → s.handle.releases = false
  | _ => True

instance (tr : List Ev) (s : Sys) (op : Op) : Decidable (Settled tr s op) := by
  unfold Settled
  split <;> infer_instance

/-! ## What is reported -/

/-- An event after which the registration has no reference. -/
def Ev.ends (repeats : Bool) : Ev → Bool
  | .startFailed | .stopped => true
  | .finished _ => !repeats
  | _ => false

theorem releasing_zero {pc : Pc} {cs : List Phase} (hpc : pc.releases = false)
    (hcs : .decrementing ∉ cs) : pc.releases.toNat + cs.countP Phase.releases = 0 := by
  rw [hpc, Bool.toNat_false, Nat.zero_add]
  refine countP_eq_zero.mpr fun p hp hr => ?_
  cases p <;> first | exact hcs hp | cases hr

theorem ends_moved {x : Ev} (h : Inv r s) (hC : Settled tr s op) (hm : Moved s op s' es)
    (hx : x ∈ es) (hends : x.ends s.repeats = true) :
    s'.registrationOwned = false ∧ s'.releasing = 0 := by
  cases hm with
  | refused here =>
    rw [(h.starting here).1]
    exact ⟨rfl, rfl⟩
  | stops | swaps | enters | ran | takes | misses => cases hx
  | started | drops | calls | gives =>
    rw [mem_singleton.mp hx] at hends
    cases hends
  | moves here there calm vain =>
    rcases calm x hx with rfl | ⟨ret, rfl⟩
    · rcases vain with ⟨-, hnot⟩ | ⟨⟨rfl, hne⟩, hover⟩
      · exact absurd hx hnot
      · refine ⟨hover.elim (fun hoff => h.active hoff here) id, ?_⟩
        exact releasing_zero (quiet_spec there).2.1 (by simpa [Settled, hne] using hC)
    · cases hends
  | @late c own here owned =>
    subst own
    refine ⟨owned, releasing_zero (quiet_spec (quiet_next c)).2.1 ?_⟩
    simpa [Settled, here] using hC
  | @decrements c here =>
    refine ⟨(h.of_releasing (releasing_pos here)).1, ?_⟩
    have hflag := h.flag
    have hone : (!s.registrationOwned).toNat ≤ 1 := Bool.toNat_le _
    have hthis : s.handle.releases.toNat = 1 := by rw [here]; rfl
    unfold Sys.releasing at hflag ⊢
    rw [(quiet_spec (quiet_next c)).2.1]
    show 0 + s.callbacks.countP Phase.releases = 0
    omega
  | leaves own here =>
    subst own
    rw [mem_singleton.mp hx] at hends
    have honce : s.repeats = false := by simpa [Ev.ends] using hends
    have hfits : Phase.leaving.Fits s.repeats s.registrationOwned :=
      h.fits _ (mem_of_getElem? here)
    refine ⟨hfits honce, releasing_zero (hC here honce) fun hmem => ?_⟩
    rcases mem_or_eq_of_mem_set hmem with hmem | hmem
    · cases h.only honce here hmem
    · cases hmem

variable {C : List Ev → Sys → Op → Prop} {repeats : Bool}

/-- The references are counted. -/
theorem inv_run (h : Run step C (new repeats) tr s) : Inv (tr.count .released) s := by
  refine h.inv (I := fun tr (s : Sys) => Inv (tr.count .released) s) ?_ ?_
  · exact ⟨rfl, rfl, fun _ => ⟨rfl, rfl⟩, nofun, fun _ => Nat.zero_le _, fun _ => nofun, nofun⟩
  · rintro tr s op s' es hI - hs
    rw [count_append]
    exact hI.moved (step_moved hs)

/-- **After such an event the reference of the registration has been given up, once.** -/
theorem ended_run (h : Run step Settled (new repeats) tr s) :
    s.repeats = repeats ∧ ∀ x ∈ tr, x.ends repeats = true → tr.count .released = 1 := by
  have h' := h.along (I := fun tr (s : Sys) => Inv (tr.count .released) s) fun _ _ h => inv_run h
  refine h'.inv (I := fun tr (s : Sys) => s.repeats = repeats ∧
    ∀ x ∈ tr, x.ends repeats = true → tr.count .released = 1) ⟨rfl, nofun⟩ ?_
  rintro tr s op s' es ⟨hrepeats, hI⟩ ⟨hC, hinv⟩ hs
  have hm := step_moved hs
  have hinv' := hinv.moved hm
  refine ⟨Eq.trans (by cases hm <;> rfl) hrepeats, fun x hx hends => ?_⟩
  rw [count_append]
  rcases mem_append.mp hx with hx | hx
  · have hle := hinv'.le_one
    have hone := hI x hx hends
    omega
  · obtain ⟨howned, hzero⟩ := ends_moved hinv hC hm hx (by rw [hrepeats]; exact hends)
    have hflag := hinv'.flag
    rwa [howned, hzero] at hflag

/-! ## The callbacks -/

/-- A callback without a reference is covered by another one. -/
def Covered (tr : List Ev) (s : Sys) : Prop :=
  .called ∈ s.callbacks → s.handle.holds = true ∨ .released ∉ tr

theorem called_set (h : Phase.called ∈ s.callbacks.set i p)
    (hp : p ≠ .called) : .called ∈ s.callbacks := by
  rcases mem_or_eq_of_mem_set h with h | rfl
  · exact h
  · exact absurd rfl hp

theorem Covered.moved (h : Covered tr s) (hinv : Inv (tr.count .released) s)
    (hC : Settled tr s op) (hm : Moved s op s' es) : Covered (tr ++ es) s' := by
  intro hcalled
  cases hm with
  | refused here =>
    rw [(hinv.starting here).1] at hcalled
    cases hcalled
  | started | stops | swaps => exact .inl rfl
  | moves here there => exact .inl (quiet_spec there).1
  | late | decrements => exact .inl (quiet_spec (quiet_next _)).1
  | drops own here =>
    subst own
    simp only [Settled, here, if_true] at hC
    have hnot : .released ∉ tr := fun hmem => hC hmem hcalled
    exact .inr (by simpa using hnot)
  | calls armed =>
    -- the registration has its reference
    have hnot := count_eq_zero.mp (hinv.of_owned (hinv.armed armed).1).1
    exact .inr (by simpa using hnot)
  | enters here | takes here | misses here =>
    rw [append_nil]
    exact h (called_set hcalled nofun)
  | ran here there =>
    rw [append_nil]
    refine h (called_set hcalled ?_)
    rcases there with ⟨rfl, -⟩ | ⟨rfl, -⟩ <;> nofun
  | leaves =>
    have hbefore := h (called_set hcalled nofun)
    simpa using hbefore
  | gives here =>
    have honce : s.repeats = false := hinv.fits _ (mem_of_getElem? here)
    cases hinv.only honce here (called_set hcalled nofun)

theorem covered_run (h : Run step Settled (new repeats) tr s) : Covered tr s := by
  have h' := h.along (I := fun tr (s : Sys) => Inv (tr.count .released) s) fun _ _ h => inv_run h
  refine h'.inv nofun ?_
  rintro tr s op s' es hI ⟨hC, hinv⟩ hs
  exact hI.moved hinv hC (step_moved hs)

theorem alive (h : Inv r s)
    (hcovered : .called ∈ s.callbacks → s.handle.holds = true ∨ r = 0) (hp : p ∈ s.callbacks)
    (hrun : p ≠ .finished) : 0 < s.strong := by
  have hstrong := h.strong
  have hone := h.le_one
  rcases hholds : p.holds with _ | _
  · have hcalled : p = .called := by
      cases p <;> first | exact absurd rfl hrun | rfl | cases hholds
    rcases hcovered (hcalled ▸ hp) with hhandle | hzero
    · rw [hhandle, Bool.toNat_true] at hstrong
      omega
    · omega
  · have hpos : 0 < s.callbacks.countP Phase.holds := countP_pos_iff.mpr ⟨p, hp, hholds⟩
    omega

/-- **The references of a timer**, under what is assumed of the order of steps.  The reference of
the registration is given up at most once.  It is there whenever FFRT may start a callback.  The
data is there during every callback.  After a start that failed, a `stop` that returned `Ok`, or a
callback of a one-shot timer that is finished the reference has been given up, once. -/
theorem registration_released_once (repeats : Bool) (tr : List Ev) (s : Sys)
    (h : Run step Settled (new repeats) tr s) :
    tr.count .released ≤ 1 ∧
    (s.armed = true → s.registrationOwned = true ∧ .released ∉ tr ∧ 0 < s.strong) ∧
    (∀ p ∈ s.callbacks, p ≠ .finished → 0 < s.strong) ∧
    (.startFailed ∈ tr ∨ .stopped ∈ tr ∨ (repeats = false ∧ ∃ i, .finished i ∈ tr) →
      tr.count .released = 1) := by
  have hinv := inv_run h
  have hends := (ended_run h).2
  refine ⟨hinv.le_one, fun harmed => ?_, fun p hp hrun => ?_, ?_⟩
  · have howned := (hinv.armed harmed).1
    obtain ⟨hr, -⟩ := hinv.of_owned howned
    have hstrong := hinv.strong
    exact ⟨howned, count_eq_zero.mp hr, by omega⟩
  · refine alive hinv (fun hcalled => ?_) hp hrun
    exact (covered_run h hcalled).imp id count_eq_zero.mpr
  · rintro (hfailed | hstopped | ⟨rfl, i, hfinished⟩)
    · exact hends _ hfailed rfl
    · exact hends _ hstopped rfl
    · exact hends _ hfinished rfl

/-- A one-shot timer is stopped while its callback runs, and dropped after that. -/
def oneShot : List Op :=
  [.started 3, .callback, .run 0, .stop, .go, .stopped 0, .go, .go, .run 0, .run 0, .run 0, .drop,
    .go, .go]

theorem registration_released_once_stopped : ∃ tr s, Run step Settled (new false) tr s ∧
    .stopped ∈ tr ∧ .finished 0 ∈ tr ∧ .dropped ∈ tr ∧ tr.count .released = 1 := by
  have hrun : Run step Settled (new false)
      [.started, .called 0, .released, .stopped, .finished 0, .stopped, .dropped] _ :=
    run_execIf oneShot .nil rfl
  refine ⟨_, _, hrun, by decide, by decide, by decide, ?_⟩
  exact (registration_released_once false _ _ hrun).2.2.2 (.inr (.inl (by decide)))

/-- **A callback may find the data gone**: it has been started and has no reference yet, the timer
is dropped, and FFRT stops it, which releases the registration; with the `LooperTimer` the last
reference goes.  And **`stop` may return `Ok` before the reference is given up**, while a callback
is between the swap and the decrement. -/
theorem callback_after_free :
    (∃ tr s, Run step Any (new false) tr s ∧ s.callbacks = [.called] ∧ s.strong = 0) ∧
    ∃ tr s, Run step Any (new false) tr s ∧ .stopped ∈ tr ∧ s.callbacks = [.decrementing] ∧
      .released ∉ tr :=
  ⟨⟨_, _, run_exec [.started 3, .callback, .drop, .go, .stopped 0, .go, .go, .go] rfl, rfl, rfl⟩,
    _, _, run_exec [.started 3, .callback, .run 0, .run 0, .run 0, .stop, .go] rfl, by decide, rfl,
    by decide⟩

end OhosFfrt.Looper
