import OhosFfrt.Lib.Arena
import OhosFfrt.Lib.Traces
import OhosFfrt.Reactor.State

/-!
# `reactor`: many descriptors, step by step

A callback of the loop brings a token, which it looks for in the registry; then it takes the lock of
`events` of what it has found.  Here every store of a readiness is a step of its own, made by a call
that holds that lock; loads of the readiness may come between any two of them.

A callback may bring any token and any events at any time, and `clear_ready` may be called with any
readiness and generation.
-/

namespace OhosFfrt.Reactor.Registry

open Basic Reactor.State Option

/-- A registered source. -/
structure Entry where
  io : ScheduledIo
  token : ℕ
  /-- The call that holds the lock of `events`. -/
  holder : Option ℕ
  deriving DecidableEq, Repr

/-- What was called. -/
inductive Origin
  | register
  | callback (token : ℕ) (events : Mask)
  | clearReady (ready : Mask) (generation : BitVec 32)
  | deregister
  deriving DecidableEq, Repr

/-- Where the call is. -/
inductive Phase
  /-- It is before the lock of `events`. -/
  | start
  /-- It holds the lock, and is about to store this. -/
  | storing (generation : BitVec 32) (ready : Mask)
  /-- It holds the lock, and is about to call `update_interest`. -/
  | updating
  /-- It holds the lock, and is about to call `record_error`. -/
  | recording
  /-- It holds the lock, and is about to remove the token from the registry. -/
  | removing
  /-- It holds the lock, and is about to disarm the descriptor. -/
  | disarming
  /-- It has released the lock, and is about to call `wake_ready`. -/
  | waking
  /-- `wake_ready` has loaded the readiness. -/
  | loaded (ready : Mask)
  | over
  deriving DecidableEq, Repr

/-- It holds the lock of `events`. -/
def Phase.holds : Phase → Bool
  | .storing _ _ | .updating | .recording | .removing | .disarming => true
  | .start | .waking | .loaded _ | .over => false

/-- A call under way. -/
structure Call where
  origin : Origin
  entry : ℕ
  phase : Phase
  deriving DecidableEq, Repr

inductive Ev
  /-- The readiness was loaded: all that is cached, and what is returned of it. -/
  | observed (k : ℕ) (cached ready : Mask) (generation : BitVec 32)
  | arrived (c token : ℕ)
  /-- A callback has stored its events. -/
  | called (k : ℕ)
  | recorded (k : ℕ)
  | deregistered (k token : ℕ)
  deriving DecidableEq, Repr

/-- The reactor: the counter of tokens, the registry, the descriptors and the calls. -/
structure Sys where
  next : ℕ
  registry : ℕ → Option ℕ
  entries : List Entry
  calls : List Call

inductive Op
  | register (interest : Interest)
  | pollReady (k : ℕ) (w : Waker) (i : Interest)
  /-- The load of `try_io`. -/
  | tryIo (k : ℕ) (i : Interest)
  | callback (token : ℕ) (events : Mask)
  | clearReady (k : ℕ) (ready : Mask) (generation : BitVec 32)
  | deregister (k : ℕ)
  | go (c : ℕ) (ctl : Ctl)
  deriving DecidableEq, Repr

def new : Sys := ⟨1, fun _ => none, [], []⟩

/-- Just registered. -/
def fresh (interest : Interest) : ScheduledIo where
  interest := interest
  readiness := 0
  registered := true
  events := 0
  waiters := ⟨[], []⟩
  armed := none

/-- The call `c` takes the lock. -/
def Entry.lock (e : Entry) (c : ℕ) : Entry := { e with holder := some c }

/-- The lock is given back. -/
def Entry.unlock (e : Entry) (io : ScheduledIo) : Entry := { e with io := io, holder := none }

/-- The call `c` takes the lock of `events`, and finds what it is to store. -/
def Call.begin (call : Call) (c : ℕ) (e : Entry) : Call × Entry × List Ev :=
  match call.origin with
  | .register => ({ call with phase := .updating }, e.lock c, [])
  | .callback _ events =>
    if !e.io.registered then ({ call with phase := .over }, e, [])
    else
      ({ call with phase := .storing (e.io.generation + 1) (e.io.ready ||| events) }, e.lock c, [])
  | .clearReady ready generation =>
    if !e.io.registered then ({ call with phase := .over }, e, [])
    else if e.io.generation ≠ generation then ({ call with phase := .over }, e, [])
    else ({ call with phase := .storing generation (e.io.ready &&& ~~~ready) }, e.lock c, [])
  | .deregister =>
    if !e.io.registered then ({ call with phase := .over }, e, [])
    else
      ({ call with phase := .removing },
        { e with io := { e.io with registered := false }, holder := some c },
        [.deregistered call.entry e.token])

/-- The event of its store. -/
def Call.stored (call : Call) : List Ev :=
  match call.origin with
  | .callback _ _ => [.called call.entry]
  | _ => []

/-- Where a call goes on after `update_interest`; a `register` that fails goes on to
`deregister`. -/
def Call.updated (call : Call) (ok : Bool) : Call :=
  match call.origin, ok with
  | .callback _ _, true => { call with phase := .waking }
  | _, true => { call with phase := .over }
  | .register, false => { call with origin := .deregister, phase := .start }
  | _, false => { call with phase := .recording }

/-- **The next step of a call** on the descriptor `e`. -/
def Call.next (call : Call) (c : ℕ) (e : Entry) (ctl : Ctl) : Option (Call × Entry × List Ev) :=
  match call.phase with
  | .start => if e.holder.isSome then none else some (call.begin c e)
  | .storing generation ready =>
    some ({ call with phase := .updating }, { e with io := e.io.store generation ready },
      call.stored)
  | .updating =>
    let r := e.io.updateInterest ctl
    let call' := call.updated r.2
    some (call', if call'.phase = .recording then { e with io := r.1 } else e.unlock r.1, [])
  | .recording =>
    some ({ call with phase := .waking }, e.unlock e.io.recordError, [.recorded call.entry])
  | .removing => some ({ call with phase := .disarming }, e, [])
  | .disarming =>
    some ({ call with phase := .over },
      e.unlock (if e.io.events ≠ 0 then e.io.disarm ctl.del else e.io), [])
  | .waking => some ({ call with phase := .loaded e.io.ready }, e, [])
  | .loaded ready =>
    some ({ call with phase := .over }, { e with io := (e.io.takeReady ready).2 }, [])
  | .over => none

/-- The registry, after the next step of a call. -/
def Sys.registryAfter (s : Sys) (call : Call) (e : Entry) : ℕ → Option ℕ :=
  if call.phase = .removing then Function.update s.registry e.token none else s.registry

/-- A new call for `k`. -/
def Sys.call (s : Sys) (origin : Origin) (k : ℕ) : Sys :=
  { s with calls := s.calls ++ [⟨origin, k, .start⟩] }

/-- What `poll_ready` and `try_io` return of what is cached. -/
def seen (k : ℕ) (io : ScheduledIo) (i : Interest) : List Ev :=
  if io.matches i then
    [.observed k io.ready (io.ready &&& (i.bits ||| errorEvents)) io.generation]
  else []

def step (s : Sys) : Op → Option (Sys × List Ev)
  | .register interest =>
    -- `next_token` panics when the tokens are exhausted
    (checkedAdd s.next 1).map fun next =>
      ({ next := next
         registry := Function.update s.registry s.next (some s.entries.length)
         entries := s.entries ++ [⟨fresh interest, s.next, none⟩]
         calls := s.calls ++ [⟨.register, s.entries.length, .start⟩] }, [])
  | .pollReady k w i =>
    s.entries[k]?.map fun e =>
      ({ s with entries := s.entries.set k { e with io := (e.io.pollReady w i).2 } }, seen k e.io i)
  | .tryIo k i => s.entries[k]?.map fun e => (s, seen k e.io i)
  | .callback token events =>
    match s.registry token with
    | none => some (s, [])
    | some k => some (s.call (.callback token events) k, [.arrived s.calls.length token])
  | .clearReady k ready generation =>
    s.entries[k]?.map fun _ => (s.call (.clearReady ready generation) k, [])
  | .deregister k => s.entries[k]?.map fun _ => (s.call .deregister k, [])
  | .go c ctl =>
    s.calls[c]?.bind fun call =>
      s.entries[call.entry]?.bind fun e =>
        (call.next c e ctl).map fun r =>
          ({ s with
              registry := s.registryAfter call e
              entries := s.entries.set call.entry r.2.1
              calls := s.calls.set c r.1 }, r.2.2)

/-! ## What a step of a call can do -/

/-- What the call is to store. -/
def Prepared (origin : Origin) (io : ScheduledIo) (generation : BitVec 32) (ready : Mask) : Prop :=
  match origin with
  | .callback _ events => generation = io.generation + 1 ∧ ready = io.ready ||| events
  | .clearReady cleared g =>
    generation = g ∧ io.generation = g ∧ ready = io.ready &&& ~~~cleared
  | _ => False

/-- **What the next step of a call can do.** -/
inductive Next (call : Call) (c : ℕ) (e : Entry) : Call → Entry → List Ev → Prop
  | refuse (start : call.phase = .start) : Next call c e { call with phase := .over } e []
  | enter (start : call.phase = .start) (free : e.holder = none)
      (origin : call.origin = .register) :
      Next call c e { call with phase := .updating } (e.lock c) []
  /-- A callback, or `clear_ready`, takes the lock. -/
  | prepare (generation : BitVec 32) (ready : Mask) (start : call.phase = .start)
      (free : e.holder = none) (registered : e.io.registered = true)
      (prepared : Prepared call.origin e.io generation ready) :
      Next call c e { call with phase := .storing generation ready } (e.lock c) []
  | deregister (start : call.phase = .start) (free : e.holder = none)
      (registered : e.io.registered = true) :
      Next call c e { call with phase := .removing }
        { e with io := { e.io with registered := false }, holder := some c }
        [.deregistered call.entry e.token]
  | store (generation : BitVec 32) (ready : Mask)
      (storing : call.phase = .storing generation ready) :
      Next call c e { call with phase := .updating } { e with io := e.io.store generation ready }
        call.stored
  | record (recording : call.phase = .recording) :
      Next call c e { call with phase := .waking } (e.unlock e.io.recordError)
        [.recorded call.entry]
  /-- The readiness is left as it is. -/
  | quiet (call' : Call) (e' : Entry) (later : call.phase ≠ .start)
      (live : call.phase ≠ .over) (entry : call'.entry = call.entry)
      (readiness : e'.io.readiness = e.io.readiness)
      (registered : e'.io.registered = e.io.registered) (token : e'.token = e.token)
      (kept : call.phase.holds = false → e'.holder = e.holder)
      (held : call'.phase.holds = true → e'.holder = e.holder ∧ call.phase.holds = true)
      (calm : ∀ generation ready, call'.phase ≠ .storing generation ready) :
      Next call c e call' e' []

theorem readiness_updateInterest (io : ScheduledIo) (ctl : Ctl) :
    (io.updateInterest ctl).1.readiness = io.readiness ∧
      (io.updateInterest ctl).1.registered = io.registered := by
  unfold ScheduledIo.updateInterest
  split_ifs <;> exact ⟨rfl, rfl⟩

variable {call call' : Call} {c : ℕ} {e e' : Entry} {ctl : Ctl} {es : List Ev}

theorem begin_next (hstart : call.phase = .start) (hfree : e.holder = none) :
    Next call c e (call.begin c e).1 (call.begin c e).2.1 (call.begin c e).2.2 := by
  unfold Call.begin
  split
  · next horigin => exact .enter hstart hfree horigin
  · next token events horigin =>
    split_ifs with hreg
    · exact .refuse hstart
    · rw [Bool.not_eq_true', Bool.not_eq_false] at hreg
      refine .prepare _ _ hstart hfree hreg ?_
      rw [horigin]
      exact ⟨rfl, rfl⟩
  · next ready generation horigin =>
    split_ifs with hreg hgen
    · exact .refuse hstart
    · exact .refuse hstart
    · rw [Bool.not_eq_true', Bool.not_eq_false] at hreg
      rw [not_not] at hgen
      refine .prepare _ _ hstart hfree hreg ?_
      rw [horigin]
      exact ⟨rfl, hgen, rfl⟩
  · split_ifs with hreg
    · exact .refuse hstart
    · rw [Bool.not_eq_true', Bool.not_eq_false] at hreg
      exact .deregister hstart hfree hreg

theorem updated_spec (call : Call) (ok : Bool) : (call.updated ok).entry = call.entry ∧
    ((call.updated ok).phase.holds = true → (call.updated ok).phase = .recording) ∧
    ∀ generation ready, (call.updated ok).phase ≠ .storing generation ready := by
  unfold Call.updated
  split
  iterate 3
    · exact ⟨rfl, nofun, nofun⟩
  · exact ⟨rfl, fun _ => rfl, nofun⟩

theorem next_next (h : call.next c e ctl = some (call', e', es)) : Next call c e call' e' es := by
  unfold Call.next at h
  split at h
  · next hphase =>
    split_ifs at h with hfree
    rw [not_isSome_iff_eq_none] at hfree
    have hbegin := begin_next (c := c) hphase hfree
    rw [some.injEq] at h
    rw [h] at hbegin
    exact hbegin
  · next generation ready hphase =>
    cases h
    exact .store generation ready hphase
  · next hphase =>
    obtain ⟨hentry, hholds, hcalm⟩ := updated_spec call (e.io.updateInterest ctl).2
    obtain ⟨hreadiness, hregistered⟩ := readiness_updateInterest e.io ctl
    simp only [some.injEq, Prod.mk.injEq] at h
    obtain ⟨rfl, rfl, rfl⟩ := h
    refine .quiet _ _ (by rw [hphase]; nofun) (by rw [hphase]; nofun) hentry ?_ ?_ ?_ ?_ ?_ hcalm
    · split_ifs <;> exact hreadiness
    · split_ifs <;> exact hregistered
    · split_ifs <;> rfl
    · intro hnot
      rw [hphase] at hnot
      cases hnot
    · intro hnow
      rw [if_pos (hholds hnow), hphase]
      exact ⟨rfl, rfl⟩
  · next hphase =>
    cases h
    exact .record hphase
  · next hphase =>
    cases h
    exact .quiet _ _ (by rw [hphase]; nofun) (by rw [hphase]; nofun) rfl rfl rfl rfl
      (fun _ => rfl) (fun _ => ⟨rfl, by rw [hphase]; rfl⟩) nofun
  · next hphase =>
    cases h
    refine .quiet _ _ (by rw [hphase]; nofun) (by rw [hphase]; nofun) rfl ?_ ?_ rfl ?_ nofun nofun
    · unfold Entry.unlock
      split_ifs <;> rfl
    · unfold Entry.unlock
      split_ifs <;> rfl
    · intro hnot
      rw [hphase] at hnot
      cases hnot
  · next hphase =>
    cases h
    exact .quiet _ _ (by rw [hphase]; nofun) (by rw [hphase]; nofun) rfl rfl rfl rfl
      (fun _ => rfl) nofun nofun
  · next ready hphase =>
    cases h
    exact .quiet _ _ (by rw [hphase]; nofun) (by rw [hphase]; nofun) rfl rfl rfl rfl
      (fun _ => rfl) nofun nofun
  · cases h

theorem Next.entry_eq (hn : Next call c e call' e' es) : call'.entry = call.entry := by
  cases hn with
  | quiet _ _ _ _ entry => exact entry
  | _ => rfl

theorem Next.token_eq (hn : Next call c e call' e' es) : e'.token = e.token := by
  cases hn with
  | quiet _ _ _ _ _ _ _ token => exact token
  | _ => rfl

/-! ## What a step can do -/

/-- **What a step can do.** -/
inductive Moved (s : Sys) : Op → Sys → List Ev → Prop
  | register {interest : Interest} :
      Moved s (.register interest)
        { next := s.next + 1
          registry := Function.update s.registry s.next (some s.entries.length)
          entries := s.entries ++ [⟨fresh interest, s.next, none⟩]
          calls := s.calls ++ [⟨.register, s.entries.length, .start⟩] } []
  | pollReady {k : ℕ} {w : Waker} {i : Interest} {e : Entry} {waiters : Waiters}
      (here : s.entries[k]? = some e) :
      Moved s (.pollReady k w i)
        { s with entries := s.entries.set k { e with io := { e.io with waiters := waiters } } }
        (seen k e.io i)
  | tryIo {k : ℕ} {i : Interest} {e : Entry} (here : s.entries[k]? = some e) :
      Moved s (.tryIo k i) s (seen k e.io i)
  /-- A callback whose token is not in the registry. -/
  | missed {token : ℕ} {events : Mask} : Moved s (.callback token events) s []
  | arrived {token k : ℕ} {events : Mask} (found : s.registry token = some k) :
      Moved s (.callback token events) (s.call (.callback token events) k)
        [.arrived s.calls.length token]
  /-- A call of `clear_ready` or `deregister` begins. -/
  | call {op : Op} {k : ℕ} {e : Entry} {origin : Origin} (here : s.entries[k]? = some e)
      (own : (∃ ready generation, op = .clearReady k ready generation) ∨ op = .deregister k) :
      Moved s op (s.call origin k) []
  | go {c : ℕ} {ctl : Ctl} {call call' : Call} {e e' : Entry} {es : List Ev}
      (called : s.calls[c]? = some call) (here : s.entries[call.entry]? = some e)
      (next : Next call c e call' e' es) :
      Moved s (.go c ctl)
        { s with
          registry := s.registryAfter call e
          entries := s.entries.set call.entry e'
          calls := s.calls.set c call' } es

theorem step_moved {s s' : Sys} {op : Op} (h : step s op = some (s', es)) : Moved s op s' es := by
  cases op with
  | register =>
    obtain ⟨next, hnext, h⟩ := map_eq_some_iff.mp h
    unfold checkedAdd at hnext
    split_ifs at hnext
    cases hnext
    cases h
    exact .register
  | pollReady k w i =>
    obtain ⟨e, he, h⟩ := map_eq_some_iff.mp h
    obtain ⟨waiters, hio⟩ : ∃ waiters,
        (e.io.pollReady w i).2 = { e.io with waiters := waiters } := by
      unfold ScheduledIo.pollReady
      split_ifs
      · exact ⟨e.io.waiters, rfl⟩
      · exact ⟨_, rfl⟩
    rw [hio] at h
    cases h
    exact .pollReady he
  | tryIo =>
    obtain ⟨e, he, h⟩ := map_eq_some_iff.mp h
    cases h
    exact .tryIo he
  | callback =>
    simp only [step] at h
    split at h
    · cases h
      exact .missed
    · next hfound =>
      cases h
      exact .arrived hfound
  | clearReady k ready generation =>
    obtain ⟨e, he, h⟩ := map_eq_some_iff.mp h
    cases h
    exact .call he (.inl ⟨ready, generation, rfl⟩)
  | deregister =>
    obtain ⟨e, he, h⟩ := map_eq_some_iff.mp h
    cases h
    exact .call he (.inr rfl)
  | go =>
    obtain ⟨call, hcall, h⟩ := bind_eq_some_iff.mp h
    obtain ⟨e, he, h⟩ := bind_eq_some_iff.mp h
    obtain ⟨⟨call', e', es'⟩, hnext, h⟩ := map_eq_some_iff.mp h
    cases h
    exact .go hcall he (next_next hnext)

end OhosFfrt.Reactor.Registry
