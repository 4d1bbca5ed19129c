import OhosFfrt.OnceCell.System

/-!
# `sync::OnceCell`: what every call knows

`Fits` says what a call knows of the cell at each place of its code, and `Sound` that all calls do
(`sound_run`).  A call is active from setting the flag until it clears it (`Pc.active`).
-/

namespace OhosFfrt.OnceCell.Moves

open Basic Lib.Arena Lib.Calls Lib.Runs List Option
open OnceCell.System

variable {T E : Type*} {s s' : Sys T E} {op : Op T E} {es tr : List (Ev T E)} {cell cell' : Cell T}
  {c d : ℕ} {call : Call T E} {r : Req T} {pc pc' : Pc T E} {init : Option T}
  {C : List (Ev T E) → Sys T E → Op T E → Prop}

/-- **What a step of the call `c` does.** -/
inductive Moved (cell : Cell T) (c : ℕ) (r : Req T) :
    Pc T E → Cell T → Pc T E → List (Ev T E) → Prop
  | polls (w : Waker) : Moved cell c r .fresh cell (.load w) []
  | repolls (w : Waker) : Moved cell c r .waiting cell (.acquireLoad w) []
  | resumes : Moved cell c r .suspended cell .running []
  | suspends : Moved cell c r .running cell .suspended []
  | completes (v : T) : Moved cell c r .running cell (.write v) []
  | fails (e : E) (h : r = .getOrTryInit) : Moved cell c r .running cell (.dropLock (.failed e)) []
  | panics : Moved cell c r .running cell (.dropLock .panicked) []
  | dropsFresh : Moved cell c r .fresh cell (.returned .dropped) [.ret c .dropped]
  | dropsWaiting : Moved cell c r .waiting cell (.returned .dropped) [.ret c .dropped]
  | dropsInitialiser : Moved cell c r .suspended cell (.dropLock .dropped) []
  | loads (w : Waker) (h : cell.initialized = true) : Moved cell c r (.load w) cell (.read w) []
  | misses (w : Waker) (h : cell.initialized = false) :
      Moved cell c r (.load w) cell (.acquireLoad w) []
  | reads (w : Waker) (v : T) (h : cell.value = some v) :
      Moved cell c r (.read w) cell (.returned (.value v)) [.ret c (.value v)]
  | readsNone (w : Waker) (h : cell.value = none) :
      Moved cell c r (.read w) cell (.acquireLoad w) []
  | acquireLoads (w : Waker) (h : cell.initialized = true) :
      Moved cell c r (.acquireLoad w) cell (.reload false) []
  | acquireMisses (w : Waker) (h : cell.initialized = false) :
      Moved cell c r (.acquireLoad w) cell (.acquireLock w) []
  | acquireLocks (w : Waker) (h : cell.lock = none) :
      Moved cell c r (.acquireLock w) { cell with lock := some c } (.acquireReload w) []
  | acquireReloads (w : Waker) (h : cell.initialized = true) :
      Moved cell c r (.acquireReload w) { cell with lock := none } (.reload false) []
  | acquireMissesAgain (w : Waker) (h : cell.initialized = false) :
      Moved cell c r (.acquireReload w) cell (.acquireTest w) []
  | waits (w : Waker) (h : cell.initializing = true) :
      Moved cell c r (.acquireTest w) { cell with
        waiters := if w ∈ cell.waiters then cell.waiters else cell.waiters ++ [w]
        lock := none } .waiting [.pending c w]
  | acquires (w : Waker) (h : cell.initializing = false) :
      Moved cell c r (.acquireTest w) { cell with initializing := true, lock := none }
        (.reload true) []
  | reloads (a : Bool) (h : cell.initialized = true) :
      Moved cell c r (.reload a) cell (.reread a) []
  | runs (a : Bool) (h : cell.initialized = false) : Moved cell c r (.reload a) cell .running []
  | rereads (a : Bool) (v : T) (h : cell.value = some v) :
      Moved cell c r (.reread a) cell (.returned (.value v)) [.ret c (.value v)]
  | rereadsNone (a : Bool) (h : cell.value = none) : Moved cell c r (.reread a) cell .running []
  | writes (v : T) : Moved cell c r (.write v) { cell with value := some v } .store [.wrote c v]
  | stores : Moved cell c r .store { cell with initialized := true } .completeLock []
  | completeLocks (h : cell.lock = none) :
      Moved cell c r .completeLock { cell with lock := some c } .completeClear []
  | completeClears : Moved cell c r .completeClear
      { cell with initializing := false, waiters := [] } .completeLoad (wakeAll cell.waiters)
  | completeLoads (h : cell.initialized = true) :
      Moved cell c r .completeLoad cell .completeRead []
  | completeMisses (h : cell.initialized = false) :
      Moved cell c r .completeLoad { cell with lock := none } (.returned .panicked)
        [.ret c .panicked]
  | completeReads (v : T) (h : cell.value = some v) :
      Moved cell c r .completeRead { cell with lock := none } (.returned (.value v))
        [.ret c (.value v)]
  | completeReadsNone (h : cell.value = none) :
      Moved cell c r .completeRead { cell with lock := none } (.returned .panicked)
        [.ret c .panicked]
  | dropLocks (x : Res T E) (h : cell.lock = none) :
      Moved cell c r (.dropLock x) { cell with lock := some c } (.dropClear x) []
  | dropClears (x : Res T E) :
      Moved cell c r (.dropClear x) { cell with initializing := false, waiters := [], lock := none }
        (.returned x) (wakeAll cell.waiters ++ [.ret c x])
  | setLocks (v : T) (h : cell.lock = none) :
      Moved cell c r (.setLock v) { cell with lock := some c } (.setLoad v) []
  | setLoads (v : T) (h : cell.initialized = true) :
      Moved cell c r (.setLoad v) { cell with lock := none } (.returned (.alreadyInitialized v))
        [.ret c (.alreadyInitialized v)]
  | setMisses (v : T) (h : cell.initialized = false) :
      Moved cell c r (.setLoad v) cell (.setTest v) []
  | setRefused (v : T) (h : cell.initializing = true) :
      Moved cell c r (.setTest v) { cell with lock := none } (.returned (.initializing v))
        [.ret c (.initializing v)]
  | setPasses (v : T) (h : cell.initializing = false) :
      Moved cell c r (.setTest v) cell (.setWrite v) []
  | setWrites (v : T) :
      Moved cell c r (.setWrite v) { cell with value := some v } .setStore [.wrote c v]
  | setStores : Moved cell c r .setStore { cell with initialized := true } .setWake []
  | setWakes :
      Moved cell c r .setWake { cell with waiters := [], lock := none } (.returned .stored)
        (wakeAll cell.waiters ++ [.ret c .stored])
  | getLoads (h : cell.initialized = true) : Moved cell c r .getLoad cell .getRead []
  | getMisses (h : cell.initialized = false) :
      Moved cell c r .getLoad cell (.returned (.got none)) [.ret c (.got none)]
  | getReads : Moved cell c r .getRead cell (.returned (.got cell.value)) [.ret c (.got cell.value)]

theorem locks_some (h : locks cell c pc = some (cell', pc', es)) :
    cell.lock = none ∧ cell' = { cell with lock := some c } ∧ pc' = pc ∧ es = [] := by
  unfold locks at h
  split_ifs at h with hl
  cases h
  exact ⟨hl, rfl, rfl, rfl⟩

theorem advance_moved (h : advance cell c pc = some (cell', pc', es)) :
    Moved cell c r pc cell' pc' es := by
  cases pc with
  | load | acquireLoad | reload =>
    rcases hi : cell.initialized with _ | _ <;> simp only [advance, hi, if_true] at h <;>
      cases h <;> constructor <;> exact hi
  | read | reread | completeRead =>
    simp only [advance] at h
    split at h <;> cases h <;> constructor <;> assumption
  | acquireLock | completeLock | dropLock | setLock =>
    obtain ⟨hl, rfl, rfl, rfl⟩ := locks_some h
    constructor
    exact hl
  | acquireReload | completeLoad | setLoad | setTest | getLoad =>
    simp only [advance] at h
    split_ifs at h with hi <;> cases h <;> constructor
    · exact hi
    · exact Bool.eq_false_iff.mpr hi
  | acquireTest =>
    simp only [advance] at h
    by_cases hi : cell.initializing = true
    · rw [if_pos hi] at h
      cases h
      exact .waits _ hi
    · rw [if_neg hi] at h
      cases h
      exact .acquires _ (Bool.eq_false_iff.mpr hi)
  | fresh | waiting | running | suspended | returned => cases h
  | _ =>
    cases h
    constructor

theorem resume_moved {w : Waker} (h : resume w pc = some pc') : Moved cell c r pc cell pc' [] := by
  cases pc with
  | fresh | waiting | suspended =>
    cases h
    constructor
  | _ => cases h

theorem initialise_moved {o : Outcome T E} (h : initialise r o pc = some pc') :
    Moved cell c r pc cell pc' [] := by
  cases pc with
  | running =>
    cases o with
    | pending | completes | panics =>
      cases h
      constructor
    | fails e =>
      cases r with
      | getOrTryInit =>
        cases h
        exact .fails e rfl
      | getOrInit | set | get => cases h
  | _ => cases h

theorem cancel_moved (h : cancel c pc = some (pc', es)) : Moved cell c r pc cell pc' es := by
  cases pc with
  | fresh | waiting | suspended =>
    cases h
    constructor
  | _ => cases h

theorem goOn_some {f : Call T E → Option (Cell T × Pc T E × List (Ev T E))}
    (h : goOn s c f = some (s', es)) : ∃ call cell' pc', s.calls[c]? = some call ∧
      f call = some (cell', pc', es) ∧ s' = s.put c cell' { call with pc := pc' } := by
  obtain ⟨call, hc, h⟩ := bind_eq_some_iff.mp h
  obtain ⟨⟨cell', pc', es'⟩, hf, h⟩ := map_eq_some_iff.mp h
  cases h
  exact ⟨call, cell', pc', hc, hf, rfl⟩

theorem step_moved (h : step s op = some (s', es)) :
    (∃ r, s' = s.start ⟨r, r.entry⟩ ∧ es = [.call s.calls.length r]) ∨
    ∃ c call cell' pc', s.calls[c]? = some call ∧
      Moved s.shared c call.request call.pc cell' pc' es ∧
      s' = s.put c cell' { call with pc := pc' } := by
  cases op with
  | start r =>
    cases h
    exact .inl ⟨r, rfl, rfl⟩
  | poll c =>
    obtain ⟨call, cell', pc', hc, hf, rfl⟩ := goOn_some h
    obtain ⟨pc, hpc, heq⟩ := map_eq_some_iff.mp hf
    cases heq
    exact .inr ⟨c, call, _, _, hc, resume_moved hpc, rfl⟩
  | advance c =>
    obtain ⟨call, cell', pc', hc, hf, rfl⟩ := goOn_some h
    exact .inr ⟨c, call, _, _, hc, advance_moved hf, rfl⟩
  | initialise c =>
    obtain ⟨call, cell', pc', hc, hf, rfl⟩ := goOn_some h
    obtain ⟨pc, hpc, heq⟩ := map_eq_some_iff.mp hf
    cases heq
    exact .inr ⟨c, call, _, _, hc, initialise_moved hpc, rfl⟩
  | drop c =>
    obtain ⟨call, cell', pc', hc, hf, rfl⟩ := goOn_some h
    obtain ⟨⟨pc, es'⟩, hpc, heq⟩ := map_eq_some_iff.mp hf
    cases heq
    exact .inr ⟨c, call, _, _, hc, cancel_moved hpc, rfl⟩

theorem Moved.no_call {r' : Req T} (h : Moved cell c r pc cell' pc' es) : .call d r' ∉ es := by
  cases h <;> simp [wakeAll]

theorem Moved.ret (h : Moved cell c r pc cell' pc' es) {x : Res T E} (hx : .ret d x ∈ es) :
    d = c ∧ pc' = .returned x := by
  cases h <;> simp [wakeAll] at hx <;> simp [hx]

/-! ## What the calls know -/

/-- **The call is the active initialiser**: it has set the flag, and has to clear it. -/
def Pc.active : Pc T E → Bool
  | .reload true | .reread true | .running | .suspended | .write _ | .store | .completeLock
  | .completeClear | .dropLock _ | .dropClear _ => true
  | _ => false

/-- It holds the lock. -/
def Pc.holds : Pc T E → Bool
  | .acquireReload _ | .acquireTest _ | .completeClear | .completeLoad | .completeRead
  | .dropClear _ | .setLoad _ | .setTest _ | .setWrite _ | .setStore | .setWake => true
  | _ => false

/-- Nothing was written while nobody initialises. -/
def Clean (cell : Cell T) : Prop :=
  cell.initialized = false → cell.initializing = false → cell.value = none

/-- **What a call knows of the cell**, by its place in the code. -/
def Fits (cell : Cell T) : Pc T E → Prop
  | .reload true | .running | .suspended | .write _ | .dropLock _ | .dropClear _ =>
    cell.initialized = false ∧ cell.value = none
  | .reread true => False
  | .store => cell.initialized = false ∧ cell.value ≠ none
  | .read _ | .reload false | .reread false | .completeLock | .completeClear | .completeLoad
  | .completeRead | .setWake | .getRead => cell.initialized = true
  | .acquireReload _ | .setLoad _ => Clean cell
  | .acquireTest _ | .setTest _ =>
    Clean cell ∧ (cell.initialized = true → cell.initializing = true)
  | .setWrite _ =>
    cell.initialized = false ∧ cell.initializing = false ∧ cell.value = none
  | .setStore => cell.initialized = false ∧ cell.initializing = false ∧ cell.value ≠ none
  | .fresh | .load _ | .acquireLoad _ | .acquireLock _ | .waiting | .setLock _ | .getLoad
  | .returned _ => True

/-- What a call knows, with the lock. -/
def Known (cell : Cell T) (c : ℕ) (call : Call T E) : Prop :=
  Fits cell call.pc ∧ (cell.lock = some c ↔ Pc.holds call.pc = true)

/-- **The cell and its calls are sound.** -/
structure Sound (s : Sys T E) : Prop where
  knows : Knows Known s
  holder : ∀ c, s.shared.lock = some c → c < s.calls.length
  /-- The flag is set as long as there is an active initialiser. -/
  owner : s.calls.countP (fun call => Pc.active call.pc) = s.shared.initializing.toNat
  clean : s.shared.lock = none → Clean s.shared
  value : s.shared.initialized = true → s.shared.value ≠ none

theorem Sound.unique {call' : Call T E} (h : Sound s) (hc : s.calls[c]? = some call)
    (hd : s.calls[d]? = some call') (hw : Pc.active call.pc = true)
    (hw' : Pc.active call'.pc = true) : c = d := by
  have hle : s.calls.countP (fun call => Pc.active call.pc) ≤ 1 := by
    rw [h.owner]
    exact Bool.toNat_le _
  exact eq_of_countP_le_one hle hc hd hw hw'

theorem Sound.initializing_of_active (h : Sound s) (hc : s.calls[c]? = some call)
    (ha : Pc.active call.pc = true) : s.shared.initializing = true := by
  have hpos : 0 < s.calls.countP (fun call => Pc.active call.pc) :=
    countP_pos_iff.mpr ⟨call, mem_of_getElem? hc, ha⟩
  rw [h.owner] at hpos
  rcases hi : s.shared.initializing with _ | _
  · rw [hi] at hpos
    exact absurd hpos (Nat.lt_irrefl 0)
  · rfl

/-- **What the step of another call cannot spoil.** -/
theorem Fits.stable (h : Fits cell pc) (hini : cell.initialized = true → cell'.initialized = true)
    (hactive : Pc.active pc = true →
      cell'.initialized = cell.initialized ∧ cell'.value = cell.value)
    (hholds : Pc.holds pc = true → cell'.initializing = cell.initializing ∧
      (cell'.initialized = cell.initialized ∧ cell'.value = cell.value ∨
        cell.initializing = true)) : Fits cell' pc := by
  have hclean : Pc.holds pc = true → Clean cell → Clean cell' := by
    intro hp hcl h0 h1
    obtain ⟨hflag, ⟨hi, hv⟩ | hf⟩ := hholds hp
    · rw [hv]
      exact hcl (hi.symm.trans h0) (hflag.symm.trans h1)
    · exact absurd (hf.symm.trans (hflag.symm.trans h1)) (by decide)
  have htested : Pc.holds pc = true → (cell.initialized = true → cell.initializing = true) →
      cell'.initialized = true → cell'.initializing = true := by
    intro hp ht h1
    obtain ⟨hflag, ⟨hi, -⟩ | hf⟩ := hholds hp
    · exact hflag.trans (ht (hi.symm.trans h1))
    · exact hflag.trans hf
  cases pc with
  | reload a =>
    cases a with
    | true =>
      obtain ⟨hi, hv⟩ := hactive rfl
      exact ⟨hi.trans h.1, hv.trans h.2⟩
    | false => exact hini h
  | reread a =>
    cases a with
    | true => exact h
    | false => exact hini h
  | running | suspended | write v | dropLock x | dropClear x =>
    obtain ⟨hi, hv⟩ := hactive rfl
    exact ⟨hi.trans h.1, hv.trans h.2⟩
  | store =>
    obtain ⟨hi, hv⟩ := hactive rfl
    refine ⟨hi.trans h.1, ?_⟩
    rw [hv]
    exact h.2
  | read w | completeLock | completeClear | completeLoad | completeRead | setWake | getRead =>
    exact hini h
  | acquireReload w | setLoad v => exact hclean rfl h
  | acquireTest w | setTest v => exact ⟨hclean rfl h.1, htested rfl h.2⟩
  | setWrite =>
    obtain ⟨h0, h1, h2⟩ := h
    obtain ⟨hflag, ⟨hi, hv⟩ | hf⟩ := hholds rfl
    · exact ⟨hi.trans h0, hflag.trans h1, hv.trans h2⟩
    · exact absurd (h1.symm.trans hf) (by decide)
  | setStore =>
    obtain ⟨h0, h1, h2⟩ := h
    obtain ⟨hflag, ⟨hi, hv⟩ | hf⟩ := hholds rfl
    · refine ⟨hi.trans h0, hflag.trans h1, ?_⟩
      rw [hv]
      exact h2
    · exact absurd (h1.symm.trans hf) (by decide)
  | _ => trivial

/-- **A call takes a step**: it knows what it should, and the cell changes only under its flag or
under its lock. -/
theorem Sound.advance (h : Sound s) (hc : s.calls[c]? = some call) (hfits : Fits cell' pc')
    (hlock : cell'.lock = some c ↔ Pc.holds pc' = true)
    (hother : ∀ d, d ≠ c → (cell'.lock = some d ↔ s.shared.lock = some d))
    (hini : s.shared.initialized = true → cell'.initialized = true)
    (hchange : cell'.initialized = s.shared.initialized ∧ cell'.value = s.shared.value ∨
      Pc.active call.pc = true ∨ s.shared.lock = some c ∧ s.shared.initializing = false)
    (hflag : cell'.initializing = s.shared.initializing ∨ s.shared.lock = some c)
    (howner : (Pc.active pc').toNat + s.shared.initializing.toNat =
      (Pc.active call.pc).toNat + cell'.initializing.toNat)
    (hclean : cell'.lock = none → Clean cell')
    (hvalue : cell'.initialized = true → cell'.value ≠ none) :
    Sound (s.put c cell' { call with pc := pc' }) := by
  refine ⟨?_, fun d hd => ?_, ?_, hclean, hvalue⟩
  · refine h.knows.step hc ⟨hfits, hlock⟩ fun d call' hd hget hk => ?_
    refine ⟨hk.1.stable hini (fun ha => ?_) (fun hp => ?_), (hother d hd).trans hk.2⟩
    · -- another call is the active initialiser
      rcases hchange with hsame | ha' | ⟨-, hf⟩
      · exact hsame
      · exact absurd (h.unique hget hc ha ha') hd
      · exact absurd (hf.symm.trans (h.initializing_of_active hget ha)) (by decide)
    · -- another call has the lock
      have hne : s.shared.lock ≠ some c := by
        rw [hk.2.mpr hp]
        exact fun heq => hd (some.inj heq)
      refine ⟨hflag.resolve_right hne, ?_⟩
      rcases hchange with hsame | ha' | ⟨hl, -⟩
      · exact .inl hsame
      · exact .inr (h.initializing_of_active hc ha')
      · exact absurd hl hne
  · rw [put_length]
    by_cases hdc : d = c
    · rw [hdc]
      exact lt_length hc
    · exact h.holder d ((hother d hdc).mp hd)
  · have hcount := countP_set (p := fun call : Call T E => Pc.active call.pc)
      (b := { call with pc := pc' }) hc
    have how := h.owner
    change (s.calls.set c _).countP _ = cell'.initializing.toNat
    simp only at hcount
    omega

theorem Sound.stays (h : Sound s) (hc : s.calls[c]? = some call) (hfits : Fits s.shared pc')
    (hholds : Pc.holds pc' = Pc.holds call.pc) (hactive : Pc.active pc' = Pc.active call.pc) :
    Sound (s.put c s.shared { call with pc := pc' }) := by
  refine h.advance hc hfits ?_ (fun _ _ => Iff.rfl) id (.inl ⟨rfl, rfl⟩) (.inl rfl) ?_ h.clean
    h.value
  · rw [hholds]
    exact (h.knows c call hc).2
  · rw [hactive]

theorem Sound.locked (h : Sound s) (hc : s.calls[c]? = some call) (hl : s.shared.lock = none)
    (hfits : Clean s.shared → Fits s.shared pc') (hholds : Pc.holds pc' = true)
    (hactive : Pc.active pc' = Pc.active call.pc) :
    Sound (s.put c { s.shared with lock := some c } { call with pc := pc' }) := by
  have hfits' : Fits { s.shared with lock := some c } pc' :=
    (hfits (h.clean hl)).stable id (fun _ => ⟨rfl, rfl⟩) fun _ => ⟨rfl, .inl ⟨rfl, rfl⟩⟩
  refine h.advance hc hfits' ?_ (fun d hd => ?_) id (.inl ⟨rfl, rfl⟩) (.inl rfl) ?_ ?_ h.value
  · simp [hholds]
  · simp [hl, Ne.symm hd]
  · rw [hactive]
  · exact nofun

theorem Sound.unlocked {initializing : Bool} {waiters : List Waker} (h : Sound s)
    (hc : s.calls[c]? = some call) (hl : s.shared.lock = some c)
    (hfits : Fits { s.shared with
      initializing := initializing, waiters := waiters, lock := none } pc')
    (hholds : Pc.holds pc' = false)
    (howner : (Pc.active pc').toNat + s.shared.initializing.toNat =
      (Pc.active call.pc).toNat + initializing.toNat)
    (hclean : s.shared.initialized = false → initializing = false → s.shared.value = none) :
    Sound (s.put c
      { s.shared with initializing := initializing, waiters := waiters, lock := none }
      { call with pc := pc' }) := by
  refine h.advance hc hfits ?_ (fun d hd => ?_) id (.inl ⟨rfl, rfl⟩) (.inr hl) howner
    (fun _ => hclean) h.value
  · simp [hholds]
  · simp [hl, Ne.symm hd]

theorem Sound.moved (h : Sound s) (hc : s.calls[c]? = some call)
    (hm : Moved s.shared c call.request call.pc cell' pc' es) :
    Sound (s.put c cell' { call with pc := pc' }) := by
  obtain ⟨r, pc⟩ := call
  obtain ⟨hfits, hholds⟩ := h.knows c _ hc
  cases hm with
  | polls | repolls | dropsFresh | dropsWaiting => exact h.stays hc trivial rfl rfl
  | resumes | suspends | completes | fails | panics | dropsInitialiser =>
    exact h.stays hc hfits rfl rfl
  | loads w hi | acquireLoads w hi | getLoads hi => exact h.stays hc hi rfl rfl
  | misses | reads | readsNone | acquireMisses | getMisses | getReads =>
    exact h.stays hc trivial rfl rfl
  | acquireLocks w hl | setLocks v hl => exact h.locked hc hl id rfl rfl
  | acquireReloads w hi =>
    exact h.unlocked hc (hholds.mpr rfl) hi rfl rfl fun h0 => absurd (hi.symm.trans h0) (by decide)
  | acquireMissesAgain w hi | setMisses v hi =>
    exact h.stays hc ⟨hfits, fun h1 => absurd (hi.symm.trans h1) (by decide)⟩ rfl rfl
  | waits => exact h.unlocked hc (hholds.mpr rfl) trivial rfl rfl hfits.1
  | acquires w hf =>
    -- the flag was clear, so nothing was stored yet
    have hi : s.shared.initialized = false := by
      rw [Bool.eq_false_iff]
      exact fun h1 => absurd (hf.symm.trans (hfits.2 h1)) (by decide)
    refine h.unlocked hc (hholds.mpr rfl) ⟨hi, hfits.1 hi hf⟩ rfl ?_ nofun
    rw [hf]
    rfl
  | reloads a hi =>
    cases a with
    | true => exact absurd (hfits.1.symm.trans hi) (by decide)
    | false => exact h.stays hc hi rfl rfl
  | runs a hi =>
    cases a with
    | true => exact h.stays hc hfits rfl rfl
    | false => exact absurd (hi.symm.trans hfits) (by decide)
  | rereads a =>
    cases a with
    | true => exact hfits.elim
    | false => exact h.stays hc trivial rfl rfl
  | rereadsNone a hv =>
    cases a with
    | true => exact hfits.elim
    | false => exact absurd hv (h.value hfits)
  | writes v =>
    have hf := h.initializing_of_active hc rfl
    refine h.advance hc ⟨hfits.1, some_ne_none v⟩ hholds (fun _ _ => Iff.rfl) id
      (.inr (.inl rfl)) (.inl rfl) rfl (fun _ _ h1 => ?_) fun _ => some_ne_none v
    exact absurd (hf.symm.trans h1) (by decide)
  | stores =>
    exact h.advance hc rfl hholds (fun _ _ => Iff.rfl) (fun _ => rfl) (.inr (.inl rfl)) (.inl rfl)
      rfl nofun fun _ => hfits.2
  | completeLocks hl | dropLocks x hl => exact h.locked hc hl (fun _ => hfits) rfl rfl
  | completeClears =>
    have hf := h.initializing_of_active hc rfl
    refine h.advance hc hfits hholds (fun _ _ => Iff.rfl) id (.inl ⟨rfl, rfl⟩)
      (.inr (hholds.mpr rfl)) ?_ (fun _ h0 => ?_) h.value
    · rw [hf]
      rfl
    · exact absurd (hfits.symm.trans h0) (by decide)
  | completeLoads => exact h.stays hc hfits rfl rfl
  | completeMisses hi => exact absurd (hi.symm.trans hfits) (by decide)
  | completeReads | setWakes =>
    exact h.unlocked hc (hholds.mpr rfl) trivial rfl rfl
      fun h0 => absurd (hfits.symm.trans h0) (by decide)
  | completeReadsNone hv => exact absurd hv (h.value hfits)
  | dropClears =>
    have hf := h.initializing_of_active hc rfl
    refine h.unlocked hc (hholds.mpr rfl) trivial rfl ?_ fun _ _ => hfits.2
    rw [hf]
    rfl
  | setLoads v hi =>
    exact h.unlocked hc (hholds.mpr rfl) trivial rfl rfl
      fun h0 => absurd (hi.symm.trans h0) (by decide)
  | setRefused v hf =>
    exact h.unlocked hc (hholds.mpr rfl) trivial rfl rfl
      fun _ h1 => absurd (hf.symm.trans h1) (by decide)
  | setPasses v hf =>
    have hi : s.shared.initialized = false := by
      rw [Bool.eq_false_iff]
      exact fun h1 => absurd (hf.symm.trans (hfits.2 h1)) (by decide)
    exact h.stays hc ⟨hi, hf, hfits.1 hi hf⟩ rfl rfl
  | setWrites v =>
    obtain ⟨hi, hf, -⟩ := hfits
    refine h.advance hc ⟨hi, hf, some_ne_none v⟩ hholds (fun _ _ => Iff.rfl) id
      (.inr (.inr ⟨hholds.mpr rfl, hf⟩)) (.inl rfl) rfl (fun hn => ?_)
      fun _ => some_ne_none v
    exact absurd (hn.symm.trans (hholds.mpr rfl)) nofun
  | setStores =>
    obtain ⟨hi, hf, hv⟩ := hfits
    exact h.advance hc rfl hholds (fun _ _ => Iff.rfl) (fun _ => rfl)
      (.inr (.inr ⟨hholds.mpr rfl, hf⟩)) (.inl rfl) rfl nofun fun _ => hv

theorem sound_newWith (init : Option T) : Sound (newWith init : Sys T E) := by
  refine ⟨knows_nil _, nofun, rfl, fun _ h0 _ => ?_, fun h1 => ?_⟩
  · exact isNone_iff_eq_none.mp (isSome_eq_false_iff.mp h0)
  · exact isSome_iff_ne_none.mp h1

theorem Sound.start (h : Sound s) (r : Req T) : Sound (s.start ⟨r, r.entry⟩) := by
  have hfits : Fits s.shared (r.entry : Pc T E) := by cases r <;> trivial
  have hholds : Pc.holds (r.entry : Pc T E) = false := by cases r <;> rfl
  have hactive : Pc.active (r.entry : Pc T E) = false := by cases r <;> rfl
  refine ⟨h.knows.start ⟨hfits, ?_⟩, fun c hc => ?_, ?_, h.clean, h.value⟩
  · refine ⟨fun hl => absurd (h.holder _ hl) (Nat.lt_irrefl _), fun hl => ?_⟩
    exact absurd (hholds.symm.trans hl) Bool.false_ne_true
  · rw [start_length]
    exact Nat.lt_succ_of_lt (h.holder c hc)
  · change (s.calls ++ [_]).countP _ = s.shared.initializing.toNat
    rw [countP_append, h.owner, countP_singleton, hactive]
    rfl

theorem sound_step (h : Sound s) (hs : step s op = some (s', es)) : Sound s' := by
  obtain ⟨r, rfl, rfl⟩ | ⟨c, call, cell', pc', hc, hm, rfl⟩ := step_moved hs
  · exact h.start r
  · exact h.moved hc hm

theorem sound_run (h : Run step C (newWith init : Sys T E) tr s) : Sound s :=
  h.inv (sound_newWith init) fun _ _ _ _ _ hI _ hs => sound_step hI hs

/-! ## The requests -/

theorem has_step {J : Call T E → Prop} (h : Has s c J) (hs : step s op = some (s', es))
    (hJ : ∀ call cell' pc' es, J call → Moved s.shared c call.request call.pc cell' pc' es →
      J { call with pc := pc' }) : Has s' c J := by
  obtain ⟨r, rfl, -⟩ | ⟨d, call, cell', pc', hd, hm, rfl⟩ := step_moved hs
  · exact h.start
  · refine h.put hd ?_
    rintro rfl hcall
    exact hJ call cell' pc' es hcall hm

theorem requested_run (h : Run step C (newWith init : Sys T E) tr s) (hcall : .call c r ∈ tr) :
    Has s c fun call => call.request = r := by
  refine h.inv (I := fun tr s => .call c r ∈ tr → Has s c fun call => call.request = r)
    nofun ?_ hcall
  intro tr s op s' es ih _ hs hr
  rcases mem_append.mp hr with hr | hr
  · exact has_step (ih hr) hs fun _ _ _ _ hcall _ => hcall
  · obtain ⟨r', rfl, rfl⟩ | ⟨d, call, cell', pc', -, hm, -⟩ := step_moved hs
    · rw [mem_singleton, Ev.call.injEq] at hr
      obtain ⟨rfl, rfl⟩ := hr
      exact has_start rfl
    · exact absurd hr hm.no_call

theorem returned_run (h : Run step C (newWith init : Sys T E) tr s) {x : Res T E}
    (hret : .ret c x ∈ tr) : Has s c fun call => call.pc = .returned x := by
  refine h.inv (I := fun tr s => .ret c x ∈ tr → Has s c fun call => call.pc = .returned x)
    nofun ?_ hret
  intro tr s op s' es ih _ hs hr
  rcases mem_append.mp hr with hr | hr
  · refine has_step (ih hr) hs fun call cell' pc' es hcall hm => ?_
    rw [hcall] at hm
    cases hm
  · obtain ⟨r', rfl, rfl⟩ | ⟨d, call, cell', pc', hd, hm, rfl⟩ := step_moved hs
    · simp at hr
    · obtain ⟨rfl, rfl⟩ := hm.ret hr
      exact has_put hd rfl

end OhosFfrt.OnceCell.Moves
