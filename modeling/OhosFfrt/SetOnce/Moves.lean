import OhosFfrt.SetOnce.System

/-!
# `sync::SetOnce`: what every call knows

`Fits` says what a call knows of the cell at each place of its code, and `Sound` that all calls do
(`sound_run`).
-/

namespace OhosFfrt.SetOnce.Moves

open Basic Lib.Arena Lib.Calls Lib.Runs List Option
open SetOnce.System

variable {T : Type*} {s s' : Sys T} {op : Op T} {es tr : List (Ev T)} {cell cell' : Cell T}
  {c d : ℕ} {call : Call T} {pc pc' : Pc T} {C : List (Ev T) → Sys T → Op T → Prop} {r : Req T}

/-- **What the next step of the call `c` does.** -/
inductive Moved (cell : Cell T) (c : ℕ) : Pc T → Cell T → Pc T → List (Ev T) → Prop
  | wins (v : T) (h : cell.state = .empty) :
      Moved cell c (.compareExchange v) { cell with state := .writing } (.write v) []
  | loses (v : T) (h : cell.state ≠ .empty) : Moved cell c (.compareExchange v) cell (.lost v) []
  | writes (v : T) : Moved cell c (.write v) { cell with value := some v } .store []
  | stores : Moved cell c .store { cell with state := .ready } .lock [.published]
  | locks (h : cell.lock = none) : Moved cell c .lock { cell with lock := some c } .take []
  | takes : Moved cell c .take { cell with waiters := [], lock := none } (.wakeAll cell.waiters) []
  | wakes (w : Waker) (ws : List Waker) :
      Moved cell c (.wakeAll (w :: ws)) cell (.wakeAll ws) [.woke w]
  | succeeds : Moved cell c (.wakeAll []) cell (.returned .stored) [.ret c .stored]
  | fails (v : T) : Moved cell c (.lost v) cell (.returned (.rejected v)) [.ret c (.rejected v)]
  | loads : Moved cell c .load cell (.deref (cell.state = .ready)) []
  | gets (v : T) (h : cell.value = some v) :
      Moved cell c (.deref true) cell (.returned (.got (some v))) [.ret c (.got (some v))]
  | undefined (h : cell.value = none) :
      Moved cell c (.deref true) cell (.returned .pending) [.undefined]
  | getsNone : Moved cell c (.deref false) cell (.returned (.got none)) [.ret c (.got none)]
  | loadsInitialized : Moved cell c .loadInitialized cell (.answer (cell.state = .ready)) []
  | answers (b : Bool) :
      Moved cell c (.answer b) cell (.returned (.isInitialized b)) [.ret c (.isInitialized b)]
  | finds (w : Waker) (h : cell.state = .ready) : Moved cell c (.waitLoad w) cell .waitDeref []
  | misses (w : Waker) (h : cell.state ≠ .ready) : Moved cell c (.waitLoad w) cell (.waitLock w) []
  | waitLocks (w : Waker) (h : cell.lock = none) :
      Moved cell c (.waitLock w) { cell with lock := some c } (.waitReload w) []
  | findsAgain (w : Waker) (h : cell.state = .ready) :
      Moved cell c (.waitReload w) { cell with lock := none } .waitDeref []
  | missesAgain (w : Waker) (h : cell.state ≠ .ready) :
      Moved cell c (.waitReload w) cell (.waitPush w) []
  | pushes (w : Waker) :
      Moved cell c (.waitPush w) { cell with
        waiters := if w ∈ cell.waiters then cell.waiters else cell.waiters ++ [w]
        lock := none } .waitPending []
  | waits (v : T) (h : cell.value = some v) :
      Moved cell c .waitDeref cell (.returned (.ready v)) [.ret c (.ready v)]
  | waitUndefined (h : cell.value = none) :
      Moved cell c .waitDeref cell (.returned .pending) [.undefined]
  | pends : Moved cell c .waitPending cell (.returned .pending) [.ret c .pending]

theorem advance_moved (h : advance cell c pc = some (cell', pc', es)) :
    Moved cell c pc cell' pc' es := by
  cases pc with
  | compareExchange | lock | waitLoad | waitLock | waitReload =>
    simp only [advance] at h
    split_ifs at h with hi <;> cases h <;> constructor <;> exact hi
  | wakeAll ws =>
    rcases ws with _ | ⟨w, ws⟩ <;> cases h <;> constructor
  | deref b =>
    rcases b with _ | _
    · cases h
      exact .getsNone
    · simp only [advance, derefs] at h
      rcases hv : cell.value with _ | v <;> rw [hv] at h <;> cases h <;> constructor <;> exact hv
  | waitDeref =>
    simp only [advance, derefs] at h
    rcases hv : cell.value with _ | v <;> rw [hv] at h <;> cases h <;> constructor <;> exact hv
  | returned => cases h
  | _ =>
    cases h
    constructor

theorem Moved.no_call (h : Moved cell c pc cell' pc' es) : .call d r ∉ es := by
  cases h <;> simp

theorem Moved.ret (h : Moved cell c pc cell' pc' es) {x : Res T} (hx : .ret d x ∈ es) :
    d = c ∧ pc' = .returned x := by
  cases h <;> simp at hx <;> simp [hx]

theorem step_moved (h : step s op = some (s', es)) :
    (∃ r, s' = s.start ⟨r, r.entry⟩ ∧ es = [.call s.calls.length r]) ∨
    ∃ c call cell' pc', op = .advance c ∧ s.calls[c]? = some call ∧
      Moved s.shared c call.pc cell' pc' es ∧ s' = s.put c cell' { call with pc := pc' } := by
  cases op with
  | start r =>
    cases h
    exact .inl ⟨r, rfl, rfl⟩
  | advance c =>
    obtain ⟨call, hc, h⟩ := bind_eq_some_iff.mp h
    obtain ⟨⟨cell', pc', es'⟩, ha, h⟩ := map_eq_some_iff.mp h
    cases h
    exact .inr ⟨c, call, cell', pc', rfl, hc, advance_moved ha, rfl⟩

/-! ## What the calls know -/

/-- It holds the lock. -/
def Pc.holds : Pc T → Bool
  | .take | .waitReload _ | .waitPush _ => true
  | _ => false

/-- The call is the `set` that has won, and has not stored `READY` yet. -/
def Pc.writes : Pc T → Bool
  | .write _ | .store => true
  | _ => false

/-- It is the `set` that has won. -/
def Pc.won : Pc T → Bool
  | .write _ | .store | .lock | .take | .wakeAll _ | .returned .stored => true
  | _ => false

/-- **What a call knows of the cell**, by its place in the code. -/
def Fits (cell : Cell T) (r : Req T) : Pc T → Prop
  | .compareExchange v => r = .set v
  | .write v => r = .set v ∧ cell.state = .writing
  | .store => cell.state = .writing ∧ ∃ v, r = .set v ∧ cell.value = some v
  | .lock | .take | .wakeAll _ | .waitDeref | .returned .stored => cell.state = .ready
  | .lost v => r = .set v ∧ cell.state ≠ .empty
  | .load => r = .get
  | .deref b => b = true → cell.state = .ready
  | .loadInitialized => r = .initialized
  | .waitLoad w | .waitLock w | .waitReload w | .waitPush w => r = .wait w
  | .answer _ | .waitPending | .returned _ => True

/-- What a call knows, with the lock. -/
def Known (cell : Cell T) (c : ℕ) (call : Call T) : Prop :=
  Fits cell call.request call.pc ∧ (cell.lock = some c ↔ Pc.holds call.pc = true)

/-- **The cell and its calls are sound.** -/
structure Sound (s : Sys T) : Prop where
  knows : Knows Known s
  holder : ∀ c, s.shared.lock = some c → c < s.calls.length
  winner : s.calls.countP (fun call => Pc.won call.pc) = if s.shared.state = .empty then 0 else 1
  value : s.shared.state = .ready → s.shared.value ≠ none

theorem won_of_writes (h : Pc.writes pc = true) : Pc.won pc = true := by
  cases pc <;> first | rfl | cases h

theorem Fits.stable (h : Fits cell r pc) (hready : cell.state = .ready → cell'.state = .ready)
    (hempty : cell.state ≠ .empty → cell'.state ≠ .empty)
    (hwrites : Pc.writes pc = true → cell'.state = cell.state ∧ cell'.value = cell.value) :
    Fits cell' r pc := by
  cases pc with
  | compareExchange v | load | loadInitialized => exact h
  | write =>
    obtain ⟨h1, h2⟩ := h
    exact ⟨h1, (hwrites rfl).1.trans h2⟩
  | store =>
    obtain ⟨h1, v, h2, h3⟩ := h
    exact ⟨(hwrites rfl).1.trans h1, v, h2, (hwrites rfl).2.trans h3⟩
  | lock | take | wakeAll ws | waitDeref => exact hready h
  | lost => exact ⟨h.1, hempty h.2⟩
  | deref => exact fun hb => hready (h hb)
  | waitLoad w | waitLock w | waitReload w | waitPush w => exact h
  | answer b | waitPending => trivial
  | returned x =>
    cases x with
    | stored => exact hready h
    | rejected v | got o | isInitialized b | pending | ready v => trivial

theorem Sound.unique {call' : Call T} (h : Sound s) (hc : s.calls[c]? = some call)
    (hd : s.calls[d]? = some call') (hw : Pc.won call.pc = true) (hw' : Pc.won call'.pc = true) :
    c = d := by
  have hle : s.calls.countP (fun call => Pc.won call.pc) ≤ 1 := by
    rw [h.winner]
    split_ifs <;> omega
  exact eq_of_countP_le_one hle hc hd hw hw'

theorem Sound.advance (h : Sound s) (hc : s.calls[c]? = some call)
    (hfits : Fits cell' call.request pc') (hlock : cell'.lock = some c ↔ Pc.holds pc' = true)
    (hother : ∀ d, d ≠ c → (cell'.lock = some d ↔ s.shared.lock = some d))
    (hready : s.shared.state = .ready → cell'.state = .ready)
    (hempty : s.shared.state ≠ .empty → cell'.state ≠ .empty)
    (hwrites : Pc.writes call.pc = true ∨ Pc.won pc' = true ∧ s.shared.state = .empty ∨
      (cell'.state = s.shared.state ∧ cell'.value = s.shared.value))
    (hwon : (Pc.won pc').toNat + (if s.shared.state = .empty then 0 else 1) =
      (Pc.won call.pc).toNat + (if cell'.state = .empty then 0 else 1))
    (hvalue : cell'.state = .ready → cell'.value ≠ none) :
    Sound (s.put c cell' { call with pc := pc' }) := by
  refine ⟨?_, fun d hd => ?_, ?_, hvalue⟩
  · refine h.knows.step hc ⟨hfits, hlock⟩ fun d call' hd hget hk => ?_
    refine ⟨hk.1.stable hready hempty fun hw => ?_, (hother d hd).trans hk.2⟩
    rcases hwrites with hw' | ⟨-, he⟩ | hsame
    · -- two calls would have won
      exact absurd (h.unique hget hc (won_of_writes hw) (won_of_writes hw')) hd
    · have hpos : 0 < s.calls.countP (fun call => Pc.won call.pc) :=
        countP_pos_iff.mpr ⟨call', mem_of_getElem? hget, won_of_writes hw⟩
      rw [h.winner, if_pos he] at hpos
      omega
    · exact hsame
  · rw [put_length]
    by_cases hdc : d = c
    · rw [hdc]
      exact lt_length hc
    · exact h.holder d ((hother d hdc).mp hd)
  · have hcount := countP_set (p := fun call : Call T => Pc.won call.pc)
      (b := { call with pc := pc' }) hc
    have hwin := h.winner
    change (s.calls.set c _).countP _ = _
    simp only at hcount
    change _ = if cell'.state = .empty then 0 else 1
    omega

theorem Sound.reads (h : Sound s) (hc : s.calls[c]? = some call)
    (hfits : Fits s.shared call.request pc') (hlock : Pc.holds pc' = Pc.holds call.pc)
    (hwon : Pc.won pc' = Pc.won call.pc) : Sound (s.put c s.shared { call with pc := pc' }) := by
  refine h.advance hc hfits ?_ (fun _ _ => Iff.rfl) id id (.inr (.inr ⟨rfl, rfl⟩)) ?_ h.value
  · rw [hlock]
    exact (h.knows c call hc).2
  · rw [hwon]

theorem Sound.turns {waiters : List Waker} {lock : Option ℕ} (h : Sound s)
    (hc : s.calls[c]? = some call)
    (hfits : Fits { s.shared with waiters := waiters, lock := lock } call.request pc')
    (hlock : lock = some c ∧ s.shared.lock = none ∧ Pc.holds pc' = true ∨
      lock = none ∧ s.shared.lock = some c ∧ Pc.holds pc' = false)
    (hwon : Pc.won pc' = Pc.won call.pc) :
    Sound (s.put c { s.shared with waiters := waiters, lock := lock } { call with pc := pc' }) := by
  refine h.advance hc hfits ?_ (fun d hd => ?_) id id (.inr (.inr ⟨rfl, rfl⟩)) ?_ h.value
  · rcases hlock with ⟨hl, -, hp⟩ | ⟨hl, -, hp⟩ <;> simp [hl, hp]
  · rcases hlock with ⟨hl, hl', -⟩ | ⟨hl, hl', -⟩ <;> simp [hl, hl', Ne.symm hd]
  · rw [hwon]

theorem sound_new : Sound (new : Sys T) :=
  ⟨knows_nil _, nofun, rfl, nofun⟩

theorem Sound.start (h : Sound s) (r : Req T) : Sound (s.start ⟨r, r.entry⟩) := by
  have hfits : Fits s.shared r r.entry := by cases r <;> rfl
  have hholds : Pc.holds r.entry = false := by cases r <;> rfl
  have hwon : Pc.won r.entry = false := by cases r <;> rfl
  refine ⟨h.knows.start ⟨hfits, ?_⟩, fun c hc => ?_, ?_, h.value⟩
  · refine ⟨fun hl => absurd (h.holder _ hl) (Nat.lt_irrefl _), fun hl => ?_⟩
    exact absurd (hholds.symm.trans hl) Bool.false_ne_true
  · rw [start_length]
    exact Nat.lt_succ_of_lt (h.holder c hc)
  · change (s.calls ++ [_]).countP _ = if s.shared.state = .empty then 0 else 1
    rw [countP_append, h.winner, countP_singleton, hwon]
    rfl

theorem Sound.moved (h : Sound s) (hc : s.calls[c]? = some call)
    (hm : Moved s.shared c call.pc cell' pc' es) :
    Sound (s.put c cell' { call with pc := pc' }) := by
  obtain ⟨r, pc⟩ := call
  obtain ⟨hfits, hholds⟩ := h.knows c _ hc
  cases hm with
  | wins v he =>
    refine h.advance hc ⟨hfits, rfl⟩ hholds (fun _ _ => Iff.rfl) ?_ ?_ (.inr (.inl ⟨rfl, he⟩)) ?_ ?_
    · exact fun hr => absurd (he.symm.trans hr) (by decide)
    · exact fun hne => absurd he hne
    · simp [he, Pc.won]
    · exact nofun
  | loses v he => exact h.reads hc ⟨hfits, he⟩ rfl rfl
  | writes v =>
    refine h.advance hc ⟨hfits.2, v, hfits.1, rfl⟩ hholds (fun _ _ => Iff.rfl) id id (.inl rfl) rfl
      ?_
    exact fun _ => some_ne_none v
  | stores =>
    obtain ⟨hw, v, -, hv⟩ := hfits
    refine h.advance hc rfl hholds (fun _ _ => Iff.rfl) (fun _ => rfl) ?_ (.inl rfl) ?_ ?_
    · exact nofun
    · simp [hw, Pc.won]
    · intro _
      change s.shared.value ≠ none
      rw [hv]
      exact some_ne_none v
  | locks hl | waitLocks w hl => exact h.turns hc hfits (.inl ⟨rfl, hl, rfl⟩) rfl
  | takes => exact h.turns hc hfits (.inr ⟨rfl, hholds.mpr rfl, rfl⟩) rfl
  | wakes | succeeds | misses | missesAgain => exact h.reads hc hfits rfl rfl
  | loads => exact h.reads hc of_decide_eq_true rfl rfl
  | finds w hr => exact h.reads hc hr rfl rfl
  | findsAgain w hr => exact h.turns hc hr (.inr ⟨rfl, hholds.mpr rfl, rfl⟩) rfl
  | pushes => exact h.turns hc trivial (.inr ⟨rfl, hholds.mpr rfl, rfl⟩) rfl
  | _ => exact h.reads hc trivial rfl rfl

theorem sound_step (h : Sound s) (hs : step s op = some (s', es)) : Sound s' := by
  obtain ⟨r, rfl, rfl⟩ | ⟨c, call, cell', pc', -, hc, hm, rfl⟩ := step_moved hs
  · exact h.start r
  · exact h.moved hc hm

theorem sound_run (h : Run step C (new : Sys T) tr s) : Sound s :=
  h.inv sound_new fun _ _ _ _ _ hI _ hs => sound_step hI hs

/-! ## The requests -/

theorem has_step {J : Call T → Prop} (h : Has s c J) (hs : step s op = some (s', es))
    (hJ : ∀ call cell' pc' es, J call → Moved s.shared c call.pc cell' pc' es →
      J { call with pc := pc' }) : Has s' c J := by
  obtain ⟨r, rfl, -⟩ | ⟨d, call, cell', pc', -, hd, hm, rfl⟩ := step_moved hs
  · exact h.start
  · refine h.put hd ?_
    rintro rfl hcall
    exact hJ call cell' pc' es hcall hm

theorem requested_run (h : Run step C (new : Sys T) tr s) (hcall : .call c r ∈ tr) :
    Has s c fun call => call.request = r := by
  refine h.inv (I := fun tr s => .call c r ∈ tr → Has s c fun call => call.request = r)
    nofun ?_ hcall
  intro tr s op s' es ih _ hs hr
  rcases mem_append.mp hr with hr | hr
  · exact has_step (ih hr) hs fun _ _ _ _ hcall _ => hcall
  · obtain ⟨r', rfl, rfl⟩ | ⟨d, call, cell', pc', -, -, hm, -⟩ := step_moved hs
    · rw [mem_singleton, Ev.call.injEq] at hr
      obtain ⟨rfl, rfl⟩ := hr
      exact has_start rfl
    · exact absurd hr hm.no_call

theorem request_unique (h : Run step C (new : Sys T) tr s) {r' : Req T} (hr : .call c r ∈ tr)
    (hr' : .call c r' ∈ tr) : r = r' := by
  obtain ⟨call, -, h1, h2⟩ := (requested_run h hr).and (requested_run h hr')
  exact h1.symm.trans h2

theorem returned_run (h : Run step C (new : Sys T) tr s) {x : Res T} (hret : .ret c x ∈ tr) :
    Has s c fun call => call.pc = .returned x := by
  refine h.inv (I := fun tr s => .ret c x ∈ tr → Has s c fun call => call.pc = .returned x)
    nofun ?_ hret
  intro tr s op s' es ih _ hs hr
  rcases mem_append.mp hr with hr | hr
  · refine has_step (ih hr) hs fun call cell' pc' es hcall hm => ?_
    rw [hcall] at hm
    cases hm
  · obtain ⟨r', rfl, rfl⟩ | ⟨d, call, cell', pc', -, hd, hm, rfl⟩ := step_moved hs
    · simp at hr
    · obtain ⟨rfl, rfl⟩ := hm.ret hr
      exact has_put hd rfl

end OhosFfrt.SetOnce.Moves
