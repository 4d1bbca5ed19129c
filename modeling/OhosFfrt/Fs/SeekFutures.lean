import OhosFfrt.Fs.Seeks

/-!
# Futures of seeks on a `File`

A `Seek` future borrows the file until it is over or dropped.  Its first poll leaves the request in
`pending_seek`; a later turn takes it from there and starts the seek of the operating system.  If
the future is over before that, the request or the operation stays; in a careful run neither does
(`inv_run`).
-/

namespace OhosFfrt.Fs.SeekFutures

open Lib.Files Lib.Runs Fs.State Fs.System List Option
open Fs.Moves Fs.Refinement Fs.Seeks

/-- A file and its calls, and the `Seek` future that borrows it: the position that it was made for,
and the one it has not asked for yet. -/
structure Seeker where
  sys : Sys
  future : Option (SeekFrom × Option SeekFrom)

inductive Op
  /-- An operation on the file, or of the system. -/
  | file (op : System.Op)
  | seek (position : SeekFrom)
  /-- `Seek::poll`, up to the loop of `poll_complete`. -/
  | poll
  | drop
  deriving DecidableEq, Repr

inductive Ev
  | file (ev : State.Ev)
  | rejected (error : IoError)
  | sought (asked : SeekFrom) (p : ℕ)
  deriving DecidableEq, Repr

/-- The seek has returned. -/
def isOver : State.Ev → Bool
  | .sought _ | .failed _ => true
  | _ => false

/-- The event, as that of the future polled. -/
def out (future : Option (SeekFrom × Option SeekFrom)) : State.Ev → Ev
  | .sought p =>
    match future with
    | some (asked, _) => .sought asked p
    | none => .file (.sought p)
  | ev => .file ev

/-- Seeks are made by futures only, and while there is one there are no other calls. -/
def allowed (s : Seeker) : System.Op → Bool
  | .startSeek _ | .begin .complete => false
  | .turn | .execute _ | .finish => true
  | _ => s.future.isNone

def step (s : Seeker) : Op → Option (Seeker × List Ev)
  | .file op =>
    if allowed s op then
      (System.step s.sys op).map fun r =>
        (⟨r.1, if r.2.any isOver then none else s.future⟩, r.2.map (out s.future))
    else none
  | .seek position =>
    if s.future.isNone && s.sys.call.isNone then
      some ({ s with future := some (position, some position) }, [])
    else none
  | .poll =>
    if s.sys.call.isNone then
      s.future.map fun
        | (asked, none) =>
          (⟨{ s.sys with call := some .complete }, some (asked, none)⟩, [])
        | (asked, some position) =>
          match s.sys.file.startSeek position with
          | .error e => (⟨s.sys, none⟩, [.rejected e])
          | .ok f => (⟨{ s.sys with file := f, call := some .complete }, some (asked, none)⟩, [])
    else none
  | .drop =>
    if s.future.isSome && s.sys.call.isNone then some ({ s with future := none }, []) else none

/-- The task seeks. -/
def isSeek : FileOperation → Bool
  | .seek _ _ => true
  | _ => false

/-- The task has failed. -/
def failing (f : File) : Bool := f.operation.any fun operation => (operation.poll.bind error).isSome

/-- No future is dropped while its request is in the file, none is made while the seek of one that
was dropped is under way, and none that waits for an operation finds that it has failed. -/
def careful (s : Seeker) : Op → Bool
  | .drop => s.sys.file.pendingSeek.isNone
  | .seek _ => !s.sys.file.operation.any isSeek
  | .file .turn => !(s.future.isSome && s.sys.file.pendingSeek.isSome && failing s.sys.file)
  | _ => true

/-- **The condition on a step.** -/
def Careful (_ : List Ev) (s : Seeker) (op : Op) : Prop := careful s op = true

instance (tr : List Ev) (s : Seeker) (op : Op) : Decidable (Careful tr s op) :=
  inferInstanceAs (Decidable (_ = true))

variable {s₀ s s' : Seeker} {tr es : List Ev} {asked : SeekFrom} {f : File} {os os' : SeqFile}
  {operation operation' : FileOperation} {sys' sys : Sys} {op : System.Op} {fes : List State.Ev}

/-! ## What keeps the request -/

/-- No task seeks. -/
def NotSeeking (f : File) : Prop :=
  ∀ operation, f.operation = some operation → isSeek operation = false

/-- No seek is asked for or under way. -/
def Free (f : File) : Prop := f.pendingSeek = none ∧ NotSeeking f

theorem notSeeking_idle (hop : f.operation = none) : NotSeeking f := by
  intro operation h
  rw [hop] at h
  cases h

theorem request_loop {idle : Turn} {ret : CompletedOperation → Option State.Ev}
    (hidle : idle.file.pendingSeek = f.pendingSeek)
    (hnot : f.operation = none → NotSeeking idle.file) :
    (f.turn idle ret).file.pendingSeek = f.pendingSeek ∧
      (NotSeeking f → NotSeeking (f.turn idle ret).file) := by
  have hturned := turn_turned f idle ret
  generalize f.turn idle ret = t at hturned ⊢
  cases hturned with
  | idle hop => exact ⟨hidle, fun _ => hnot hop⟩
  | pending => exact ⟨rfl, fun h => h⟩
  | failed | finished => exact ⟨rfl, fun _ => notSeeking_idle rfl⟩

theorem request_turn {c : Call} (hc : c ≠ .complete) (f : File) :
    (c.turn f).file.pendingSeek = f.pendingSeek ∧ (NotSeeking f → NotSeeking (c.turn f).file) := by
  rcases c with n | buf | _ | _
  · simp only [Call.turn, File.pollRead]
    split_ifs
    · exact ⟨rfl, fun h => h⟩
    · exact ⟨rfl, fun h => h⟩
    · refine request_loop rfl fun _ => ?_
      rintro operation ⟨⟩
      rfl
  · refine request_loop ?_ fun hop => ?_
    · split_ifs <;> rfl
    · split_ifs
      · exact notSeeking_idle hop
      · rintro operation ⟨⟩
        rfl
  · exact request_loop rfl notSeeking_idle
  · exact absurd rfl hc

theorem isSeek_execute {o : Outcome} (h : execute os o operation = some (os', operation')) :
    isSeek operation' = isSeek operation := by
  rcases operation with ⟨cap, _ | r | r⟩ | ⟨u, bs, _ | r | r⟩ | ⟨pos, _ | r | r⟩ <;>
    simp only [execute, map_eq_some_iff, some.injEq, Prod.mk.injEq,
      reduceCtorEq] at h
  · obtain ⟨_, _, -, rfl⟩ := h
    rfl
  · rw [← h.2]
    rfl
  · rw [← h.2]
    rfl

theorem isSeek_finish (h : finish operation = some operation') :
    isSeek operation' = isSeek operation := by
  rcases operation with ⟨cap, _ | r | r⟩ | ⟨u, bs, _ | r | r⟩ | ⟨pos, _ | r | r⟩ <;>
    simp only [finish, some.injEq, reduceCtorEq] at h <;> subst h <;> rfl

theorem request_step (hs : System.step sys op = some (sys', fes))
    (hstart : ∀ position, op ≠ .startSeek position)
    (hturn : op = .turn → sys.call ≠ some .complete) :
    sys'.file.pendingSeek = sys.file.pendingSeek ∧
      (NotSeeking sys.file → NotSeeking sys'.file) := by
  by_cases hop : op = .turn
  · subst hop
    have hcall := hturn rfl
    obtain ⟨c, hc, ⟨⟩⟩ := map_eq_some_iff.mp hs
    rw [hc] at hcall
    exact request_turn (fun h => hcall (congrArg some h)) sys.file
  · cases step_moved hs with
    | begin | setMaxBufSize | readOwned | readToEndOwned | writeAllOwned => exact ⟨rfl, fun h => h⟩
    | turn => exact absurd rfl hop
    | refused | startSeek => exact absurd rfl (hstart _)
    | execute hoperation he =>
      refine ⟨rfl, fun h => ?_⟩
      rintro _ ⟨⟩
      rw [isSeek_execute he]
      exact h _ hoperation
    | finish hoperation hf =>
      refine ⟨rfl, fun h => ?_⟩
      rintro _ ⟨⟩
      rw [isSeek_finish hf]
      exact h _ hoperation

/-! ## Runs -/

/-- The future is polled, and not ready. -/
def Quiet (es : List Ev) : Prop := ∀ x ∈ es, x = .file .pending ∨ ∃ p, x = .file (.seeking p)

/-- **The seek to `asked` was started on the file `g`**, as the caller saw it: in a state of the run
in which it was the request and no operation was under way, since when nothing but polls of it has
happened. -/
def StartedOn (s₀ : Seeker) (tr : List Ev) (asked : SeekFrom) (g : SeqFile) : Prop :=
  ∃ l r s₁, Run step Careful s₀ l s₁ ∧ tr = l ++ r ∧ Quiet r ∧ s₁.future = some (asked, none) ∧
    s₁.sys.file.pendingSeek = some asked ∧ s₁.sys.file.operation = none ∧ g = logical s₁.sys

theorem StartedOn.quiet {g : SeqFile} (h : StartedOn s₀ tr asked g) (hes : Quiet es) :
    StartedOn s₀ (tr ++ es) asked g := by
  obtain ⟨l, r, s₁, hrun, rfl, hr, hrest⟩ := h
  refine ⟨l, r ++ es, s₁, hrun, append_assoc _ _ _, ?_, hrest⟩
  intro x hx
  rcases mem_append.mp hx with hx | hx
  · exact hr x hx
  · exact hes x hx

/-- The operating system's file while the seek from `g` is under way. -/
def Reaches (g : SeqFile) (asked : SeekFrom) (os : SeqFile) (p : SeekFrom) : Handle ℕ → Prop
  | .queued => os.seek p = g.seek asked
  | .ran (.ok q) | .finished (.ok q) => g.seek asked = some os ∧ q = os.offset
  | _ => True

/-- **Where a seek is that was polled**: its request is in the file, or the seek is under way. -/
inductive Polled (s₀ : Seeker) (tr : List Ev) (asked : SeekFrom) (sys : Sys) : Prop
  | waiting (hseek : sys.file.pendingSeek = some asked) (hnot : NotSeeking sys.file)
  | seeking (p : SeekFrom) (h : Handle ℕ) (g : SeqFile) (hseek : sys.file.pendingSeek = none)
      (hop : sys.file.operation = some (.seek p h)) (hg : StartedOn s₀ tr asked g)
      (hh : Reaches g asked sys.os p h)

/-- What holds while the future is alive. -/
def Holds (s₀ : Seeker) (tr : List Ev) (sys : Sys) :
    Option (SeekFrom × Option SeekFrom) → Prop
  | none => sys.file.pendingSeek = none ∧ sys.call ≠ some .complete
  | some (asked, some position) => position = asked ∧ Free sys.file ∧ sys.call = none
  | some (asked, none) =>
    (sys.call = none ∨ sys.call = some .complete) ∧ Polled s₀ tr asked sys

/-- **What holds in every state of a careful run.** -/
structure Inv (s₀ : Seeker) (tr : List Ev) (s : Seeker) : Prop where
  run : Run step Careful s₀ tr s
  within : Within s.sys.os s.sys.file
  holds : Holds s₀ tr s.sys s.future

/-- What a turn of `poll_complete` comes to, for the future. -/
inductive Turns (s₀ : Seeker) (tr : List Ev) (asked : SeekFrom) (s : Seeker) (t : Turn) : Prop
  | again (hover : t.events.any isOver = false) (hquiet : Quiet (t.events.map (out s.future)))
      (hpolled : ∀ call,
        Polled s₀ (tr ++ t.events.map (out s.future)) asked ⟨s.sys.os, t.file, call⟩)
  /-- It is ready; only if an operation has failed is the request still there. -/
  | ready (hover : t.events.any isOver = true) (hreturned : t.returned = true)
      (hfree : careful s (.file .turn) = true → t.file.pendingSeek = none)
      (hsought : ∀ p, .sought p ∈ t.events → t.file.bufferedRead = [] ∧
        ∃ g, StartedOn s₀ tr asked g ∧ g.seek asked = some s.sys.os ∧ p = s.sys.os.offset)

theorem soughtBy_of_not {c : CompletedOperation} (hpoll : operation.poll = some c)
    (hnot : isSeek operation = false) : soughtBy c = none := by
  rcases operation with ⟨cap, _ | r | r⟩ | ⟨u, bs, _ | r | r⟩ | ⟨pos, _ | r | r⟩ <;>
    simp only [FileOperation.poll, some.injEq, reduceCtorEq] at hpoll
  · subst hpoll
    rfl
  · subst hpoll
    rfl
  · cases hnot

theorem turns_waiting (h : Inv s₀ tr s) (hfuture : s.future = some (asked, none))
    (hseek : s.sys.file.pendingSeek = some asked) (hnot : NotSeeking s.sys.file) :
    Turns s₀ tr asked s s.sys.file.pollComplete := by
  rcases hop : s.sys.file.operation with _ | operation
  · -- its turn has come
    have hle := h.within.le
    rw [unread_idle hop] at hle
    rw [pollComplete_idle hop, hseek, getD_some]
    rcases hp : compensate asked s.sys.file.bufferedRead.length with _ | p
    · refine .ready rfl rfl (fun _ => rfl) fun p hmem => ?_
      simp [Turn.returns] at hmem
    · have hquiet : Quiet [.file (.seeking asked)] := fun x hx =>
        .inr ⟨asked, mem_singleton.mp hx⟩
      have hstarted : StartedOn s₀ (tr ++ [.file (.seeking asked)]) asked (logical s.sys) :=
        ⟨tr, _, s, h.run, rfl, hquiet, hfuture, hseek, hop, rfl⟩
      exact .again rfl hquiet fun call =>
        .seeking p .queued (logical s.sys) rfl rfl hstarted (compensate_seek hle hp)
  · have hturned : Turned s.sys.file _ soughtBy s.sys.file.pollComplete := turn_turned _ _ _
    generalize s.sys.file.pollComplete = t at hturned ⊢
    cases hturned with
    | idle hnone =>
      rw [hop] at hnone
      cases hnone
    | pending =>
      refine .again rfl (fun x hx => .inl (mem_singleton.mp hx)) fun call => ?_
      exact .waiting hseek hnot
    | failed operation' c e hop' hpoll he =>
      refine .ready rfl rfl (fun hcareful => ?_) fun p hmem => ?_
      · -- the operation that was waited for has failed
        have hfailing : failing s.sys.file = true := by
          simp [failing, hop', hpoll, he]
        simp [careful, hfuture, hseek, hfailing] at hcareful
      · simp [Turn.returns] at hmem
    | finished operation' c es returned hop' hpoll he hes =>
      rw [soughtBy_of_not hpoll (hnot _ hop')] at hes
      subst hes
      refine .again rfl (by simp [Quiet]) fun call => ?_
      exact .waiting hseek (notSeeking_idle rfl)

theorem turns_seeking {p : SeekFrom} {h : Handle ℕ} {g : SeqFile}
    (hwithin : Within s.sys.os s.sys.file) (hseek : s.sys.file.pendingSeek = none)
    (hop : s.sys.file.operation = some (.seek p h))
    (hg : StartedOn s₀ tr asked g) (hh : Reaches g asked s.sys.os p h) :
    Turns s₀ tr asked s s.sys.file.pollComplete := by
  have hquiet : Quiet [.file .pending] := fun x hx => .inl (mem_singleton.mp hx)
  rw [pollComplete_seeking hop]
  rcases h with _ | r | (e | q)
  iterate 2
    · exact .again rfl hquiet fun call => .seeking p _ g hseek hop (hg.quiet hquiet) hh
  · refine .ready rfl rfl (fun _ => hseek) fun q hmem => ?_
    simp [seekTurn, Turn.returns] at hmem
  · refine .ready rfl rfl (fun _ => hseek) fun q' hmem => ?_
    simp only [seekTurn, Turn.returns, mem_singleton, State.Ev.sought.injEq] at hmem
    subst hmem
    exact ⟨hwithin.busy (by simp [hop]), g, hg, hh⟩

theorem turns_polled (h : Inv s₀ tr s) (hfuture : s.future = some (asked, none))
    (hpolled : Polled s₀ tr asked s.sys) : Turns s₀ tr asked s s.sys.file.pollComplete := by
  cases hpolled with
  | waiting hseek hnot => exact turns_waiting h hfuture hseek hnot
  | seeking p handle g hseek hop hg hh => exact turns_seeking h.within hseek hop hg hh

theorem polled_execute {o : Outcome} (h : Polled s₀ tr asked sys)
    (hs : System.step sys (.execute o) = some (sys', fes)) :
    Polled s₀ tr asked sys' := by
  have hrequest := request_step hs nofun nofun
  cases h with
  | waiting hseek hnot => exact .waiting (hrequest.1.trans hseek) (hrequest.2 hnot)
  | seeking p h g hseek hop hg hh =>
    simp only [System.step, hop, bind_some, map_eq_some_iff, Prod.mk.injEq] at hs
    obtain ⟨⟨os', operation'⟩, he, rfl, -⟩ := hs
    rcases h with _ | r | r
    · cases he
      refine .seeking p _ g hseek rfl hg ?_
      simp only [Reaches] at hh
      rcases executeSeek_cases sys.os p o with ⟨os', hos', hseek'⟩ | hseek'
      · rw [hseek']
        exact ⟨hh.symm.trans hos', rfl⟩
      · rw [hseek']
        trivial
    · cases he
    · cases he

theorem polled_finish (h : Polled s₀ tr asked sys)
    (hs : System.step sys .finish = some (sys', fes)) : Polled s₀ tr asked sys' := by
  have hrequest := request_step hs nofun nofun
  cases h with
  | waiting hseek hnot => exact .waiting (hrequest.1.trans hseek) (hrequest.2 hnot)
  | seeking p h g hseek hop hg hh =>
    simp only [System.step, hop, bind_some, map_eq_some_iff, Prod.mk.injEq] at hs
    obtain ⟨operation', hf, rfl, -⟩ := hs
    rcases h with _ | r | r
    · cases hf
    · cases hf
      refine .seeking p _ g hseek rfl hg ?_
      rcases r with e | q <;> exact hh
    · cases hf

theorem call_step (hs : System.step sys op = some (sys', fes)) (hbegin : op ≠ .begin .complete)
    (hcall : sys.call ≠ some .complete) : sys'.call ≠ some .complete := by
  by_cases hop : op = .turn
  · subst hop
    obtain ⟨c, hc, ⟨⟩⟩ := map_eq_some_iff.mp hs
    simp only
    split_ifs
    · exact nofun
    · rw [← hc]
      exact hcall
  · cases step_moved hs with
    | begin => exact fun h => hbegin (congrArg System.Op.begin (some.inj h))
    | turn => exact absurd rfl hop
    | _ => exact hcall

/-- What a step does in a careful run: it refuses no seek, one that is ready is where it was asked
to go, and if it is careful itself the invariant goes on. -/
structure Steps (s₀ : Seeker) (tr : List Ev) (s : Seeker) (op : Op) (s' : Seeker) (es : List Ev) :
    Prop where
  accepted : ∀ e, .rejected e ∉ es
  reached : ∀ asked p, .sought asked p ∈ es → ∃ g, StartedOn s₀ tr asked g ∧
    g.seek asked = some (logical s'.sys) ∧ p = (logical s'.sys).offset
  holds : Careful tr s op → Holds s₀ (tr ++ es) s'.sys s'.future

theorem steps_nil {op : Op} (h : Careful tr s op → Holds s₀ tr s'.sys s'.future) :
    Steps s₀ tr s op s' [] where
  accepted := nofun
  reached := nofun
  holds := by
    rw [append_nil]
    exact h

theorem out_none (ev : State.Ev) : ∃ ev', out none ev = .file ev' := by
  rcases ev with _ | _ | _ | _ | _ | _ | _ | _ | _ | _ <;> exact ⟨_, rfl⟩

theorem steps_call (h : Inv s₀ tr s) (hfuture : s.future = none) (hallowed : allowed s op = true)
    (hs : System.step s.sys op = some (sys', fes)) :
    Steps s₀ tr s (.file op) ⟨sys', none⟩ (fes.map (out none)) := by
  have hfile : ∀ ev ∈ fes.map (out none), ∃ ev', ev = .file ev' := by
    intro ev hev
    obtain ⟨x, -, rfl⟩ := mem_map.mp hev
    exact out_none x
  obtain ⟨hseek, hcall⟩ : s.sys.file.pendingSeek = none ∧ s.sys.call ≠ some .complete := by
    have hholds := h.holds
    rw [hfuture] at hholds
    exact hholds
  have hstart : ∀ position, op ≠ .startSeek position := by
    rintro position rfl
    cases hallowed
  have hbegin : op ≠ .begin .complete := by
    rintro rfl
    cases hallowed
  have hrequest := (request_step hs hstart fun _ => hcall).1
  refine ⟨fun e he => ?_, fun asked p hp => ?_, fun _ => ?_⟩
  · obtain ⟨ev', hev'⟩ := hfile _ he
    cases hev'
  · obtain ⟨ev', hev'⟩ := hfile _ hp
    cases hev'
  · exact ⟨hrequest.trans hseek, call_step hs hbegin hcall⟩

theorem silent_step (hop : op = .finish ∨ ∃ o, op = .execute o)
    (hs : System.step sys op = some (sys', fes)) : sys'.call = sys.call ∧ fes = [] := by
  obtain rfl | ⟨o, rfl⟩ := hop
  all_goals
    simp only [System.step, bind_eq_some_iff, map_eq_some_iff, Prod.mk.injEq] at hs
    obtain ⟨_, -, _, -, rfl, rfl⟩ := hs
    exact ⟨rfl, rfl⟩

theorem steps_unpolled {position : SeekFrom}
    (h : Inv s₀ tr s) (hfuture : s.future = some (asked, some position))
    (hallowed : allowed s op = true) (hs : System.step s.sys op = some (sys', fes)) :
    Steps s₀ tr s (.file op)
      ⟨sys', if fes.any isOver then none else s.future⟩ (fes.map (out s.future)) := by
  obtain ⟨rfl, ⟨hseek, hnot⟩, hcall⟩ :
      position = asked ∧ Free s.sys.file ∧ s.sys.call = none := by
    have hholds := h.holds
    rw [hfuture] at hholds
    exact hholds
  have hstart : ∀ position, op ≠ .startSeek position := by
    rintro position rfl
    cases hallowed
  have hnone : s.sys.call ≠ some .complete := by
    rw [hcall]
    exact nofun
  obtain ⟨hrequest, hnot'⟩ := request_step hs hstart fun _ => hnone
  have hsame : sys'.call = none ∧ fes = [] := by
    rcases op with c | _ | pos | n | o | _ | ⟨len, k⟩ | _ | data <;>
      simp only [allowed, hfuture, isNone_some, Bool.false_eq_true] at hallowed
    · rcases c <;> simp at hallowed
    · simp [System.step, hcall] at hs
    · exact hcall ▸ silent_step (.inr ⟨o, rfl⟩) hs
    · exact hcall ▸ silent_step (.inl rfl) hs
  obtain ⟨hcall', rfl⟩ := hsame
  refine steps_nil fun _ => ?_
  simp only [any_nil, Bool.false_eq_true, if_false, hfuture]
  exact ⟨rfl, ⟨hrequest.trans hseek, hnot' hnot⟩, hcall'⟩

theorem steps_turns {t : Turn} (hfuture : s.future = some (asked, none))
    (hturns : Turns s₀ tr asked s t) :
    Steps s₀ tr s (.file .turn)
      ⟨{ s.sys with file := t.file, call := if t.returned then none else some .complete },
        if t.events.any isOver then none else s.future⟩ (t.events.map (out s.future)) := by
  cases hturns with
  | again hover hquiet hpolled =>
    refine ⟨fun e he => ?_, fun asked' p hp => ?_, fun _ => ?_⟩
    · rcases hquiet _ he with h | ⟨p, h⟩ <;> cases h
    · rcases hquiet _ hp with h | ⟨p, h⟩ <;> cases h
    · simp only [hover, Bool.false_eq_true, if_false]
      rw [hfuture] at hpolled ⊢
      refine ⟨?_, hpolled _⟩
      simp only
      split_ifs
      · exact .inl rfl
      · exact .inr rfl
  | ready hover hreturned hfree hsought =>
    refine ⟨fun e he => ?_, fun asked' p hp => ?_, fun hC => ?_⟩
    · obtain ⟨x, -, hx⟩ := mem_map.mp he
      rw [hfuture] at hx
      rcases x with _ | _ | _ | _ | _ | _ | _ | _ | _ | _ <;> cases hx
    · obtain ⟨x, hmem, hx⟩ := mem_map.mp hp
      rw [hfuture] at hx
      rcases x with _ | _ | _ | _ | q | _ | _ | _ | _ | _ <;> cases hx
      obtain ⟨hnil, g, hg, hreach, hoffset⟩ := hsought p hmem
      refine ⟨g, hg, ?_, ?_⟩
      · simp only [logical, hnil]
        exact hreach
      · simp only [logical, hnil]
        exact hoffset
    · simp only [hover, if_true]
      refine ⟨hfree hC, ?_⟩
      simp only [hreturned, if_true]
      exact nofun

theorem steps_turn (h : Inv s₀ tr s)
    (hfuture : s.future = some (asked, none)) (hs : System.step s.sys .turn = some (sys', fes)) :
    Steps s₀ tr s (.file .turn)
      ⟨sys', if fes.any isOver then none else s.future⟩ (fes.map (out s.future)) := by
  have hholds := h.holds
  rw [hfuture] at hholds
  obtain ⟨hcall, hpolled⟩ := hholds
  rcases hcall with hcall | hcall
  · simp [System.step, hcall] at hs
  · simp only [System.step, hcall, map_some] at hs
    cases hs
    exact steps_turns hfuture (turns_polled h hfuture hpolled)

theorem steps_polled (h : Inv s₀ tr s) (hfuture : s.future = some (asked, none))
    (hallowed : allowed s op = true) (hs : System.step s.sys op = some (sys', fes)) :
    Steps s₀ tr s (.file op)
      ⟨sys', if fes.any isOver then none else s.future⟩ (fes.map (out s.future)) := by
  by_cases hturn : op = .turn
  · subst hturn
    exact steps_turn h hfuture hs
  have hholds := h.holds
  rw [hfuture] at hholds
  obtain ⟨hcall, hpolled⟩ := hholds
  obtain ⟨hpolled', hcall', rfl⟩ :
      Polled s₀ tr asked sys' ∧ sys'.call = s.sys.call ∧ fes = [] := by
    rcases op with c | _ | pos | n | o | _ | ⟨len, k⟩ | _ | data <;>
      simp only [allowed, hfuture, isNone_some, Bool.false_eq_true] at hallowed
    · rcases c <;> simp at hallowed
    · exact absurd rfl hturn
    · exact ⟨polled_execute hpolled hs, silent_step (.inr ⟨o, rfl⟩) hs⟩
    · exact ⟨polled_finish hpolled hs, silent_step (.inl rfl) hs⟩
  refine steps_nil fun _ => ?_
  simp only [any_nil, Bool.false_eq_true, if_false, hfuture]
  exact ⟨hcall' ▸ hcall, hpolled'⟩

theorem startSeek_free (h : Free f) (position : SeekFrom) :
    f.startSeek position = .ok { f with pendingSeek := some position } := by
  obtain ⟨operation, pendingSeek, maxBufSize, bufferedRead⟩ := f
  obtain ⟨hseek, hnot⟩ := h
  obtain rfl : pendingSeek = none := hseek
  rcases operation with _ | (_ | _ | _)
  · rfl
  · rfl
  · rfl
  · cases hnot _ rfl

theorem notSeeking_of_not (h : f.operation.any isSeek = false) : NotSeeking f := by
  intro operation hop
  rwa [hop] at h

theorem steps_poll (h : Inv s₀ tr s) (hs : step s .poll = some (s', es)) :
    Steps s₀ tr s .poll s' es ∧ Within s'.sys.os s'.sys.file := by
  have hwithin := h.within
  have hholds := h.holds
  simp only [step, ite_none_right_eq_some, map_eq_some_iff] at hs
  obtain ⟨-, ⟨asked, _ | position⟩, hfuture, hs⟩ := hs
  · cases hs
    rw [hfuture] at hholds
    refine ⟨steps_nil fun _ => ⟨.inr rfl, ?_⟩, hwithin⟩
    cases hholds.2 with
    | waiting hseek hnot => exact .waiting hseek hnot
    | seeking p h g hseek hop hg hh => exact .seeking p h g hseek hop hg hh
  · rw [hfuture] at hholds
    obtain ⟨rfl, ⟨hseek, hnot⟩, -⟩ := hholds
    have hstart := startSeek_free ⟨hseek, hnot⟩ position
    simp only [hstart] at hs
    cases hs
    exact ⟨steps_nil fun _ => ⟨.inr rfl, .waiting rfl hnot⟩, hwithin.busy, hwithin.le⟩

theorem inv_steps {op : Op} (h : Inv s₀ tr s) (hs : step s op = some (s', es)) :
    Steps s₀ tr s op s' es ∧ Within s'.sys.os s'.sys.file := by
  rcases op with op | position | _ | _
  · simp only [step, ite_none_right_eq_some, map_eq_some_iff, Prod.mk.injEq] at hs
    obtain ⟨hallowed, ⟨sys', fes⟩, hs, rfl, rfl⟩ := hs
    refine ⟨?_, within_step h.within hs⟩
    rcases hfuture : s.future with _ | ⟨asked, _ | position⟩
    · have hsteps := steps_call h hfuture hallowed hs
      simp only [ite_self]
      exact hsteps
    · have hsteps := steps_polled h hfuture hallowed hs
      rw [hfuture] at hsteps
      exact hsteps
    · have hsteps := steps_unpolled h hfuture hallowed hs
      rw [hfuture] at hsteps
      exact hsteps
  · simp only [step, ite_none_right_eq_some, Bool.and_eq_true, isNone_iff_eq_none,
      some.injEq, Prod.mk.injEq] at hs
    obtain ⟨⟨hfuture, hcall⟩, rfl, rfl⟩ := hs
    have hholds := h.holds
    rw [hfuture] at hholds
    refine ⟨steps_nil fun hC => ⟨rfl, ⟨hholds.1, notSeeking_of_not ?_⟩, hcall⟩, h.within⟩
    exact (Bool.not_eq_true' _).mp hC
  · exact steps_poll h hs
  · simp only [step, ite_none_right_eq_some, Bool.and_eq_true, isNone_iff_eq_none,
      some.injEq, Prod.mk.injEq] at hs
    obtain ⟨⟨-, hcall⟩, rfl, rfl⟩ := hs
    refine ⟨steps_nil fun hC => ⟨isNone_iff_eq_none.mp hC, ?_⟩, h.within⟩
    simp only [hcall]
    exact nofun

/-- `File::from_std`. -/
def fromStd (os : SeqFile) : Seeker := ⟨System.fromStd os, none⟩

theorem inv_run {os₀ : SeqFile} (h : Run step Careful (fromStd os₀) tr s) :
    Inv (fromStd os₀) tr s := by
  refine h.inv ?_ ?_
  · exact ⟨.nil, within_nil rfl rfl, rfl, nofun⟩
  · intro tr s op s' es hI hC hs
    obtain ⟨hsteps, hwithin⟩ := inv_steps hI hs
    exact ⟨hI.run.snoc hC hs, hwithin, hsteps.holds hC⟩

end OhosFfrt.Fs.SeekFutures
