import OhosFfrt.Lib.Runs

/-!
# `task::LocalSet`: sets, polls and wakes

The queue of a `LocalSet` is only touched by the thread the set lives on; `home k` is the thread of
set `k`.  A thread has a stack of polls: the poll of a main future or of a task may poll another
set, or the same one, with any waker.

`TaskWaker::wake` is a `Call` that any thread may make: it stores `notified`, locks `run_waker`,
takes the waker out of it and wakes it *inside the lock*; if that is again a `TaskWaker` the call
goes on in the set of that one, with the lock held.  `spawn_local` and the wake that `poll_tasks`
gives itself are such calls too, and the thread that makes them waits for them.

What a task computes is not modelled here.  A poll of a task that panics is a poll that finishes:
`LocalJoin` catches the panic.
-/

namespace OhosFfrt.Local.System

/-- A waker: one that leads to no set, or the `TaskWaker` of a task of a set. -/
inductive Waker
  | root (n : ℕ)
  | task (set t : ℕ)
  deriving DecidableEq, Repr

/-- `LocalSet`, with its `LocalState`; `lock` is the wake that is inside the mutex of
`run_waker`. -/
structure LocalSet where
  tasks : List ℕ
  runWaker : Option Waker
  notified : Bool
  lock : Option ℕ
  deriving DecidableEq, Repr

/-- `LocalSet::new`. -/
def LocalSet.new : LocalSet := ⟨[], none, false, none⟩

/-- What polls the set. -/
inductive Kind
  | localSet
  | runUntil
  deriving DecidableEq, Repr

/-- Where a poll is. -/
inductive Phase
  /-- Before it stores its waker in `run_waker`. -/
  | enter
  /-- In the poll of the main future. -/
  | main
  /-- At the start of `poll_tasks`. -/
  | take
  /-- At the head of the loop of `poll_tasks`, with the detached queue and the rounds to go. -/
  | tasks (queue : List ℕ) (rounds : ℕ)
  /-- In the poll of a task. -/
  | task (t : ℕ) (queue : List ℕ) (rounds : ℕ)
  /-- Before `notified` is swapped. -/
  | swap
  /-- Before it wakes its own waker. -/
  | selfWake
  /-- At the test whether the queue is empty. -/
  | test
  /-- Before it takes its waker out of `run_waker`, to be ready. -/
  | clear
  deriving DecidableEq, Repr

/-- It runs the code of a future. -/
def Phase.isOpen : Phase → Bool
  | .main | .task .. => true
  | _ => false

/-- After the waker is stored. -/
def Kind.entered : Kind → Phase
  | .localSet => .take
  | .runUntil => .main

/-- A poll of a set. -/
structure Frame where
  call : ℕ
  set : ℕ
  waker : Waker
  kind : Kind
  phase : Phase
  deriving DecidableEq, Repr

/-- Where a call of `notify` is. -/
inductive Pc
  /-- Before it stores `notified`, for a task. -/
  | store (set t : ℕ)
  /-- Before it locks `run_waker` and takes the waker. -/
  | lock (set : ℕ)
  /-- Inside the lock, before it wakes the waker it took. -/
  | wake (w : Waker)
  /-- Before it leaves the innermost lock. -/
  | ret
  deriving DecidableEq, Repr

/-- A wake, with the locks it holds, the innermost first. -/
structure Call where
  held : List ℕ
  pc : Pc
  deriving DecidableEq, Repr

/-- The call has returned. -/
def Call.isDone (c : Call) : Bool := c.held.isEmpty && c.pc == .ret

/-- What `wake` of a waker does first. -/
def Waker.entry : Waker → Pc
  | .root _ => .ret
  | .task k t => .store k t

inductive Ev
  | began (call set : ℕ) (w : Waker)
  /-- `poll_tasks` takes the queue. -/
  | took (call set : ℕ) (queue : List ℕ)
  | polled (call set t : ℕ)
  | pended (call set t : ℕ)
  | finished (call set t : ℕ)
  | returned (call set : ℕ) (kind : Kind) (ready : Bool)
  /-- A panic of the main future leaves the poll. -/
  | panicked (call set : ℕ)
  | spawned (set t : ℕ)
  /-- `notified` is stored for a task. -/
  | notified (set t : ℕ)
  | woke (w : Waker)
  deriving DecidableEq, Repr

/-- The sets, the polls on the stack of each thread, the wake a thread waits for, and the wakes. -/
structure Sys where
  sets : ℕ → LocalSet
  threads : ℕ → List Frame
  waiting : ℕ → Option ℕ
  calls : List Call
  polls : ℕ
  next : ℕ

def new : Sys :=
  { sets := fun _ => .new, threads := fun _ => [], waiting := fun _ => none, calls := [], polls := 0
    next := 0 }

inductive Op
  /-- A poll of a set, by a thread that runs the code of a future or no code of a set. -/
  | poll (set : ℕ) (kind : Kind) (w : Waker)
  | advance (thread : ℕ)
  /-- What the main future that a thread polls does. -/
  | mainReady (thread : ℕ)
  | mainPending (thread : ℕ)
  | mainPanics (thread : ℕ)
  | finish (thread : ℕ)
  | pend (thread : ℕ)
  | spawn (set : ℕ)
  | wake (set t : ℕ)
  | call (c : ℕ)
  deriving DecidableEq, Repr

/-- The thread does not wait for a wake. -/
def Sys.canRun (s : Sys) (i : ℕ) : Bool :=
  (s.waiting i).all fun c => (s.calls[c]?).all Call.isDone

/-- The thread runs the code of a future, or no code of a set. -/
def Sys.isOpen (s : Sys) (i : ℕ) : Bool :=
  s.canRun i && (s.threads i).head?.all fun f => f.phase.isOpen

/-- The set `k` changes. -/
def Sys.modify (s : Sys) (k : ℕ) (g : LocalSet → LocalSet) : Sys :=
  { s with sets := Function.update s.sets k (g (s.sets k)) }

/-- The polls of the thread `i` change. -/
def Sys.put (s : Sys) (i : ℕ) (fs : List Frame) : Sys :=
  { s with threads := Function.update s.threads i fs }

/-- The thread makes a wake and waits for it. -/
def Sys.start (s : Sys) (i : ℕ) (pc : Pc) : Sys :=
  { s with calls := s.calls ++ [⟨[], pc⟩], waiting := Function.update s.waiting i s.calls.length }

/-- The call `c` moves on. -/
def Sys.setCall (s : Sys) (c : ℕ) (call : Call) : Sys := { s with calls := s.calls.set c call }

/-- The next step of a poll, outside the polls of futures. -/
def Sys.advance (s : Sys) (i : ℕ) (f : Frame) (rest : List Frame) : Option (Sys × List Ev) :=
  match f.phase with
  | .enter =>
    -- `*run_waker.lock().unwrap() = Some(cx.waker().clone())`
    if (s.sets f.set).lock = none then
      some ((s.modify f.set fun l => { l with runWaker := some f.waker }).put i
        ({ f with phase := f.kind.entered } :: rest), [])
    else none
  | .take =>
    some ((s.modify f.set fun l => { l with tasks := [] }).put i
      ({ f with phase := .tasks (s.sets f.set).tasks (s.sets f.set).tasks.length } :: rest),
      [.took f.call f.set (s.sets f.set).tasks])
  | .tasks (t :: queue) (rounds + 1) =>
    some (s.put i ({ f with phase := .task t queue rounds } :: rest), [.polled f.call f.set t])
  | .tasks queue _ =>
    -- what was spawned meanwhile stays ahead
    some ((s.modify f.set fun l => { l with tasks := l.tasks ++ queue }).put i
      ({ f with phase := .swap } :: rest), [])
  | .swap =>
    some ((s.modify f.set fun l => { l with notified := false }).put i
      ({ f with phase := if (s.sets f.set).notified then .selfWake else .test } :: rest), [])
  | .selfWake =>
    some ((s.put i ({ f with phase := .test } :: rest)).start i f.waker.entry, [.woke f.waker])
  | .test =>
    -- `RunUntil::poll` ignores what `poll_tasks` returns
    if f.kind = .localSet ∧ (s.sets f.set).tasks = [] then
      some (s.put i ({ f with phase := .clear } :: rest), [])
    else some (s.put i rest, [.returned f.call f.set f.kind false])
  | .clear =>
    if (s.sets f.set).lock = none then
      some ((s.modify f.set fun l => { l with runWaker := none }).put i rest,
        [.returned f.call f.set f.kind true])
    else none
  | .main | .task .. => none

/-- The next step of a wake. -/
def Sys.stepCall (s : Sys) (c : ℕ) (call : Call) : Option (Sys × List Ev) :=
  match call.pc with
  | .store k t =>
    some ((s.modify k fun l => { l with notified := true }).setCall c { call with pc := .lock k },
      [.notified k t])
  | .lock k =>
    if (s.sets k).lock = none then
      some ((s.modify k fun l => { l with runWaker := none, lock := some c }).setCall c
        ⟨k :: call.held, (s.sets k).runWaker.elim .ret .wake⟩, [])
    else none
  | .wake w => some (s.setCall c { call with pc := w.entry }, [.woke w])
  | .ret =>
    match call.held with
    | [] => none
    | k :: held => some ((s.modify k fun l => { l with lock := none }).setCall c ⟨held, .ret⟩, [])

/-- One step of a run; `home` says on which thread a set lives. -/
def step (home : ℕ → ℕ) (s : Sys) : Op → Option (Sys × List Ev)
  | .poll k kind w =>
    if s.isOpen (home k) then
      some ({ s.put (home k) (⟨s.polls, k, w, kind, .enter⟩ :: s.threads (home k)) with
        polls := s.polls + 1 }, [.began s.polls k w])
    else none
  | .advance i =>
    match s.threads i with
    | [] => none
    | f :: rest => if s.canRun i then s.advance i f rest else none
  | .mainReady i =>
    match s.threads i with
    | [] => none
    | f :: rest =>
      if s.canRun i ∧ f.phase = .main then some (s.put i ({ f with phase := .clear } :: rest), [])
      else none
  | .mainPending i =>
    match s.threads i with
    | [] => none
    | f :: rest =>
      if s.canRun i ∧ f.phase = .main then some (s.put i ({ f with phase := .take } :: rest), [])
      else none
  | .mainPanics i =>
    match s.threads i with
    | [] => none
    | f :: rest =>
      if s.canRun i ∧ f.phase = .main then some (s.put i rest, [.panicked f.call f.set]) else none
  | .finish i =>
    match s.threads i with
    | [] => none
    | f :: rest =>
      match f.phase with
      | .task t queue rounds =>
        if s.canRun i then
          some (s.put i ({ f with phase := .tasks queue rounds } :: rest),
            [.finished f.call f.set t])
        else none
      | _ => none
  | .pend i =>
    match s.threads i with
    | [] => none
    | f :: rest =>
      match f.phase with
      | .task t queue rounds =>
        if s.canRun i then
          some (s.put i ({ f with phase := .tasks (queue ++ [t]) rounds } :: rest),
            [.pended f.call f.set t])
        else none
      | _ => none
  | .spawn k =>
    if s.isOpen (home k) then
      some ({ (s.modify k fun l =>
          { l with tasks := l.tasks ++ [s.next], notified := true }).start (home k) (.lock k) with
        next := s.next + 1 }, [.spawned k s.next, .notified k s.next])
    else none
  | .wake k t => if t < s.next then some ({ s with calls := s.calls ++ [⟨[], .store k t⟩] }, [])
    else none
  | .call c =>
    match s.calls[c]? with
    | none => none
    | some call => s.stepCall c call

end OhosFfrt.Local.System
