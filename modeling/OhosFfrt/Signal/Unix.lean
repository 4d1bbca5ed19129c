import OhosFfrt.Basic
import OhosFfrt.Lib.Arena
import OhosFfrt.Lib.Traces
import Mathlib.Data.List.TakeWhile

/-!
# Unix signals

The signal handler writes a byte to a pipe; whichever listener is polled next drains the pipe for
all of them.  For every byte the drain increments the generation of that signal, takes the wakers
that are registered for it, and wakes them.  A listener compares the generation with the number that
it has seen, registers and compares again.  So it counts every occurrence (`listeners_count`).
-/

namespace OhosFfrt.Signal.Unix

open Basic Lib.Arena Lib.Runs List Option

/-! ## The code -/

def maxSignals : ℕ := 64

/-- Where a listener is. -/
inductive Pc
  /-- Not being polled; the last poll, if any, returned `Ready`. -/
  | idle
  /-- Not being polled; the last poll returned `Pending`. -/
  | waiting
  /-- `drain`, before the read. -/
  | read
  /-- The read returned `WouldBlock`. -/
  | wouldBlock
  /-- The bytes of the read that are left. -/
  | handle (bytes : List ℕ)
  /-- The generation is incremented, the waiters are not taken yet. -/
  | take (signal : ℕ) (bytes : List ℕ)
  /-- These wakers are still to be woken. -/
  | wake (wakers : List Waker) (bytes : List ℕ)
  /-- `drain` has returned. -/
  | load
  | register
  | reload
  deriving DecidableEq, Repr

/-- `Signal`, and the waker that it was last polled with. -/
structure Listener where
  signal : ℕ
  seen : ℕ
  waker : Waker
  pc : Pc
  deriving DecidableEq, Repr

/-- `SignalDriver`, its pipe and its listeners. -/
structure Sys where
  pipe : List ℕ
  installed : ℕ → Bool
  generation : ℕ → ℕ
  waiters : ℕ → List Waker
  listeners : List Listener

inductive Op
  /-- The handler runs; a byte that does not fit into the pipe is lost. -/
  | deliver (signal : ℕ)
  /-- `signal`, with the answer of the system to the installation of the handler. -/
  | signal (kind : ℤ) (accepted : Bool)
  | poll (l : ℕ) (w : Waker)
  /-- The read returns that many bytes, none if it would block. -/
  | read (l amount : ℕ)
  /-- What `poll_read_ready` answers. -/
  | ready (l : ℕ) (ready : Bool)
  | go (l : ℕ)
  deriving DecidableEq, Repr

inductive Ev
  | refused (kind : ℤ)
  | created (l signal : ℕ)
  | began (l : ℕ) (w : Waker)
  /-- An occurrence is counted. -/
  | drained (signal : ℕ)
  | woke (w : Waker)
  /-- The poll returned `Ready(Some(()))`. -/
  | received (l : ℕ)
  | pending (l : ℕ)
  deriving DecidableEq, Repr

def new : Sys := ⟨[], fun _ => false, fun _ => 0, fun _ => [], []⟩

/-- The listener `l` changes. -/
def put (s : Sys) (l : ℕ) (L : Listener) : Sys := { s with listeners := s.listeners.set l L }

/-- `signal` and `SignalDriver::install`. -/
def signal (s : Sys) (kind : ℤ) (accepted : Bool) : Sys × List Ev :=
  let i := kind.toNat
  if kind ≤ 0 ∨ maxSignals ≤ i ∨ kind = 9 ∨ kind = 19 ∨
      (s.installed i = false ∧ accepted = false) then
    (s, [.refused kind])
  else
    ({ s with
      installed := Function.update s.installed i true
      listeners := s.listeners ++ [⟨i, s.generation i, 0, .idle⟩] },
      [.created s.listeners.length i])

/-- `SignalDriver::register`; `will_wake` compares the wakers. -/
def register (waiters : List Waker) (w : Waker) : List Waker :=
  if w ∈ waiters then waiters else waiters ++ [w]

/-- The generation is loaded and compared with `seen`: `otherwise` if they are the same. -/
def compare (s : Sys) (l : ℕ) (L : Listener) (otherwise : Pc) (es : List Ev) : Sys × List Ev :=
  if s.generation L.signal ≠ L.seen then
    (put s l { L with seen := (L.seen + 1) % 2 ^ 64, pc := .idle }, [.received l])
  else (put s l { L with pc := otherwise }, es)

/-- **The atomic steps of `drain` and `poll_recv`.** -/
def go (s : Sys) (l : ℕ) (L : Listener) : Option (Sys × List Ev) :=
  match L.pc with
  | .handle [] => some (put s l { L with pc := .read }, [])
  | .handle (i :: bytes) =>
    if maxSignals ≤ i then some (put s l { L with pc := .handle bytes }, [])
    else some ({ put s l { L with pc := .take i bytes } with
      generation := Function.update s.generation i ((s.generation i + 1) % 2 ^ 64) }, [.drained i])
  | .take i bytes =>
    some ({ put s l { L with pc := .wake (s.waiters i) bytes } with
      waiters := Function.update s.waiters i [] }, [])
  | .wake [] bytes => some (put s l { L with pc := .handle bytes }, [])
  | .wake (w :: ws) bytes => some (put s l { L with pc := .wake ws bytes }, [.woke w])
  | .load => some (compare s l L .register [])
  | .register =>
    some ({ put s l { L with pc := .reload } with
      waiters := Function.update s.waiters L.signal
        (register (s.waiters L.signal) L.waker) }, [])
  | .reload => some (compare s l L .waiting [.pending l])
  | _ => none

def step (s : Sys) : Op → Option (Sys × List Ev)
  | .deliver i =>
    if s.installed i then some ({ s with pipe := s.pipe ++ [i % 256] }, []) else none
  | .signal kind accepted => some (signal s kind accepted)
  | .poll l w => s.listeners[l]?.bind fun L =>
    if L.pc = .idle ∨ L.pc = .waiting then
      some (put s l { L with waker := w, pc := .read }, [.began l w])
    else none
  | .read l amount => s.listeners[l]?.bind fun L =>
    if L.pc ≠ .read then none
    else if s.pipe = [] then some (put s l { L with pc := .wouldBlock }, [])
    else if 0 < amount ∧ amount ≤ min 128 s.pipe.length then
      some ({ put s l { L with pc := .handle (s.pipe.take amount) } with
        pipe := s.pipe.drop amount }, [])
    else none
  | .ready l ready => s.listeners[l]?.bind fun L =>
    if L.pc = .wouldBlock then some (put s l { L with pc := if ready then .read else .load }, [])
    else none
  | .go l => s.listeners[l]?.bind fun L => go s l L

/-! ## What is counted, and who is going to be woken -/

variable {s s' : Sys} {op : Op} {es es' tr : List Ev} {l i : ℕ} {L L' : Listener} {w : Waker}
  {bytes pipe : List ℕ}

/-- **The occurrences of the signal that were drained since the listener was created.** -/
def drained (l i : ℕ) (tr : List Ev) : ℕ :=
  (tr.dropWhile (· ≠ .created l i)).count (.drained i)

/-- The signal whose waiters it takes. -/
def Pc.taking : Pc → Option ℕ
  | .take i _ => some i
  | _ => none

/-- The wakers it is to wake. -/
def Pc.held : Pc → List Waker
  | .wake ws _ => ws
  | _ => []

/-- **A drain is about to take the waiters of the signal.** -/
def Taking (s : Sys) (i : ℕ) : Prop := ∃ L ∈ s.listeners, L.pc.taking = some i

/-- **A drain is going to wake the waker.** -/
def Held (s : Sys) (w : Waker) : Prop := ∃ L ∈ s.listeners, w ∈ L.pc.held

/-- **The waker was woken since the listener was last polled.** -/
def Woken (l : ℕ) (w : Waker) (tr : List Ev) : Prop :=
  Since (· = .woke w) (fun e => ∃ w, e = .began l w) tr

/-- A registered listener is woken, or is going to be. -/
def Wakes (tr : List Ev) (s : Sys) (l : ℕ) (L : Listener) : Prop :=
  L.waker ∈ s.waiters L.signal ∧
      (L.pc = .reload ∨ s.generation L.signal = L.seen ∨ Taking s L.signal) ∨
    Held s L.waker ∨ Woken l L.waker tr

/-- What holds of the listener `l`. -/
structure Ok (tr : List Ev) (s : Sys) (l : ℕ) (L : Listener) : Prop where
  born : .created l L.signal ∈ tr
  le : L.seen ≤ s.generation L.signal
  seen : L.seen + drained l L.signal tr = s.generation L.signal + tr.count (.received l)
  wakes : L.pc = .reload ∨ L.pc = .waiting → Wakes tr s l L

/-- What holds in every run. -/
structure Inv (tr : List Ev) (s : Sys) : Prop where
  counted : ∀ i, s.generation i = tr.count (.drained i)
  fresh : ∀ l, s.listeners.length ≤ l → .received l ∉ tr ∧ ∀ i, .created l i ∉ tr
  ok : ∀ l L, s.listeners[l]? = some L → Ok tr s l L

/-- Not of another listener, nor a creation. -/
def Ev.By (l : ℕ) : Ev → Prop
  | .received l' | .began l' _ => l' = l
  | .created _ _ => False
  | _ => True

/-- **What the other listeners see of a step.** -/
structure Passes (s s' : Sys) (es : List Ev) : Prop where
  counted : ∀ i, s'.generation i = s.generation i + es.count (.drained i)
  added : ∀ i, s'.generation i = s.generation i ∨ Taking s' i
  waiters : ∀ i, ∀ w ∈ s.waiters i, w ∈ s'.waiters i ∨ Held s' w
  taking : ∀ i, Taking s i → Taking s' i ∨ ∀ w ∈ s.waiters i, Held s' w
  held : ∀ w, Held s w → Held s' w ∨ .woke w ∈ es

theorem drained_append (h : .created l i ∈ tr) :
    drained l i (tr ++ es) = drained l i tr + es.count (.drained i) := by
  unfold drained
  rw [List.dropWhile_append, if_neg, List.count_append]
  rw [List.isEmpty_iff, List.dropWhile_eq_nil_iff]
  exact fun hall => by simpa using hall _ h

theorem drained_created (h : .created l i ∉ tr) : drained l i (tr ++ [.created l i]) = 0 := by
  unfold drained
  rw [dropWhile_append, if_pos]
  · simp
  · rw [List.isEmpty_iff, List.dropWhile_eq_nil_iff]
    intro e he
    have hne : e ≠ .created l i := fun heq => h (heq ▸ he)
    simpa using hne

theorem Wakes.pass (h : Wakes tr s l L) (hp : Passes s s' es) (hes : ∀ w, .began l w ∉ es) :
    Wakes (tr ++ es) s' l L := by
  have hes : ∀ e ∈ es, ¬ ∃ w, e = .began l w := by
    rintro _ he ⟨w, rfl⟩
    exact hes w he
  rcases h with ⟨hmem, hwhy⟩ | hheld | hwoken
  · rcases hp.waiters _ _ hmem with hmem' | hheld
    · rcases hwhy with hpc | hgen | htaking
      · exact .inl ⟨hmem', .inl hpc⟩
      · refine .inl ⟨hmem', .inr ?_⟩
        rcases hp.added L.signal with hsame | htaking
        · exact .inl (hsame.trans hgen)
        · exact .inr htaking
      · rcases hp.taking _ htaking with htaking | hheld
        · exact .inl ⟨hmem', .inr (.inr htaking)⟩
        · exact .inr (.inl (hheld _ hmem))
    · exact .inr (.inl hheld)
  · rcases hp.held _ hheld with hheld | hwoke
    · exact .inr (.inl hheld)
    · exact .inr (.inr (since_of_mem hwoke rfl hes))
  · exact .inr (.inr (hwoken.append hes))

theorem Ok.pass (h : Ok tr s l L) (hp : Passes s s' es) (hes : .received l ∉ es)
    (hbegan : ∀ w, .began l w ∉ es) : Ok (tr ++ es) s' l L := by
  obtain ⟨hborn, hle, hcount, hwakes⟩ := h
  have hgen := hp.counted L.signal
  refine ⟨mem_append_left _ hborn, by omega, ?_, fun hpc => (hwakes hpc).pass hp hbegan⟩
  rw [drained_append hborn, hgen, count_append, count_eq_zero.mpr hes]
  omega

theorem Inv.move (h : Inv tr s) (hl : s.listeners[l]? = some L)
    (hset : s'.listeners = s.listeners.set l L') (hp : Passes s s' es) (hes : ∀ e ∈ es, e.By l)
    (hsignal : L'.signal = L.signal) (hseen : L'.seen = L.seen + es.count (.received l))
    (hle : L'.seen ≤ s'.generation L.signal)
    (hwakes : L'.pc = .reload ∨ L'.pc = .waiting → Wakes (tr ++ es) s' l L') :
    Inv (tr ++ es) s' := by
  refine ⟨fun i => ?_, fun l' hl' => ?_, fun l' M hM => ?_⟩
  · rw [hp.counted, h.counted, count_append]
  · rw [hset, length_set] at hl'
    obtain ⟨hreceived, hcreated⟩ := h.fresh l' hl'
    have hne : l' ≠ l := by
      rintro rfl
      rw [getElem?_eq_none hl'] at hl
      cases hl
    refine ⟨fun he => ?_, fun i he => ?_⟩
    · exact (mem_append.mp he).elim hreceived fun he => hne (hes _ he)
    · exact (mem_append.mp he).elim (hcreated i) (hes _)
  · rw [hset] at hM
    rcases of_set hl hM with ⟨rfl, rfl⟩ | ⟨hne, hM⟩
    · obtain ⟨hborn, -, hcount, -⟩ := h.ok _ _ hl
      rw [← hsignal] at hborn hcount hle
      refine ⟨mem_append_left _ hborn, hle, ?_, hwakes⟩
      rw [drained_append hborn, hp.counted, count_append, hseen]
      omega
    · exact (h.ok _ _ hM).pass hp (fun he => hne (hes _ he)) fun w he => hne (hes _ he)

theorem passes_more (hgen : s'.generation = s.generation) (hwaiters : s'.waiters = s.waiters)
    (hsub : s.listeners ⊆ s'.listeners) (hes : ∀ i, .drained i ∉ es) : Passes s s' es := by
  refine ⟨fun i => ?_, fun i => .inl (congrFun hgen i), fun i w hw => .inl (hwaiters ▸ hw),
    fun i ⟨D, hD, hi⟩ => .inl ⟨D, hsub hD, hi⟩, fun w ⟨D, hD, hw⟩ => .inl ⟨D, hsub hD, hw⟩⟩
  rw [hgen, count_eq_zero.mpr (hes i)]
  rfl

theorem Taking.put (h : Taking s i) (hl : s.listeners[l]? = some L) (L' : Listener) :
    Taking (put s l L') i ∨ L.pc.taking = some i :=
  exists_set h hl L'

theorem Held.put (h : Held s w) (hl : s.listeners[l]? = some L) (L' : Listener) :
    Held (put s l L') w ∨ w ∈ L.pc.held :=
  exists_set h hl L'

/-- The listener is not between an increment and the wake-ups. -/
def Pc.Quiet (pc : Pc) : Prop := pc.taking = none ∧ pc.held = []

theorem passes_quiet {ws : ℕ → List Waker} (hl : s.listeners[l]? = some L)
    (hquiet : L.pc.Quiet) (hwaiters : ∀ i, s.waiters i ⊆ ws i) (hes : ∀ i, .drained i ∉ es) :
    Passes s { put s l L' with waiters := ws, pipe := pipe } es := by
  obtain ⟨htaking, hheld⟩ := hquiet
  refine ⟨fun i => ?_, fun i => .inl rfl, fun i w hw => .inl (hwaiters i hw),
    fun i hi => .inl ?_, fun w hw => .inl ?_⟩
  · rw [count_eq_zero.mpr (hes i)]
    rfl
  · refine (hi.put hl L').resolve_right fun h => ?_
    cases htaking.symm.trans h
  · refine (hw.put hl L').resolve_right fun h => ?_
    rw [hheld] at h
    cases h

theorem passes_count (bytes : List ℕ) (hl : s.listeners[l]? = some L) (hquiet : L.pc.Quiet)
    (hfew : s.generation i + 1 < 2 ^ 64) :
    Passes s { put s l { L with pc := .take i bytes } with
      generation := Function.update s.generation i ((s.generation i + 1) % 2 ^ 64) }
      [.drained i] := by
  have hrest : Passes s (put s l { L with pc := .take i bytes }) [] :=
    passes_quiet hl hquiet (fun _ => List.Subset.refl _) nofun
  refine ⟨fun j => ?_, fun j => ?_, hrest.waiters, hrest.taking, fun w hw => ?_⟩
  · rcases eq_or_ne j i with rfl | hne
    · simpa using Nat.mod_eq_of_lt hfew
    · simp [hne, hne.symm]
  · rcases eq_or_ne j i with rfl | hne
    · exact .inr ⟨_, mem_set_self hl, rfl⟩
    · exact .inl (Function.update_of_ne hne _ _)
  · exact (hrest.held w hw).imp_right nofun

theorem passes_take (hl : s.listeners[l]? = some L) (hpc : L.pc = .take i bytes) :
    Passes s { put s l { L with pc := .wake (s.waiters i) bytes } with
      waiters := Function.update s.waiters i [] } [] := by
  have hself : ∀ w ∈ s.waiters i, Held (put s l { L with pc := .wake (s.waiters i) bytes }) w :=
    fun w hw => ⟨_, mem_set_self hl, hw⟩
  refine ⟨fun _ => rfl, fun _ => .inl rfl, fun j w hw => ?_, fun j hj => ?_,
    fun w hw => .inl ?_⟩
  · rcases eq_or_ne j i with rfl | hne
    · exact .inr (hself w hw)
    · exact .inl (by simpa [hne] using hw)
  · rcases hj.put hl { L with pc := .wake (s.waiters i) bytes } with hj | hj
    · exact .inl hj
    · rw [hpc] at hj
      cases hj
      exact .inr hself
  · refine (hw.put hl _).resolve_right fun h => ?_
    rw [hpc] at h
    cases h

theorem passes_wake {ws : List Waker} (hl : s.listeners[l]? = some L)
    (hpc : L.pc = .wake (w :: ws) bytes) :
    Passes s (put s l { L with pc := .wake ws bytes }) [.woke w] := by
  refine ⟨fun _ => rfl, fun _ => .inl rfl, fun _ _ hw => .inl hw, fun j hj => .inl ?_,
    fun v hv => ?_⟩
  · refine (hj.put hl _).resolve_right fun h => ?_
    rw [hpc] at h
    cases h
  · rcases hv.put hl { L with pc := .wake ws bytes } with hv | hv
    · exact .inl hv
    · rw [hpc] at hv
      rcases mem_cons.mp hv with rfl | hv
      · exact .inr mem_cons_self
      · exact .inl ⟨_, mem_set_self hl, hv⟩

/-! ## Runs -/

theorem Inv.quiet (h : Inv tr s) (hl : s.listeners[l]? = some L) (hquiet : L.pc.Quiet) {pc : Pc}
    (hpc : ¬ (pc = .reload ∨ pc = .waiting)) :
    Inv (tr ++ []) { put s l { L with pc := pc } with pipe := pipe } :=
  h.move hl rfl (passes_quiet hl hquiet (fun _ => List.Subset.refl _) nofun) nofun rfl rfl
    (h.ok l L hl).le fun h => absurd h hpc

theorem Inv.compare (h : Inv tr s) (hl : s.listeners[l]? = some L) (hquiet : L.pc.Quiet)
    (hfew : tr.count (.drained L.signal) < 2 ^ 64) {pc : Pc} (hes : ∀ e ∈ es, e = .pending l)
    (hwakes : s.generation L.signal = L.seen → pc = .reload ∨ pc = .waiting →
      Wakes (tr ++ es) (put s l { L with pc := pc }) l { L with pc := pc })
    (hs : Unix.compare s l L pc es = (s', es')) : Inv (tr ++ es') s' := by
  have hle := (h.ok l L hl).le
  have hbound : s.generation L.signal < 2 ^ 64 := h.counted _ ▸ hfew
  unfold Unix.compare at hs
  split_ifs at hs with hne <;> cases hs
  · have hmod : (L.seen + 1) % 2 ^ 64 = L.seen + 1 := Nat.mod_eq_of_lt (by omega)
    refine h.move hl rfl (passes_quiet hl hquiet (fun _ => List.Subset.refl _) (by simp))
      (by simp [Ev.By]) rfl (by simpa using hmod) ?_ (by simp)
    show (L.seen + 1) % 2 ^ 64 ≤ s.generation L.signal
    omega
  · have hcount : es.count (.received l) = 0 := count_eq_zero.mpr fun he => nomatch hes _ he
    refine h.move hl rfl (passes_quiet hl hquiet (fun _ => List.Subset.refl _)
      fun i he => nomatch hes _ he) (fun e he => hes e he ▸ trivial) rfl ?_ hle
      (hwakes (not_ne_iff.mp hne))
    rw [hcount]
    rfl

theorem subset_register (ws : List Waker) (w : Waker) : w :: ws ⊆ register ws w := by
  unfold register
  split_ifs with hmem
  · exact cons_subset.mpr ⟨hmem, List.Subset.refl _⟩
  · simp

theorem inv_go (h : Inv tr s) (hfew : ∀ i, (tr ++ es).count (.drained i) < 2 ^ 64)
    (hl : s.listeners[l]? = some L) (hs : go s l L = some (s', es)) : Inv (tr ++ es) s' := by
  simp only [count_append] at hfew
  obtain ⟨i, seen, w, pc⟩ := L
  have hle := (h.ok l _ hl).le
  have htr : tr.count (.drained i) < 2 ^ 64 := Nat.lt_of_le_of_lt (Nat.le_add_right _ _) (hfew i)
  cases pc with
  | idle | waiting | read | wouldBlock => cases hs
  | handle bytes =>
    rcases bytes with _ | ⟨j, bytes⟩
    · cases hs
      exact h.quiet hl ⟨rfl, rfl⟩ (by simp)
    · simp only [go] at hs
      split_ifs at hs <;> cases hs
      · exact h.quiet hl ⟨rfl, rfl⟩ (by simp)
      · have hj := hfew j
        rw [← h.counted, count_singleton_self] at hj
        have hp := passes_count bytes hl ⟨rfl, rfl⟩ hj
        have hgrows := Nat.le.intro (hp.counted i).symm
        exact h.move hl rfl hp (by simp [Ev.By]) rfl rfl (Nat.le_trans hle hgrows) (by simp)
  | take =>
    cases hs
    exact h.move hl rfl (passes_take hl rfl) nofun rfl rfl hle (by simp)
  | wake ws =>
    rcases ws with _ | ⟨v, ws⟩ <;> cases hs
    · exact h.quiet hl ⟨rfl, rfl⟩ (by simp)
    · exact h.move hl rfl (passes_wake hl rfl) (by simp [Ev.By]) rfl rfl hle (by simp)
  | load => refine h.compare hl ⟨rfl, rfl⟩ htr ?_ ?_ (some.inj hs) <;> simp
  | register =>
    cases hs
    have hsub := subset_register (s.waiters i) w
    refine h.move hl rfl (passes_quiet hl ⟨rfl, rfl⟩ (fun j v hv => ?_) nofun) nofun rfl rfl hle
      fun _ => .inl ⟨by simpa using hsub mem_cons_self, .inl rfl⟩
    rcases eq_or_ne j i with rfl | hne
    · simpa using hsub (mem_cons_of_mem _ hv)
    · simpa [hne] using hv
  | reload =>
    refine h.compare hl ⟨rfl, rfl⟩ htr (by simp) (fun hgen _ => ?_) (some.inj hs)
    have hp : Passes s (put s l ⟨i, seen, w, .waiting⟩) [.pending l] :=
      passes_quiet hl ⟨rfl, rfl⟩ (fun _ => List.Subset.refl _) (by simp)
    rcases ((h.ok _ _ hl).wakes (.inl rfl)).pass hp (by simp) with ⟨hmem, -⟩ | hwoken
    · exact .inl ⟨hmem, .inr (.inl hgen)⟩
    · exact .inr hwoken

theorem inv_step (h : Inv tr s) (hfew : ∀ i, (tr ++ es).count (.drained i) < 2 ^ 64)
    (hs : step s op = some (s', es)) : Inv (tr ++ es) s' := by
  cases op with
  | deliver i =>
    obtain ⟨-, ⟨⟩⟩ := ite_none_right_eq_some.mp hs
    have hp : Passes s { s with pipe := s.pipe ++ [i % 256] } [] :=
      passes_more rfl rfl (List.Subset.refl _) nofun
    refine ⟨?_, ?_, fun l L hl => (h.ok l L hl).pass hp nofun nofun⟩ <;> rw [append_nil]
    · exact h.counted
    · exact h.fresh
  | signal kind =>
    simp only [step, signal, some.injEq] at hs
    split_ifs at hs <;> cases hs
    · have hp : Passes s s [.refused kind] :=
        passes_more rfl rfl (List.Subset.refl _) (by simp)
      exact ⟨by simpa using h.counted, by simpa using h.fresh,
        fun l L hl => (h.ok l L hl).pass hp (by simp) (by simp)⟩
    · refine ⟨by simpa using h.counted, fun l hl => ?_, fun l L hl => ?_⟩
      · rw [length_append, length_singleton] at hl
        have hne : s.listeners.length ≠ l := by omega
        simpa [hne.symm] using h.fresh l (by omega)
      · rcases of_snoc hl with hl | ⟨rfl, rfl⟩
        · exact (h.ok l L hl).pass (passes_more rfl rfl (subset_append_left _ _) (by simp))
            (by simp) (by simp)
        · obtain ⟨hreceived, hcreated⟩ := h.fresh _ (Nat.le_refl s.listeners.length)
          refine ⟨by simp, Nat.le_refl _, ?_, by simp⟩
          rw [drained_created (hcreated _), count_eq_zero.mpr (by simpa using hreceived)]
  | poll l =>
    obtain ⟨L, hl, hs⟩ := bind_eq_some_iff.mp hs
    obtain ⟨hpc, ⟨⟩⟩ := ite_none_right_eq_some.mp hs
    have hquiet : L.pc.Quiet := by
      rcases hpc with hpc | hpc <;> rw [hpc] <;> exact ⟨rfl, rfl⟩
    exact h.move hl rfl (passes_quiet hl hquiet (fun _ => List.Subset.refl _) (by simp))
      (by simp [Ev.By]) rfl rfl (h.ok l L hl).le (by simp)
  | read =>
    obtain ⟨L, hl, hs⟩ := bind_eq_some_iff.mp hs
    split_ifs at hs with hpc <;> cases hs <;>
      exact h.quiet hl (by rw [not_ne_iff.mp hpc]; exact ⟨rfl, rfl⟩) (by simp)
  | ready l ready =>
    obtain ⟨L, hl, hs⟩ := bind_eq_some_iff.mp hs
    obtain ⟨hpc, ⟨⟩⟩ := ite_none_right_eq_some.mp hs
    exact h.quiet hl (by rw [hpc]; exact ⟨rfl, rfl⟩) (by cases ready <;> simp)
  | go =>
    obtain ⟨L, hl, hs⟩ := bind_eq_some_iff.mp hs
    exact inv_go h hfew hl hs

theorem go_returns (hs : go s l L = some (s', es)) :
    (.pending l ∈ es → s.generation L.signal = L.seen) ∧
      (.received l ∈ es → s.generation L.signal ≠ L.seen) := by
  unfold go compare at hs
  split at hs <;> (try split_ifs at hs) <;> cases hs <;> simp_all

/-- **Listeners count every occurrence.**  For fewer than `2 ^ 64` occurrences of each signal, and
any listeners polled in any order, the following holds of a listener:

* it has returned no more results than occurrences of its signal were drained, by whatever poll,
  since it was created;
* a poll returns `Pending` only if the two numbers are the same, and `Ready` only if they differ; a
  poll that has drained while they differ does return `Ready`;
* if its last poll returned `Pending` and they differ, its waker was woken since that poll began, or
  a drain is going to wake it: it holds the waker, or is about to take it from the waiters. -/
theorem listeners_count (h : Run step Any new tr s)
    (hfew : ∀ i, tr.count (.drained i) < 2 ^ 64) (hl : s.listeners[l]? = some L) :
    tr.count (.received l) ≤ drained l L.signal tr ∧
    (∀ s' es, step s (.go l) = some (s', es) →
      (.pending l ∈ es → tr.count (.received l) = drained l L.signal tr) ∧
      (.received l ∈ es → tr.count (.received l) < drained l L.signal tr)) ∧
    (L.pc = .load → tr.count (.received l) ≠ drained l L.signal tr →
      ∃ s', step s (.go l) = some (s', [.received l])) ∧
    (L.pc = .waiting → tr.count (.received l) ≠ drained l L.signal tr →
      Woken l L.waker tr ∨ Held s L.waker ∨
        Taking s L.signal ∧ L.waker ∈ s.waiters L.signal) := by
  have hinv : Inv tr s := by
    refine h.inv (I := fun tr s => (∀ i, tr.count (.drained i) < 2 ^ 64) → Inv tr s) ?_ ?_ hfew
    · exact fun _ => ⟨fun _ => rfl, fun _ _ => ⟨nofun, nofun⟩, nofun⟩
    · intro tr s op s' es hI _ hs hfew
      refine inv_step (hI fun i => Nat.lt_of_le_of_lt ?_ (hfew i)) hfew hs
      exact (sublist_append_left tr es).count_le _
  obtain ⟨-, hle, hseen, hwakes⟩ := hinv.ok l L hl
  have hgo : step s (.go l) = go s l L := by
    simp only [step, hl, bind_some]
  refine ⟨by omega, fun s' es hs => ?_, fun hpc hne => ?_, fun hpc hne => ?_⟩
  · obtain ⟨hpending, hreceived⟩ := go_returns (hgo ▸ hs)
    refine ⟨fun he => ?_, fun he => ?_⟩
    · have := hpending he
      omega
    · have := hreceived he
      omega
  · rw [hgo, go, hpc]
    simp only [compare]
    rw [if_pos (by omega)]
    exact ⟨_, rfl⟩
  · rcases hwakes (.inr hpc) with ⟨hmem, hwhy⟩ | hheld | hwoken
    · rcases hwhy with hreload | hgen | htaking
      · cases hpc.symm.trans hreload
      · omega
      · exact .inr (.inr ⟨htaking, hmem⟩)
    · exact .inr (.inl hheld)
    · exact .inl hwoken

/-- An occurrence is drained by the poll of another listener, which holds the waker of the first. -/
theorem listeners_count_other : ∃ s tr L, Run step Any new tr s ∧ s.listeners[0]? = some L ∧
    L.pc = .waiting ∧ tr.count (.received 0) = 0 ∧ drained 0 2 tr = 1 ∧
    (Woken 0 7 tr ∨ Held s 7 ∨ Taking s 2 ∧ 7 ∈ s.waiters 2) := by
  have hrun : Run step Any new _ _ := run_exec [.signal 2 true, .signal 2 true, .poll 0 7,
    .read 0 0, .ready 0 false, .go 0, .go 0, .go 0, .deliver 2, .poll 1 8, .read 1 1, .go 1] rfl
  have hfew : ∀ i, [Ev.created 0 2, .created 1 2, .began 0 7, .pending 0, .began 1 8,
      .drained 2].count (.drained i) < 2 ^ 64 :=
    fun i => Nat.lt_of_le_of_lt count_le_length (by decide)
  obtain ⟨-, -, -, hwakes⟩ := listeners_count hrun hfew (l := 0) rfl
  exact ⟨_, _, _, hrun, rfl, rfl, rfl, rfl, hwakes rfl (by decide)⟩

end OhosFfrt.Signal.Unix
