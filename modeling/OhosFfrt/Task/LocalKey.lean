import OhosFfrt.Lib.Runs

/-!
# `task_local!`: scopes of values

A scope of a task-local key belongs to a future or to a call of `sync_scope`, but what `try_with`
reads is a stack of raw pointers of the thread that it runs on.  A thread is modelled by the calls
that it is in, the innermost first, and by its stack for each key.  A call ends by returning or by
unwinding; its guard is dropped either way, and the stacks fit the calls (`local_scoping`).
-/

namespace OhosFfrt.Task.LocalKey

open Lib.Runs List Option

variable {α : Type*}

/-! ## The code -/

/-- Where a value is. -/
inductive Place
  /-- In a future that is not being polled. -/
  | idle
  /-- In a call of the thread `t`, which has it borrowed. -/
  | entered (t : ℕ)
  | dropped
  deriving DecidableEq, Repr

/-- The value of a scope; its address is its number. -/
structure Cell (α : Type*) where
  key : ℕ
  value : α
  place : Place

/-- A scope, or a closure in it. -/
inductive Frame
  /-- `TaskLocalFuture::poll`, or `sync_scope`, with the value at `address`. -/
  | scope (key address : ℕ) (sync : Bool)
  /-- The closure of `try_with`: the stack of the key is borrowed. -/
  | closure (key : ℕ)
  deriving DecidableEq, Repr

/-- The address of the value that the call has installed for the key. -/
def Frame.pointer (k : ℕ) : Frame → Option ℕ
  | .scope key address _ => if key = k then some address else none
  | .closure _ => none

/-- The address of its value. -/
def Frame.address : Frame → Option ℕ
  | .scope _ address _ => some address
  | .closure _ => none

/-- A thread: its calls, the innermost first, and `LocalKeyInner::stack` of every key, the last
pointer first. -/
structure Thread where
  frames : List Frame
  stack : ℕ → List ℕ

/-- The values and the threads. -/
structure Sys (α : Type*) where
  cells : List (Cell α)
  threads : ℕ → Thread

inductive Op (α : Type*)
  /-- `LocalKey::scope`. -/
  | scope (k : ℕ) (value : α)
  /-- The code of the thread polls the future at the address. -/
  | poll (t address : ℕ)
  | syncScope (t k : ℕ) (value : α)
  | tryWith (t k : ℕ)
  /-- The innermost call of the thread returns, or a panic unwinds it. -/
  | leave (t : ℕ)
  | drop (address : ℕ)

inductive Ev (α : Type*)
  | observed (t k : ℕ) (value : α)
  /-- `AccessError`. -/
  | failed (t k : ℕ)
  /-- A pointer to a value that is gone was read. -/
  | stale (t k : ℕ)
  /-- "task-local scope stack corrupted". -/
  | corrupted (t k : ℕ)
  /-- The stack is borrowed: `enter` panics. -/
  | refused (t k : ℕ)

/-- A stale read, or a corrupt stack. -/
def Ev.Bad : Ev α → Prop
  | .stale _ _ | .corrupted _ _ => True
  | _ => False

def new : Sys α := ⟨[], fun _ => ⟨[], fun _ => []⟩⟩

/-- One more frame. -/
def Thread.push (th : Thread) (f : Frame) : Thread := { th with frames := f :: th.frames }

/-- `LocalKey::enter`, and the call that it is made in. -/
def Thread.enter (th : Thread) (k address : ℕ) (sync : Bool) : Thread :=
  ⟨.scope k address sync :: th.frames, Function.update th.stack k (address :: th.stack k)⟩

/-- What `LocalKey::try_with` gives to its closure. -/
def tryWith (s : Sys α) (t k : ℕ) : Ev α :=
  match (s.threads t).stack k with
  | [] => .failed t k
  | address :: _ =>
    match s.cells[address]? with
    | some ⟨_, value, .idle⟩ | some ⟨_, value, .entered _⟩ => .observed t k value
    | _ => .stale t k

def step (s : Sys α) : Op α → Option (Sys α × List (Ev α))
  | .scope k value => some ({ s with cells := s.cells ++ [⟨k, value, .idle⟩] }, [])
  | .poll t address =>
    match s.cells[address]? with
    | some ⟨k, value, .idle⟩ =>
      if .closure k ∈ (s.threads t).frames then some (s, [.refused t k])
      else some (⟨s.cells.set address ⟨k, value, .entered t⟩,
        Function.update s.threads t ((s.threads t).enter k address false)⟩, [])
    | _ => none
  | .syncScope t k value =>
    if .closure k ∈ (s.threads t).frames then some (s, [.refused t k])
    else some (⟨s.cells ++ [⟨k, value, .entered t⟩],
      Function.update s.threads t ((s.threads t).enter k s.cells.length true)⟩, [])
  | .tryWith t k =>
    match (s.threads t).stack k with
    | [] => some (s, [tryWith s t k])
    | _ :: _ => some ({ s with
        threads := Function.update s.threads t ((s.threads t).push (.closure k)) },
        [tryWith s t k])
  | .leave t =>
    match (s.threads t).frames with
    | [] => none
    | .closure _ :: frames =>
      some ({ s with
        threads := Function.update s.threads t { s.threads t with frames := frames } }, [])
    | .scope k address sync :: frames =>
      match (s.threads t).stack k with
      | [] => some (s, [.corrupted t k])
      | _ :: stack => some (⟨s.cells.modify address fun c =>
          { c with place := if sync then .dropped else .idle },
        Function.update s.threads t ⟨frames, Function.update (s.threads t).stack k stack⟩⟩, [])
  | .drop address =>
    match s.cells[address]? with
    | some ⟨k, value, .idle⟩ =>
      some ({ s with cells := s.cells.set address ⟨k, value, .dropped⟩ }, [])
    | _ => none

/-! ## The stacks are the scopes around the running code -/

variable {s s' : Sys α} {op : Op α} {es tr : List (Ev α)} {cs : List (Cell α)} {t k i : ℕ}
  {th : Thread} {f : Frame}

/-- The thread is in the scope of the value. -/
def Held (cs : List (Cell α)) (t k i : ℕ) : Prop :=
  ∃ value, cs[i]? = some ⟨k, value, .entered t⟩

theorem Held.unique {t' k' : ℕ} (h : Held cs t k i) (h' : Held cs t' k' i) : t' = t := by
  obtain ⟨_, hi⟩ := h
  obtain ⟨_, hi'⟩ := h'
  cases hi.symm.trans hi'
  rfl

theorem Held.set {c c' : Cell α} {j : ℕ} (h : Held cs t k i) (hj : cs[j]? = some c)
    (hidle : c.place = .idle) : Held (cs.set j c') t k i := by
  obtain ⟨value, hi⟩ := h
  refine ⟨value, ?_⟩
  rw [getElem?_set_ne, hi]
  rintro rfl
  cases hi.symm.trans hj
  cases hidle

/-- What holds in every run. -/
structure Inv (s : Sys α) : Prop where
  stack : ∀ t k, (s.threads t).stack k = (s.threads t).frames.filterMap (Frame.pointer k)
  held : ∀ t k i sync, .scope k i sync ∈ (s.threads t).frames → Held s.cells t k i
  nodup : ∀ t, ((s.threads t).frames.filterMap Frame.address).Nodup

theorem Inv.mem_address (h : Inv s) (hmem : i ∈ (s.threads t).frames.filterMap Frame.address) :
    ∃ k, Held s.cells t k i := by
  obtain ⟨f, hf, hid⟩ := mem_filterMap.mp hmem
  cases f with
  | scope k _ sync =>
    cases hid
    exact ⟨k, h.held t k i sync hf⟩
  | closure => cases hid

theorem Inv.update (h : Inv s) (hstack : ∀ k, th.stack k = th.frames.filterMap (Frame.pointer k))
    (hheld : ∀ k i sync, .scope k i sync ∈ th.frames → Held cs t k i)
    (hnodup : (th.frames.filterMap Frame.address).Nodup)
    (hothers : ∀ t' ≠ t, ∀ k i, Held s.cells t' k i → Held cs t' k i) :
    Inv ⟨cs, Function.update s.threads t th⟩ := by
  refine ⟨fun t' => ?_, fun t' => ?_, fun t' => ?_⟩ <;> rcases eq_or_ne t' t with rfl | hne
  · simpa using hstack
  · simpa [hne] using h.stack t'
  · simpa using hheld
  · simpa [hne] using fun k i sync hmem => hothers t' hne k i (h.held t' k i sync hmem)
  · simpa using hnodup
  · simpa [hne] using h.nodup t'

theorem Inv.enter (h : Inv s) {sync : Bool} (hheld : Held cs t k i)
    (hfree : ∀ t' k', ¬ Held s.cells t' k' i)
    (hcs : ∀ t' k' i', Held s.cells t' k' i' → Held cs t' k' i') :
    Inv ⟨cs, Function.update s.threads t ((s.threads t).enter k i sync)⟩ := by
  refine h.update (fun k' => ?_) (fun k' i' sync' hmem => ?_) ?_ fun t' _ => hcs t'
  · rcases eq_or_ne k k' with rfl | hne
    · simp [Thread.enter, Frame.pointer, h.stack]
    · simp [Thread.enter, Frame.pointer, h.stack, hne, hne.symm]
  · rcases mem_cons.mp hmem with heq | hmem
    · cases heq
      exact hheld
    · exact hcs _ _ _ (h.held t k' i' sync' hmem)
  · refine nodup_cons.mpr ⟨fun hmem => ?_, h.nodup t⟩
    obtain ⟨k', hk'⟩ := h.mem_address hmem
    exact hfree t k' hk'

theorem Inv.leave (h : Inv s) {sync : Bool} {frames : List Frame} (place : Place)
    (hframes : (s.threads t).frames = .scope k i sync :: frames) :
    ∃ rest, (s.threads t).stack k = i :: rest ∧
      Inv ⟨s.cells.modify i fun c => { c with place := place },
        Function.update s.threads t ⟨frames, Function.update (s.threads t).stack k rest⟩⟩ := by
  have hstack := h.stack t
  have hheld := h.held t
  have hnodup := h.nodup t
  rw [hframes] at hstack hheld hnodup
  have hi : Held s.cells t k i := hheld k i sync mem_cons_self
  obtain ⟨hnot, hnodup⟩ := nodup_cons.mp hnodup
  have hkeep : ∀ t' k' i', i' ≠ i → Held s.cells t' k' i' →
      Held (s.cells.modify i fun c => { c with place := place }) t' k' i' := by
    rintro t' k' i' hne ⟨value, hi'⟩
    exact ⟨value, by simp [hi', hne.symm]⟩
  refine ⟨frames.filterMap (Frame.pointer k), by simpa [Frame.pointer] using hstack k,
    h.update (fun k' => ?_) (fun k' i' sync' hmem => ?_) hnodup fun t' hne k' i' hi' => ?_⟩
  · rcases eq_or_ne k k' with rfl | hne
    · simp
    · simpa [Frame.pointer, hne, hne.symm] using hstack k'
  · refine hkeep t k' i' ?_ (hheld k' i' sync' (mem_cons_of_mem _ hmem))
    rintro rfl
    exact hnot (mem_filterMap.mpr ⟨_, hmem, rfl⟩)
  · refine hkeep t' k' i' ?_ hi'
    rintro rfl
    exact hne (hi.unique hi')

/-- **What `try_with` sees**: the value of the innermost scope, which is still there. -/
theorem Inv.tryWith (h : Inv s) (t k : ℕ) :
    match (s.threads t).frames.findSome? (Frame.pointer k) with
    | none => tryWith s t k = .failed t k
    | some i => ∃ value, s.cells[i]? = some ⟨k, value, .entered t⟩ ∧
        LocalKey.tryWith s t k = .observed t k value := by
  have hhead : ((s.threads t).stack k).head? =
      (s.threads t).frames.findSome? (Frame.pointer k) := by
    rw [h.stack, head?_filterMap]
  rw [← hhead]
  unfold LocalKey.tryWith
  rcases hstack : (s.threads t).stack k with _ | ⟨i, rest⟩
  · rfl
  · have hmem : i ∈ (s.threads t).frames.filterMap (Frame.pointer k) := by
      rw [← h.stack, hstack]
      exact mem_cons_self
    obtain ⟨f, hf, hpointer⟩ := mem_filterMap.mp hmem
    cases f with
    | scope k' i' sync =>
      obtain ⟨rfl, ⟨⟩⟩ := ite_none_right_eq_some.mp hpointer
      obtain ⟨value, hi⟩ := h.held t k' i sync hf
      exact ⟨value, hi, by simp only [hi]⟩
    | closure => cases hpointer

theorem Inv.push (h : Inv s) : Inv { s with
    threads := Function.update s.threads t ((s.threads t).push (.closure k)) } :=
  h.update (h.stack t)
    (fun k' i sync hmem => h.held t k' i sync (by simpa [Thread.push] using hmem))
    (h.nodup t) fun _ _ _ _ hi => hi

theorem inv_step (h : Inv s) (hs : step s op = some (s', es)) : Inv s' ∧ ∀ e ∈ es, ¬ e.Bad := by
  cases op with
  | scope k value =>
    cases hs
    refine ⟨⟨h.stack, fun t k i sync hmem => ?_, h.nodup⟩, nofun⟩
    obtain ⟨value, hi⟩ := h.held t k i sync hmem
    exact ⟨value, List.getElem?_append_left (List.getElem?_eq_some_iff.mp hi).1 ▸ hi⟩
  | poll =>
    simp only [step] at hs
    split at hs
    · next k value hidle =>
      split_ifs at hs <;> cases hs
      · exact ⟨h, by simp [Ev.Bad]⟩
      · refine ⟨h.enter ⟨value, ?_⟩ ?_ fun t' k' i' hi' => hi'.set hidle rfl, nofun⟩
        · exact List.getElem?_set_self (List.getElem?_eq_some_iff.mp hidle).1
        · rintro t' k' ⟨_, hheld⟩
          cases hheld.symm.trans hidle
    · cases hs
  | syncScope t k value =>
    simp only [step] at hs
    split_ifs at hs <;> cases hs
    · exact ⟨h, by simp [Ev.Bad]⟩
    · refine ⟨h.enter ⟨value, by simp⟩ ?_ ?_, nofun⟩
      · rintro t' k' ⟨_, hheld⟩
        simp at hheld
      · rintro t' k' i' ⟨value, hi⟩
        exact ⟨value, List.getElem?_append_left (List.getElem?_eq_some_iff.mp hi).1 ▸ hi⟩
  | tryWith t k =>
    have hgood : ¬ (tryWith s t k).Bad := by
      have hsees := h.tryWith t k
      split at hsees
      · rw [hsees]
        exact id
      · obtain ⟨_, -, hsees⟩ := hsees
        rw [hsees]
        exact id
    simp only [step] at hs
    split at hs <;> cases hs
    · exact ⟨h, by simpa using hgood⟩
    · exact ⟨h.push, by simpa using hgood⟩
  | leave t =>
    simp only [step] at hs
    split at hs
    · cases hs
    · next k frames hframes =>
      cases hs
      have hstack := h.stack t
      have hheld := h.held t
      have hnodup := h.nodup t
      rw [hframes] at hstack hheld hnodup
      refine ⟨h.update hstack ?_ hnodup fun _ _ _ _ hi => hi, nofun⟩
      exact fun k' i sync hmem => hheld k' i sync (mem_cons_of_mem _ hmem)
    · next k i sync frames hframes =>
      obtain ⟨rest, hstack, hinv⟩ := h.leave (if sync then .dropped else .idle) hframes
      rw [hstack] at hs
      cases hs
      exact ⟨hinv, nofun⟩
  | drop =>
    simp only [step] at hs
    split at hs
    · next k value hidle =>
      cases hs
      exact ⟨⟨h.stack, fun t k' i' sync hmem => (h.held t k' i' sync hmem).set hidle rfl, h.nodup⟩,
        nofun⟩
    · cases hs

/-- **Scoping of task-local values.**  Whatever futures are created, polled on whatever threads and
dropped, and however calls end:

* no stale pointer is read and no guard finds the stack empty;
* the stack of a thread for a key holds the values of the scopes of that key around the code that
  the thread is running, and `try_with` sees the innermost of them, or fails if there is none;
* a call that ends leaves the calls around it, and when the thread is in the same calls again the
  stack of every key is what it was. -/
theorem local_scoping (h : Run step Any (new : Sys α) tr s) (t k : ℕ) :
    (∀ e ∈ tr, ¬ e.Bad) ∧
    (s.threads t).stack k = (s.threads t).frames.filterMap (Frame.pointer k) ∧
    (match (s.threads t).frames.findSome? (Frame.pointer k) with
      | none => tryWith s t k = .failed t k
      | some i => ∃ value, s.cells[i]? = some ⟨k, value, .entered t⟩ ∧
          tryWith s t k = .observed t k value) ∧
    (∀ s' es, step s (.leave t) = some (s', es) →
      ∃ f, (s.threads t).frames = f :: (s'.threads t).frames) ∧
    ∀ tr' s', Run step Any s tr' s' → (s'.threads t).frames = (s.threads t).frames →
      (s'.threads t).stack = (s.threads t).stack := by
  have hnew : Inv (new : Sys α) := ⟨fun _ _ => rfl, nofun, fun _ => nodup_nil⟩
  have hrun : ∀ {s₀ s : Sys α} {tr}, Inv s₀ → Run step Any s₀ tr s → Inv s ∧ ∀ e ∈ tr, ¬ e.Bad := by
    intro s₀ s tr h₀ h
    refine h.inv (I := fun tr s => Inv s ∧ ∀ e ∈ tr, ¬ e.Bad) ⟨h₀, nofun⟩ ?_
    rintro tr s op s' es ⟨hi, hgood⟩ - hs
    obtain ⟨hi', hgood'⟩ := inv_step hi hs
    exact ⟨hi', fun e he => (mem_append.mp he).elim (hgood e) (hgood' e)⟩
  obtain ⟨hinv, hgood⟩ := hrun hnew h
  refine ⟨hgood, hinv.stack t k, hinv.tryWith t k, fun s' es hs => ?_, fun tr' s' h' heq => ?_⟩
  · simp only [step] at hs
    split at hs
    · cases hs
    · next hframes =>
      cases hs
      exact ⟨_, by simpa using hframes⟩
    · next k' i sync frames hframes =>
      obtain ⟨rest, hstack, -⟩ := hinv.leave .idle hframes
      rw [hstack] at hs
      cases hs
      exact ⟨_, by simpa using hframes⟩
  · funext k'
    rw [(hrun hinv h').1.stack, hinv.stack, heq]

/-- Two nested scopes of one future: polled on the thread 0, and on the thread 1 after a panic. -/
theorem local_scoping_moved : ∃ s, Run step Any (new : Sys ℕ) [.observed 0 0 9] s ∧
    (s.threads 0).stack 0 = [] ∧ tryWith s 0 0 = .failed 0 0 ∧ tryWith s 1 0 = .observed 1 0 7 := by
  obtain ⟨s, hrun, hnone, hsome, hcell⟩ : ∃ s, Run step Any (new : Sys ℕ) [.observed 0 0 9] s ∧
      (s.threads 0).frames = [] ∧ (s.threads 1).frames = [.scope 0 0 false] ∧
      s.cells[0]? = some ⟨0, 7, .entered 1⟩ :=
    ⟨_, run_exec [.scope 0 7, .scope 0 9, .poll 0 0, .poll 0 1, .tryWith 0 0, .leave 0, .leave 0,
      .leave 0, .poll 1 0] rfl, rfl, rfl, rfl⟩
  obtain ⟨-, hstack, hfailed, -⟩ := local_scoping hrun 0 0
  obtain ⟨-, -, hseen, -⟩ := local_scoping hrun 1 0
  rw [hnone] at hstack hfailed
  rw [hsome] at hseen
  obtain ⟨value, hcell', hseen⟩ := hseen
  cases hcell.symm.trans hcell'
  exact ⟨s, hrun, hstack, hfailed, hseen⟩

end OhosFfrt.Task.LocalKey
