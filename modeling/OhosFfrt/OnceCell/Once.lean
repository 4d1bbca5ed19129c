import OhosFfrt.Lib.Traces
import OhosFfrt.OnceCell.Moves

/-!
# `sync::OnceCell` is initialized once, and nobody is stuck

A value is written only by the active initialiser, or by `set` under the lock while nobody
initialises (`stored_run`).  A waker is registered only while there is an active initialiser.
-/

namespace OhosFfrt.OnceCell.Once

open Basic Lib.Calls Lib.Runs List Option
open OnceCell.System OnceCell.Moves

variable {T E : Type*} {s s' : Sys T E} {op : Op T E} {es tr : List (Ev T E)} {cell cell' : Cell T}
  {c d : ℕ} {call : Call T E} {r : Req T} {pc pc' : Pc T E} {init : Option T} {v : T}
  {C : List (Ev T E) → Sys T E → Op T E → Prop} {x : Res T E}

/-! ## The values that are stored -/

/-- The value written. -/
def Ev.written : Ev T E → Option T
  | .wrote _ v => some v
  | _ => none

/-- **All values that were ever stored**, the initial one included. -/
def stored (init : Option T) (tr : List (Ev T E)) : List T :=
  init.toList ++ tr.filterMap Ev.written

theorem stored_append (init : Option T) (tr es : List (Ev T E)) :
    stored init (tr ++ es) = stored init tr ++ es.filterMap Ev.written := by
  simp [stored]

theorem written_wakeAll (ws : List Waker) :
    (wakeAll ws : List (Ev T E)).filterMap Ev.written = [] := by
  simp [wakeAll, Ev.written]

theorem value_moved (hS : Sound s) (hc : s.calls[c]? = some call)
    (hm : Moved s.shared c call.request call.pc cell' pc' es) :
    cell'.value.toList = s.shared.value.toList ++ es.filterMap Ev.written := by
  obtain ⟨r, pc⟩ := call
  obtain ⟨hfits, -⟩ := hS.knows c _ hc
  cases hm with
  | writes =>
    rw [hfits.2]
    rfl
  | setWrites =>
    rw [hfits.2.2]
    rfl
  | completeClears => rw [written_wakeAll, append_nil]
  | dropClears | setWakes => simp [written_wakeAll, Ev.written]
  | _ => exact (append_nil _).symm

/-- The cell holds what was written. -/
theorem stored_run (h : Run step C (newWith init : Sys T E) tr s) :
    stored init tr = s.shared.value.toList := by
  refine (h.along (I := fun _ s => Sound s) fun _ _ h => sound_run h).inv
    (I := fun tr s => stored init tr = s.shared.value.toList) (append_nil _) ?_
  intro tr s op s' es ih hC hs
  obtain ⟨r, rfl, rfl⟩ | ⟨c, call, cell', pc', hc, hm, rfl⟩ := step_moved hs
  · rw [stored_append, ih]
    exact append_nil _
  · rw [stored_append, ih]
    exact (value_moved hC.2 hc hm).symm

/-! ## What the calls return -/

/-- The value returned. -/
def Res.gives : Res T E → Option T
  | .value v => some v
  | .got o => o
  | _ => none

/-- The results after which the cell has a value. -/
def Res.settles : Res T E → Bool
  | .value _ | .stored | .got (some _) => true
  | _ => false

/-- **Where a call can be**, by what was called. -/
def Kind (r : Req T) : Pc T E → Prop
  | .setLock v | .setLoad v | .setTest v | .setWrite v => r = .set v
  | .setStore | .setWake => ∃ v, r = .set v
  | .dropLock x | .dropClear x => Res.settles x = false ∧ ∀ v, r ≠ .set v
  | .getLoad | .getRead | .returned _ => True
  | .fresh | .load _ | .read _ | .acquireLoad _ | .acquireLock _ | .acquireReload _ | .acquireTest _
  | .waiting | .reload _ | .reread _ | .running | .suspended | .write _ | .store | .completeLock
  | .completeClear | .completeLoad | .completeRead => ∀ v, r ≠ .set v

theorem kind_moved (h : Kind r pc) (hm : Moved cell c r pc cell' pc' es) : Kind r pc' := by
  cases hm with
  | fails e | panics | dropsInitialiser => exact ⟨rfl, h⟩
  | setWrites v => exact ⟨v, h⟩
  | dropsFresh | dropsWaiting | reads | rereads | completeMisses | completeReads
  | completeReadsNone | dropClears | setLoads | setRefused | setWakes | getLoads | getMisses
  | getReads => trivial
  | _ => exact h

theorem kind_run (h : Run step C (newWith init : Sys T E) tr s) :
    Knows (fun _ _ call => Kind call.request call.pc) s := by
  refine h.inv (I := fun _ s => Knows (fun _ _ call => Kind call.request call.pc) s)
    (knows_nil _) ?_
  intro tr s op s' es ih _ hs
  obtain ⟨r, rfl, -⟩ | ⟨c, call, cell', pc', hc, hm, rfl⟩ := step_moved hs
  · refine ih.start ?_
    cases r with
    | getOrInit | getOrTryInit => exact nofun
    | set => exact rfl
    | get => trivial
  · exact ih.step hc (kind_moved (ih c call hc) hm) fun _ _ _ _ hk => hk

theorem initialized_moved (hS : Sound s) (hc : s.calls[c]? = some call)
    (hm : Moved s.shared c call.request call.pc cell' pc' es) (hi : s.shared.initialized = true) :
    cell'.initialized = true ∧ cell'.value = s.shared.value := by
  obtain ⟨r, pc⟩ := call
  obtain ⟨hfits, -⟩ := hS.knows c _ hc
  cases hm with
  | writes | setWrites => exact absurd (hfits.1.symm.trans hi) (by decide)
  | stores | setStores => exact ⟨rfl, rfl⟩
  | _ => exact ⟨hi, rfl⟩

theorem settles_moved (hS : Sound s) (hc : s.calls[c]? = some call) (hk : Kind call.request call.pc)
    (hm : Moved s.shared c call.request call.pc cell' (.returned x) es)
    (hx : Res.settles x = true) :
    s.shared.initialized = true ∧ ∀ v, Res.gives x = some v → s.shared.value = some v := by
  obtain ⟨r, pc⟩ := call
  obtain ⟨hfits, -⟩ := hS.knows c _ hc
  cases hm with
  | reads w v hv | completeReads v hv => exact ⟨hfits, fun v' hv' => hv.trans hv'⟩
  | rereads a v hv =>
    cases a with
    | true => exact hfits.elim
    | false => exact ⟨hfits, fun v' hv' => hv.trans hv'⟩
  | setWakes => exact ⟨hfits, fun v' hv' => (nomatch hv')⟩
  | getReads => exact ⟨hfits, fun v' hv' => hv'⟩
  | dropClears => exact absurd (hk.1.symm.trans hx) (by decide)
  | _ => cases hx

theorem settled_run (h : Run step C (newWith init : Sys T E) tr s)
    (hret : .ret c x ∈ tr) (hx : Res.settles x = true) :
    s.shared.initialized = true ∧ ∀ v, Res.gives x = some v → s.shared.value = some v := by
  refine (h.along (I := fun _ s => Sound s ∧ Knows (fun _ _ call => Kind call.request call.pc) s)
    fun _ _ h => ⟨sound_run h, kind_run h⟩).inv (I := fun tr s => .ret c x ∈ tr →
      s.shared.initialized = true ∧ ∀ v, Res.gives x = some v → s.shared.value = some v)
    nofun ?_ hret
  intro tr s op s' es ih hC hs hr
  obtain ⟨-, hS, hk⟩ := hC
  obtain ⟨r, rfl, rfl⟩ | ⟨d, call, cell', pc', hd, hm, rfl⟩ := step_moved hs
  · exact ih ((mem_append.mp hr).resolve_right (by simp))
  · have hbefore : s.shared.initialized = true ∧
        ∀ v, Res.gives x = some v → s.shared.value = some v := by
      rcases mem_append.mp hr with hr | hr
      · exact ih hr
      · obtain ⟨-, rfl⟩ := hm.ret hr
        exact settles_moved hS hd (hk d call hd) hm hx
    obtain ⟨hi, hv⟩ := initialized_moved hS hd hm hbefore.1
    exact ⟨hi, fun v hgives => hv.trans (hbefore.2 v hgives)⟩

/-- Where a `get` can be that has found the value, or has still to look for it. -/
def Pc.late : Pc T E → Bool
  | .getLoad | .getRead | .returned (.got (some _)) => true
  | _ => false

theorem late_moved (hS : Sound s) (hi : s.shared.initialized = true)
    (hm : Moved s.shared c r pc cell' pc' es) (hl : Pc.late pc = true) : Pc.late pc' = true := by
  cases hm with
  | getLoads => rfl
  | getMisses h => exact absurd (h.symm.trans hi) (by decide)
  | getReads =>
    obtain ⟨v, hv⟩ := ne_none_iff_exists'.mp (hS.value hi)
    rw [hv]
    rfl
  | _ => cases hl

theorem late_run (h : Run step C (newWith init : Sys T E) tr s) {l m : List (Ev T E)}
    (heq : tr = l ++ .ret c x :: m) (hx : Res.settles x = true) (hcall : .call d .get ∈ m) :
    Has s d fun call => Pc.late call.pc = true := by
  refine h.after (P := fun e => e = .ret c x) (Q := fun e => e = .call d .get)
    (K := fun s => Sound s ∧ s.shared.initialized = true)
    (L := fun s => Has s d fun call => Pc.late call.pc = true)
    ?_ ?_ ?_ ?_ l _ m heq rfl ⟨_, hcall, rfl⟩
  · rintro tr s h ⟨_, hp, rfl⟩
    exact ⟨sound_run h, (settled_run h hp hx).1⟩
  · rintro tr s op s' es _ hs - ⟨_, hp, rfl⟩
    obtain ⟨r, rfl, rfl⟩ | ⟨c, call, cell', pc', -, hm, -⟩ := step_moved hs
    · rw [mem_singleton, Ev.call.injEq] at hp
      obtain ⟨rfl, rfl⟩ := hp
      exact has_start rfl
    · exact absurd hp hm.no_call
  · intro tr s op s' es _ hs hK hL
    exact has_step hL hs fun _ _ _ _ hcall hm => late_moved hK.1 hK.2 hm hcall
  · rintro tr s op s' es _ hs ⟨_, hret, rfl⟩ _ hp rfl
    obtain ⟨r, -, rfl⟩ | ⟨c, call, cell', pc', -, hm, -⟩ := step_moved hs
    · simp at hret
    · exact hm.no_call hp

/-! ## `set` -/

/-- The `set` has written. -/
def Pc.setDone : Pc T E → Bool
  | .setStore | .setWake | .returned .stored => true
  | _ => false

theorem wrote_moved (hk : Kind (.set v) pc) (hm : Moved cell c (.set v) pc cell' pc' es) :
    Pc.setDone pc' = true ↔ Pc.setDone pc = true ∨ .wrote c v ∈ es := by
  cases hm with
  | setWrites =>
    rw [Req.set.inj hk]
    simp [Pc.setDone]
  | setStores | setWakes => simp [Pc.setDone]
  | writes | completeClears => exact absurd rfl (hk v)
  | dropClears => exact absurd rfl (hk.2 v)
  | _ => simp [Pc.setDone]

theorem wrote_other (hm : Moved cell c r pc cell' pc' es) (h : .wrote d v ∈ es) : d = c := by
  cases hm <;> simp [wakeAll] at h <;> exact h.1

theorem wrote_run (h : Run step C (newWith init : Sys T E) tr s) :
    (∀ c v, .wrote c v ∈ tr → c < s.calls.length) ∧
    ∀ c pc v, s.calls[c]? = some ⟨.set v, pc⟩ → (Pc.setDone pc = true ↔ .wrote c v ∈ tr) := by
  refine (h.along (I := fun _ s => Knows (fun _ _ call => Kind call.request call.pc) s)
    fun _ _ h => kind_run h).inv (I := fun tr s => (∀ c v, .wrote c v ∈ tr → c < s.calls.length) ∧
      ∀ c pc v, s.calls[c]? = some ⟨.set v, pc⟩ → (Pc.setDone pc = true ↔ .wrote c v ∈ tr))
    ⟨nofun, fun _ _ _ h => (nomatch h)⟩ ?_
  intro tr s op s' es ih hC hs
  obtain ⟨ihlt, ih⟩ := ih
  obtain ⟨r, rfl, rfl⟩ | ⟨d, ⟨r, pc₀⟩, cell', pc', hd, hm, rfl⟩ := step_moved hs
  · refine ⟨fun c v hw => ?_, fun c pc v hc => ?_⟩
    · rw [start_length]
      exact Nat.lt_succ_of_lt (ihlt c v ((mem_append.mp hw).resolve_right (by simp)))
    · rw [getElem?_start] at hc
      simp only [mem_append, mem_singleton, reduceCtorEq, or_false]
      split_ifs at hc with hlen
      · cases hc
        refine ⟨nofun, fun hw => ?_⟩
        exact absurd (ihlt c v hw) (by omega)
      · exact ih c pc v hc
  · refine ⟨fun c v hw => ?_, fun c pc v hc => ?_⟩
    · rw [put_length]
      rcases mem_append.mp hw with hw | hw
      · exact ihlt c v hw
      · rw [wrote_other hm hw]
        exact Lib.Arena.lt_length hd
    · rw [getElem?_put hd] at hc
      rw [mem_append]
      split_ifs at hc with hcd
      · subst hcd
        cases hc
        rw [wrote_moved (hC.2 c _ hd) hm, ih c pc₀ v hd]
      · rw [ih c pc v hc]
        exact ⟨.inl, fun h => h.resolve_right fun hw => hcd (wrote_other hm hw)⟩

/-! ## The waiters -/

/-- Without an initialiser nobody waits. -/
theorem waiters_run (h : Run step C (newWith init : Sys T E) tr s) :
    s.shared.initializing = false → s.shared.waiters = [] := by
  refine h.inv (I := fun _ s => s.shared.initializing = false → s.shared.waiters = [])
    (fun _ => rfl) ?_
  intro tr s op s' es ih _ hs
  obtain ⟨r, rfl, rfl⟩ | ⟨c, ⟨r, pc⟩, cell', pc', hc, hm, rfl⟩ := step_moved hs
  · exact ih
  · change cell'.initializing = false → cell'.waiters = []
    cases hm with
    | waits w hf => exact fun h => absurd (hf.symm.trans h) (by decide)
    | acquires => exact nofun
    | completeClears | dropClears | setWakes => exact fun _ => rfl
    | _ => exact ih

theorem waiters_moved {w : Waker} (hm : Moved cell c r pc cell' pc' es) (hw : w ∈ cell.waiters) :
    w ∈ cell'.waiters ∨ .woke w ∈ es := by
  cases hm with
  | waits v =>
    left
    change w ∈ if v ∈ cell.waiters then cell.waiters else cell.waiters ++ [v]
    split_ifs
    · exact hw
    · exact mem_append_left _ hw
  | completeClears => exact .inr (mem_map_of_mem hw)
  | dropClears | setWakes => exact .inr (mem_append_left _ (mem_map_of_mem hw))
  | _ => exact .inl hw

theorem pending_moved {w : Waker} (hm : Moved cell c r pc cell' pc' es) (hp : .pending d w ∈ es) :
    es = [.pending d w] ∧ w ∈ cell'.waiters := by
  cases hm with
  | waits =>
    rw [mem_singleton, Ev.pending.injEq] at hp
    obtain ⟨rfl, rfl⟩ := hp
    refine ⟨rfl, ?_⟩
    change w ∈ if w ∈ cell.waiters then cell.waiters else cell.waiters ++ [w]
    split_ifs with hw
    · exact hw
    · exact mem_append_right _ (mem_singleton_self w)
  | _ => simp [wakeAll] at hp

/-- A pending call is queued or was woken. -/
theorem pending_run (h : Run step C (newWith init : Sys T E) tr s) :
    ∀ l c w m, tr = l ++ .pending c w :: m → w ∈ s.shared.waiters ∨ .woke w ∈ m := by
  refine h.inv (I := fun tr s => ∀ l c w m, tr = l ++ .pending c w :: m →
    w ∈ s.shared.waiters ∨ .woke w ∈ m) ?_ ?_
  · intro l c w m heq
    cases l <;> cases heq
  · intro tr s op s' es ih _ hs l c w m heq
    obtain ⟨r, rfl, rfl⟩ | ⟨d, call, cell', pc', hd, hm, rfl⟩ := step_moved hs
    · rcases split_append heq with ⟨m', htr, rfl⟩ | ⟨m', -, hes⟩
      · exact (ih l c w m' htr).imp_right (mem_append_left _)
      · rcases m' with _ | ⟨e, _ | ⟨e', m'⟩⟩ <;> cases hes
    · rcases split_append heq with ⟨m', htr, rfl⟩ | ⟨m', -, hes⟩
      · rcases ih l c w m' htr with hw | hw
        · exact (waiters_moved hm hw).imp_right (mem_append_right _)
        · exact .inr (mem_append_left _ hw)
      · have hmem : Ev.pending c w ∈ es := by
          rw [hes]
          exact mem_append_right _ mem_cons_self
        exact .inl (pending_moved hm hmem).2

/-! ## The result -/

/-- The initialiser runs. -/
def Pc.initialises : Pc T E → Bool
  | .running | .suspended => true
  | _ => false

/-- **What holds of a cell and its calls**, after the events of `tr`. -/
structure InitializedOnce (init : Option T) (tr : List (Ev T E)) (s : Sys T E) : Prop where
  /-- At most one initialiser is run at a time. -/
  one : ∀ (c d : ℕ) (call call' : Call T E), s.calls[c]? = some call → s.calls[d]? = some call' →
    Pc.initialises call.pc = true → Pc.initialises call'.pc = true → c = d
  /-- At most one value is ever stored. -/
  single : (stored init tr).length ≤ 1
  /-- Every call that succeeds returns that value. -/
  same : ∀ c x v, .ret c x ∈ tr → Res.gives x = some v → stored init tr = [v]
  /-- Every later `get` returns it. -/
  later : ∀ l c x m, tr = l ++ .ret c x :: m → Res.settles x = true → ∀ d y, .call d .get ∈ m →
    .ret d y ∈ m → ∃ v, stored init tr = [v] ∧ y = .got (some v)
  /-- `set` succeeds exactly if it stored its value. -/
  set : ∀ c v x, .call c (.set v) ∈ tr → .ret c x ∈ tr → (x = .stored ↔ .wrote c v ∈ tr)
  /-- Without an active initialiser the flag is clear and everyone who waited was woken. -/
  idle : (∀ (c : ℕ) (call : Call T E), s.calls[c]? = some call → Pc.active call.pc = false) →
    s.shared.initializing = false ∧ ∀ l c w m, tr = l ++ .pending c w :: m → .woke w ∈ m

theorem active_of_initialises (h : Pc.initialises pc = true) : Pc.active pc = true := by
  cases pc <;> first | rfl | cases h

/-- **`OnceCell` is initialized once and never gets stuck.** -/
theorem once_cell_once (h : Run step Any (newWith init : Sys T E) tr s) :
    InitializedOnce init tr s := by
  have hS := sound_run h
  have hstored := stored_run h
  have hgives : ∀ {c x v}, .ret c x ∈ tr → Res.gives x = some v → stored init tr = [v] := by
    intro c x v hret hv
    have hx : Res.settles x = true := by
      cases x with
      | value => rfl
      | got o =>
        obtain rfl : o = some v := hv
        rfl
      | _ => cases hv
    rw [hstored, (settled_run h hret hx).2 v hv]
    rfl
  refine ⟨?_, ?_, fun _ _ _ => hgives, ?_, ?_, ?_⟩
  · intro c d call call' hc hd hi hi'
    exact hS.unique hc hd (active_of_initialises hi) (active_of_initialises hi')
  · rw [hstored]
    exact length_toList_le
  · intro l c x m heq hx d y hcall hret
    have hmem : .ret d y ∈ tr := by
      rw [heq]
      exact mem_append_right _ (mem_cons_of_mem _ hret)
    obtain ⟨call, -, hl, hpc⟩ := (late_run h heq hx hcall).and (returned_run h hmem)
    rw [hpc] at hl
    cases y with
    | got o =>
      cases o with
      | some v => exact ⟨v, hgives hmem rfl, rfl⟩
      | none => cases hl
    | _ => cases hl
  · intro c v x hcall hret
    obtain ⟨⟨_, _⟩, hc, rfl, rfl⟩ := (requested_run h hcall).and (returned_run h hret)
    rw [← (wrote_run h).2 c _ v hc]
    cases x <;> simp [Pc.setDone]
  · intro hidle
    have hzero : s.calls.countP (fun call => Pc.active call.pc) = 0 := by
      rw [countP_eq_zero]
      intro call hcall
      obtain ⟨c, hc⟩ := mem_iff_getElem?.mp hcall
      rw [hidle c call hc]
      exact Bool.false_ne_true
    have hflag : s.shared.initializing = false := by
      rw [hS.owner] at hzero
      exact Bool.toNat_eq_zero.mp hzero
    refine ⟨hflag, fun l c w m heq => (pending_run h l c w m heq).resolve_left ?_⟩
    rw [waiters_run h hflag]
    exact nofun

theorem once_cell_once_cancelled : ∃ s tr, Run step Any (newWith none : Sys ℕ ℕ) tr s ∧
    .pending 1 7 ∈ tr ∧ .woke 7 ∈ tr ∧ .ret 1 (.value 5) ∈ tr ∧ .ret 2 (.got (some 5)) ∈ tr ∧
    InitializedOnce none tr s := by
  obtain ⟨s, tr, hrun, h1, h2, h3, h4⟩ : ∃ s tr, Run step Any (newWith none : Sys ℕ ℕ) tr s ∧
      .pending 1 7 ∈ tr ∧ .woke 7 ∈ tr ∧ .ret 1 (.value 5) ∈ tr ∧ .ret 2 (.got (some 5)) ∈ tr := by
    refine ⟨_, _, run_exec [.start .getOrInit, .start .getOrInit, .poll 0 3, .advance 0, .advance 0,
      .advance 0, .advance 0, .advance 0, .advance 0, .initialise 0 .pending, .poll 1 7,
      .advance 1, .advance 1, .advance 1, .advance 1, .advance 1, .drop 0, .advance 0, .advance 0,
      .poll 1 7, .advance 1, .advance 1, .advance 1, .advance 1, .advance 1,
      .initialise 1 (.completes 5), .advance 1, .advance 1, .advance 1, .advance 1, .advance 1,
      .advance 1, .start .get, .advance 2, .advance 2] rfl, ?_⟩
    decide
  exact ⟨s, tr, hrun, h1, h2, h3, h4, once_cell_once hrun⟩

end OhosFfrt.OnceCell.Once
