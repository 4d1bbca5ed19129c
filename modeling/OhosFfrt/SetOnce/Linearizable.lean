import Mathlib.Data.List.Nodup
import OhosFfrt.SetOnce.Moves

/-!
# `sync::SetOnce` as a cell that is written at most once

A losing `set` returns its error as soon as its compare-exchange has failed, also while the winner
is still between its compare-exchange and the store of `READY`.  If no `set` returns its error so
early (`Prompt`) the calls are linearizable (`set_once_atomic`).
-/

namespace OhosFfrt.SetOnce.Linearizable

open Lib.Calls Lib.Linear Lib.Runs List Option
open SetOnce.System SetOnce.Moves

variable {T : Type*} {s s' : Sys T} {op : Op T} {es tr : List (Ev T)} {cell cell' : Cell T}
  {c d : ℕ} {call : Call T} {pc pc' : Pc T} {l : List (Entry (Req T) (Res T))} {o o' : Option T}
  {x : Res T} {r : Req T}

/-! ## A cell that is written at most once -/

theorem apply_some (x : T) (r : Req T) : (apply (some x) r).1 = some x := by
  cases r <;> rfl

theorem Legal.some_eq {x : T} (h : Legal apply (some x) l o) : o = some x := by
  induction l with
  | nil => exact h.symm
  | cons e l ih =>
    refine ih ?_
    rw [← apply_some x e.request]
    exact h.2

theorem Legal.answers {x : T} (h : Legal apply (some x) l o) {e : Entry (Req T) (Res T)}
    (he : e ∈ l) : e.answer = (apply (some x) e.request).2 := by
  induction l with
  | nil => cases he
  | cons a l ih =>
    rcases mem_cons.mp he with rfl | he
    · exact h.1.symm
    · refine ih ?_ he
      rw [← apply_some x a.request]
      exact h.2

/-- **The winner**: an empty cell stays empty and no `set` is called, or one is, and the first one
writes it. -/
theorem Legal.winner (h : Legal apply (none : Option T) l o) :
    (o = none ∧ ∀ e ∈ l, (∀ v, e.request ≠ .set v) ∧ e.answer = (apply none e.request).2) ∨
    ∃ l₁ c x l₂, l = l₁ ++ ⟨c, .set x, .stored⟩ :: l₂ ∧ Legal apply (some x) l₂ o ∧
      ∀ e ∈ l₁, (∀ v, e.request ≠ .set v) ∧ e.answer = (apply none e.request).2 := by
  induction l with
  | nil => exact .inl ⟨h.symm, fun e he => (nomatch he)⟩
  | cons e l ih =>
    obtain ⟨c, r, x⟩ := e
    obtain ⟨hx, hl⟩ := h
    by_cases hr : ∃ v, r = .set v
    · obtain ⟨v, rfl⟩ := hr
      change Res.stored = x at hx
      subst hx
      exact .inr ⟨[], c, v, l, rfl, hl, fun e he => (nomatch he)⟩
    · have hset : ∀ v, r ≠ .set v := fun v hv => hr ⟨v, hv⟩
      have hnone : (apply (none : Option T) r).1 = none := by
        cases r with
        | set v => exact absurd rfl (hset v)
        | get | initialized | wait w => rfl
      change Legal apply (apply none r).1 l o at hl
      rw [hnone] at hl
      have hhead : (∀ v, r ≠ .set v) ∧ x = (apply none r).2 := ⟨hset, hx.symm⟩
      rcases ih hl with ⟨ho, hall⟩ | ⟨l₁, c', v, l₂, rfl, hl₂, hall⟩
      · exact .inl ⟨ho, forall_mem_cons.mpr ⟨hhead, hall⟩⟩
      · exact .inr ⟨_ :: l₁, c', v, l₂, rfl, hl₂, forall_mem_cons.mpr ⟨hhead, hall⟩⟩

/-- The answers after which a cell has a value. -/
def Res.settles : Res T → Prop
  | .stored | .rejected _ | .got (some _) => True
  | _ => False

theorem Legal.settled (h : Legal apply (none : Option T) l o) {e : Entry (Req T) (Res T)}
    (he : e ∈ l) (hx : Res.settles e.answer) : ∃ x, o = some x := by
  rcases Legal.winner h with ⟨-, hall⟩ | ⟨l₁, c, x, l₂, rfl, hl₂, -⟩
  · obtain ⟨hset, ha⟩ := hall e he
    obtain ⟨i, r, a⟩ := e
    simp only at hset ha hx
    cases r with
    | set v => exact absurd rfl (hset v)
    | get | initialized | wait w =>
      rw [ha] at hx
      exact hx.elim
  · exact ⟨x, Legal.some_eq hl₂⟩

/-- **What the callers of the cell see**, where `winner` is the `set` that wrote it. -/
structure WriteOnce (tr : List (Ev T)) (winner : Option (ℕ × T)) : Prop where
  called : ∀ i x, winner = some (i, x) → .call i (.set x) ∈ tr
  /-- A `set` is the winner, or is given its own value back, and then there is another winner. -/
  set : ∀ c v y, .call c (.set v) ∈ tr → .ret c y ∈ tr → winner = some (c, v) ∧ y = .stored ∨
    (∃ i x, winner = some (i, x) ∧ i ≠ c) ∧ y = .rejected v
  get : ∀ c y, .call c .get ∈ tr → .ret c y ∈ tr →
    y = .got none ∨ ∃ i x, winner = some (i, x) ∧ y = .got (some x)
  /-- Once a `get` has returned a value, or a `set` has returned, a `get` finds the value. -/
  later : ∀ l m, tr = l ++ m → ∀ c x, .ret c x ∈ l → Res.settles x →
    ∀ d y, .call d .get ∈ m → .ret d y ∈ m → ∃ i v, winner = some (i, v) ∧ y = .got (some v)

theorem mem_history_call : .call c r ∈ history tr ↔ .call c r ∈ tr := by
  unfold history
  rw [mem_filterMap]
  constructor
  · rintro ⟨e, he, heq⟩
    cases e <;> cases heq
    exact he
  · exact fun h => ⟨_, h, rfl⟩

theorem mem_history_ret : .ret c x ∈ history tr ↔ .ret c x ∈ tr := by
  unfold history
  rw [mem_filterMap]
  constructor
  · rintro ⟨e, he, heq⟩
    cases e <;> cases heq
    exact he
  · exact fun h => ⟨_, h, rfl⟩

theorem history_append (tr es : List (Ev T)) : history (tr ++ es) = history tr ++ history es :=
  filterMap_append ..

section
variable (hlin : Linearization apply none (history tr) l)
  (huniq : ∀ c r r', .call c r ∈ tr → .call c r' ∈ tr → r = r')
include hlin huniq

theorem entry_of (hcall : .call c r ∈ tr) (hret : .ret c x ∈ tr) :
    ⟨c, r, x⟩ ∈ l := by
  obtain ⟨r', hr'⟩ := hlin.answered c x (mem_history_ret.mpr hret)
  have hcall' := mem_history_call.mp (hlin.called _ hr')
  rw [huniq c r r' hcall hcall']
  exact hr'

theorem later_of (hl : Legal apply none l o) {t₁ t₂ : List (Ev T)} (htr : tr = t₁ ++ t₂)
    {y : Res T} (hret : .ret c x ∈ t₁) (hx : Res.settles x) (hcall : .call d .get ∈ t₂)
    (hret' : .ret d y ∈ t₂) : ∃ v, o = some v ∧ y = .got (some v) := by
  subst htr
  have he := entry_of hlin huniq (mem_append_right _ hcall) (mem_append_right _ hret')
  obtain ⟨r, hr⟩ := hlin.answered c x (mem_history_ret.mpr (mem_append_left _ hret))
  obtain ⟨l₁, l₂, rfl, hc, he₂⟩ := hlin.order _ _ (history_append t₁ t₂) c x
    (mem_history_ret.mpr hret) _ he (mem_history_call.mpr hcall)
  obtain ⟨e, he₁, hec⟩ := mem_map.mp hc
  -- the call that has returned is before the `get` in the order
  have heq : e = ⟨c, r, x⟩ := inj_on_of_nodup_map hlin.once (mem_append_left _ he₁) hr hec
  rw [heq] at he₁
  obtain ⟨m, hl₁, hl₂⟩ := legal_append.mp hl
  obtain ⟨v, rfl⟩ := Legal.settled hl₁ he₁ hx
  exact ⟨v, Legal.some_eq hl₂, Legal.answers hl₂ he₂⟩

theorem writeOnce_of : ∃ winner, WriteOnce tr winner := by
  obtain ⟨o, hl⟩ := hlin.legal
  rcases Legal.winner hl with ⟨rfl, hall⟩ | ⟨l₁, i, x, l₂, rfl, hl₂, hall⟩
  · refine ⟨none, fun _ _ h => (nomatch h), ?_, ?_, ?_⟩
    · intro c v y hcall hret
      exact absurd rfl ((hall _ (entry_of hlin huniq hcall hret)).1 v)
    · intro c y hcall hret
      exact .inl (hall _ (entry_of hlin huniq hcall hret)).2
    · intro t₁ t₂ htr c y hret hy d z hcall hret'
      obtain ⟨v, hv, -⟩ := later_of hlin huniq hl htr hret hy hcall hret'
      cases hv
  · have ho : o = some x := Legal.some_eq hl₂
    have hwin : (⟨i, .set x, .stored⟩ : Entry (Req T) (Res T)) ∈ l₁ ++ ⟨i, .set x, .stored⟩ :: l₂ :=
      mem_append_right _ mem_cons_self
    refine ⟨some (i, x), ?_, ?_, ?_, ?_⟩
    · intro j z hj
      cases hj
      exact mem_history_call.mp (hlin.called _ hwin)
    · intro c v y hcall hret
      have he := entry_of hlin huniq hcall hret
      by_cases hci : i = c
      · have heq := inj_on_of_nodup_map hlin.once hwin he hci
        rw [Entry.mk.injEq, Req.set.injEq] at heq
        obtain ⟨rfl, rfl, rfl⟩ := heq
        exact .inl ⟨rfl, rfl⟩
      · refine .inr ⟨⟨i, x, rfl, hci⟩, ?_⟩
        rcases mem_append.mp he with he | he
        · exact absurd rfl ((hall _ he).1 v)
        · rcases mem_cons.mp he with heq | he
          · rw [Entry.mk.injEq] at heq
            exact absurd heq.1.symm hci
          · exact Legal.answers hl₂ he
    · intro c y hcall hret
      rcases mem_append.mp (entry_of hlin huniq hcall hret) with he | he
      · exact .inl (hall _ he).2
      · rcases mem_cons.mp he with heq | he
        · rw [Entry.mk.injEq] at heq
          exact absurd heq.2.1 (fun h => nomatch h)
        · exact .inr ⟨i, x, rfl, Legal.answers hl₂ he⟩
    · intro t₁ t₂ htr c y hret hy d z hcall hret'
      obtain ⟨v, hv, hz⟩ := later_of hlin huniq hl htr hret hy hcall hret'
      rw [ho, some.injEq] at hv
      exact ⟨i, x, rfl, by rw [hz, hv]⟩

end

/-! ## The points at which the calls take effect -/

/-- What the cell is, for its callers. -/
def abs (cell : Cell T) : Option T := if cell.state = .ready then cell.value else none

/-- **How far a call has come**, by its place in the code. -/
def phase (cell : Cell T) (r : Req T) : Pc T → Phase (Req T) (Res T)
  | .compareExchange _ | .write _ | .store | .lost _ | .load | .loadInitialized | .waitLoad _
  | .waitLock _ | .waitReload _ => .called r
  | .lock | .take | .wakeAll _ => .done .stored
  | .deref b => .done (.got (if b then cell.value else none))
  | .answer b => .done (.isInitialized b)
  | .waitPush _ | .waitPending => .done .pending
  | .waitDeref => .done (apply cell.value (.wait 0)).2
  | .returned _ => .answered

/-- The calls, as a history with points sees them. -/
def phases (s : Sys T) (c : ℕ) : Phase (Req T) (Res T) :=
  (s.calls[c]?).elim .idle fun call => phase s.shared call.request call.pc

/-- **The calls so far have their points.** -/
def Sim (tr : List (Ev T)) (s : Sys T) : Prop :=
  ∃ l, Points apply none (history tr) l (abs s.shared) (phases s)

theorem phase_stable (h : Fits cell r pc)
    (hv : cell.state = .ready → cell'.value = cell.value) : phase cell' r pc = phase cell r pc := by
  cases pc with
  | deref b =>
    rcases b with _ | _
    · rfl
    · simp only [phase, if_true, hv (h rfl)]
  | waitDeref => simp only [phase, hv h]
  | _ => rfl

theorem phases_start (r : Req T) :
    phases (s.start ⟨r, r.entry⟩) = Function.update (phases s) s.calls.length (.called r) := by
  funext d
  unfold phases
  rw [getElem?_start]
  by_cases hd : d = s.calls.length
  · subst hd
    rw [if_pos rfl, Function.update_self]
    cases r <;> rfl
  · rw [if_neg hd, Function.update_of_ne hd]
    rfl

theorem phases_at (hc : s.calls[c]? = some call) :
    phases s c = phase s.shared call.request call.pc := by
  unfold phases
  rw [hc]
  rfl

theorem phases_put (hS : Sound s) (hc : s.calls[c]? = some call)
    (hv : s.shared.state = .ready → cell'.value = s.shared.value) :
    phases (s.put c cell' { call with pc := pc' }) =
      Function.update (phases s) c (phase cell' call.request pc') := by
  funext d
  unfold phases
  rw [getElem?_put hc]
  by_cases hd : d = c
  · subst hd
    rw [if_pos rfl, Function.update_self]
    rfl
  · rw [if_neg hd, Function.update_of_ne hd]
    rcases hget : s.calls[d]? with _ | call'
    · rfl
    · exact phase_stable (hS.knows d call' hget).1 hv

theorem abs_ready (h : cell.state = .ready) : abs cell = cell.value := if_pos h

theorem abs_not_ready (h : cell.state ≠ .ready) : abs cell = none := if_neg h

section
variable (hsim : Sim tr s) (hS : Sound s) (hc : s.calls[c]? = some call)
include hsim hS hc

theorem Sim.quiet (hv : s.shared.state = .ready → cell'.value = s.shared.value)
    (hes : history es = []) (habs : abs cell' = abs s.shared)
    (hph : phase cell' call.request pc' = phase s.shared call.request call.pc) :
    Sim (tr ++ es) (s.put c cell' { call with pc := pc' }) := by
  obtain ⟨l, hp⟩ := hsim
  refine ⟨l, ?_⟩
  have hsame : phase cell' call.request pc' = phases s c := by rw [hph, phases_at hc]
  rw [phases_put hS hc hv, hsame, Function.update_eq_self, history_append, hes, append_nil]
  change Points apply none (history tr) l (abs cell') (phases s)
  rw [habs]
  exact hp

theorem Sim.point (hv : s.shared.state = .ready → cell'.value = s.shared.value)
    (hes : history es = []) (hcalled : phase s.shared call.request call.pc = .called call.request)
    (habs : abs cell' = (apply (abs s.shared) call.request).1)
    (hph : phase cell' call.request pc' = .done (apply (abs s.shared) call.request).2) :
    Sim (tr ++ es) (s.put c cell' { call with pc := pc' }) := by
  obtain ⟨l, hp⟩ := hsim
  have hpoint := hp.point ((phases_at hc).trans hcalled)
  rw [← habs, ← hph, ← phases_put hS hc hv] at hpoint
  refine ⟨l ++ [⟨c, call.request, (apply (abs s.shared) call.request).2⟩], ?_⟩
  rw [history_append, hes, append_nil]
  exact hpoint

theorem Sim.ret (hdone : phase s.shared call.request call.pc = .done x) :
    Sim (tr ++ [.ret c x]) (s.put c s.shared { call with pc := .returned x }) := by
  obtain ⟨l, hp⟩ := hsim
  refine ⟨l, ?_⟩
  rw [phases_put hS hc fun _ => rfl, history_append]
  exact hp.ret ((phases_at hc).trans hdone)

end

/-- The call returns its error with the next step. -/
def Pc.refused : Pc T → Bool
  | .lost _ => true
  | _ => false

/-- **The condition**: no `set` returns its error while the winner has not stored `READY`. -/
def Prompt (_ : List (Ev T)) (s : Sys T) : Op T → Prop
  | .start _ => True
  | .advance c => ∀ call ∈ s.calls[c]?, Pc.refused call.pc = true → s.shared.state = .ready

instance (tr : List (Ev T)) (s : Sys T) (op : Op T) : Decidable (Prompt tr s op) := by
  unfold Prompt
  split <;> infer_instance

theorem Sim.fails {v : T} (hsim : Sim tr s) (hS : Sound s)
    (hc : s.calls[c]? = some ⟨r, .lost v⟩) (hready : s.shared.state = .ready) :
    Sim (tr ++ [.ret c (.rejected v)])
      (s.put c s.shared ⟨r, .returned (.rejected v)⟩) := by
  obtain ⟨rfl, -⟩ := (hS.knows c _ hc).1
  obtain ⟨l, hp⟩ := hsim
  obtain ⟨x, hx⟩ := ne_none_iff_exists'.mp (hS.value hready)
  have hcalled : phases s c = .called (.set v) := phases_at hc
  have habs : abs s.shared = some x := (abs_ready hready).trans hx
  have hpoint := hp.point hcalled
  rw [habs] at hpoint
  have hret := hpoint.ret (c := c) (Function.update_self ..)
  rw [Function.update_idem] at hret
  refine ⟨l ++ [⟨c, .set v, .rejected v⟩], ?_⟩
  rw [phases_put hS hc fun _ => rfl, history_append]
  change Points apply none _ _ (abs s.shared) _
  rw [habs]
  exact hret

theorem Sim.moved (hsim : Sim tr s) (hS : Sound s) (hc : s.calls[c]? = some call)
    (hm : Moved s.shared c call.pc cell' pc' es)
    (hprompt : Pc.refused call.pc = true → s.shared.state = .ready) :
    Sim (tr ++ es) (s.put c cell' { call with pc := pc' }) := by
  obtain ⟨r, pc⟩ := call
  obtain ⟨hfits, -⟩ := hS.knows c _ hc
  cases hm with
  | wins v he =>
    have hne : s.shared.state ≠ .ready := by rw [he]; decide
    refine hsim.quiet hS hc (fun hr => absurd hr hne) rfl ?_ rfl
    rw [abs_not_ready hne]
    rfl
  | writes =>
    have hne : s.shared.state ≠ .ready := by rw [hfits.2]; decide
    refine hsim.quiet hS hc (fun hr => absurd hr hne) rfl ?_ rfl
    rw [abs_not_ready hne]
    exact abs_not_ready hne
  | stores =>
    obtain ⟨hw, v, rfl, hv⟩ := hfits
    have hne : s.shared.state ≠ .ready := by rw [hw]; decide
    refine hsim.point hS hc (fun hr => absurd hr hne) rfl rfl ?_ ?_
    · rw [abs_not_ready hne, abs_ready rfl]
      exact hv
    · rw [abs_not_ready hne]
      rfl
  | succeeds | getsNone | answers | pends => exact hsim.ret hS hc rfl
  | fails => exact hsim.fails hS hc (hprompt rfl)
  | loads =>
    obtain rfl := hfits
    refine hsim.point hS hc (fun _ => rfl) rfl rfl rfl ?_
    simp [phase, apply, abs]
  | gets v hv =>
    refine hsim.ret hS hc ?_
    simp [phase, hv]
  | undefined hv => exact absurd hv (hS.value (hfits rfl))
  | loadsInitialized =>
    obtain rfl := hfits
    refine hsim.point hS hc (fun _ => rfl) rfl rfl rfl ?_
    by_cases hr : s.shared.state = .ready
    · obtain ⟨x, hx⟩ := ne_none_iff_exists'.mp (hS.value hr)
      simp [phase, apply, abs_ready hr, hr, hx]
    · simp [phase, apply, abs_not_ready hr, hr]
  | finds w hr =>
    obtain rfl := hfits
    obtain ⟨x, hx⟩ := ne_none_iff_exists'.mp (hS.value hr)
    refine hsim.point hS hc (fun _ => rfl) rfl rfl ?_ ?_ <;> simp [phase, apply, abs_ready hr, hx]
  | findsAgain w hr =>
    obtain rfl := hfits
    obtain ⟨x, hx⟩ := ne_none_iff_exists'.mp (hS.value hr)
    refine hsim.point hS hc (fun _ => rfl) rfl rfl ?_ ?_ <;> simp [phase, apply, abs, hr, hx]
  | missesAgain w hr =>
    obtain rfl := hfits
    refine hsim.point hS hc (fun _ => rfl) rfl rfl ?_ ?_ <;> simp [phase, apply, abs_not_ready hr]
  | waits v hv =>
    refine hsim.ret hS hc ?_
    simp [phase, apply, hv]
  | waitUndefined hv => exact absurd hv (hS.value hfits)
  | _ => exact hsim.quiet hS hc (fun _ => rfl) rfl rfl rfl

theorem sim_new : Sim [] (new : Sys T) := ⟨[], .nil⟩

theorem sim_step (hsim : Sim tr s) (hS : Sound s) (hP : Prompt tr s op)
    (hs : step s op = some (s', es)) : Sim (tr ++ es) s' := by
  obtain ⟨r, rfl, rfl⟩ | ⟨c, call, cell', pc', rfl, hc, hm, rfl⟩ := step_moved hs
  · obtain ⟨l, hp⟩ := hsim
    refine ⟨l, ?_⟩
    rw [phases_start, history_append]
    refine hp.call r ?_
    unfold phases
    rw [getElem?_eq_none (Nat.le_refl _)]
    rfl
  · exact hsim.moved hS hc hm (hP call hc)

/-- **The simulation**, along a run. -/
theorem sim_run (h : Run step Prompt (new : Sys T) tr s) : Sim tr s :=
  (h.along (I := fun _ s => Sound s) fun _ _ h => sound_run h).inv sim_new
    fun _ _ _ _ _ hsim hP hs => sim_step hsim hP.2 hP.1 hs

/-- **`SetOnce` is an atomic write-once cell** as long as no `set` returns its error before the
winner has stored `READY`: the calls are linearizable to a cell that is written at most once, and
so its callers see exactly one winner. -/
theorem set_once_atomic (h : Run step Prompt (new : Sys T) tr s) :
    (∃ l, Linearization apply none (history tr) l) ∧ ∃ winner, WriteOnce tr winner := by
  obtain ⟨l, hp⟩ := sim_run h
  have hlin := hp.linearization
  exact ⟨⟨l, hlin⟩, writeOnce_of hlin fun _ _ _ => request_unique h⟩

theorem set_once_atomic_two : ∃ s tr, Run step Prompt (new : Sys ℕ) tr s ∧
    .ret 0 .stored ∈ tr ∧ .ret 1 (.rejected 2) ∈ tr ∧ .ret 2 (.got (some 1)) ∈ tr ∧
    (∃ l, Linearization apply none (history tr) l) ∧ ∃ winner, WriteOnce tr winner := by
  obtain ⟨s, tr, hrun, h0, h1, h2⟩ : ∃ s tr, Run step Prompt (new : Sys ℕ) tr s ∧
      .ret 0 .stored ∈ tr ∧ .ret 1 (.rejected 2) ∈ tr ∧ .ret 2 (.got (some 1)) ∈ tr := by
    refine ⟨_, _, run_execIf [.start (.set 1), .start (.set 2), .advance 0, .advance 1, .advance 0,
      .advance 0, .advance 1, .start .get, .advance 2, .advance 2, .advance 0, .advance 0,
      .advance 0] .nil rfl, ?_⟩
    decide
  exact ⟨s, tr, hrun, h0, h1, h2, set_once_atomic hrun⟩

/-- A second `set` is refused while the first has not stored `READY`, and the `get` after it finds
nothing: no order of the calls explains this. -/
theorem get_after_refused : ∃ s l m, Run step Any (new : Sys ℕ) (l ++ m) s ∧
    .ret 1 (.rejected 2) ∈ l ∧ .call 2 .get ∈ m ∧ .ret 2 (.got none) ∈ m ∧
    (¬∃ winner, WriteOnce (l ++ m) winner) ∧
    ¬∃ o, Linearization apply none (history (l ++ m)) o := by
  obtain ⟨s, l, m, hrun, h1, h2, h3⟩ : ∃ s l m, Run step Any (new : Sys ℕ) (l ++ m) s ∧
      .ret 1 (.rejected 2) ∈ l ∧ .call 2 .get ∈ m ∧ .ret 2 (.got none) ∈ m := by
    refine ⟨_, [.call 0 (.set 1), .call 1 (.set 2), .ret 1 (.rejected 2)],
      [.call 2 .get, .ret 2 (.got none)],
      run_exec [.start (.set 1), .start (.set 2), .advance 0, .advance 1, .advance 1, .start .get,
        .advance 2, .advance 2] rfl, ?_⟩
    decide
  have hnot : ¬∃ winner, WriteOnce (l ++ m) winner := by
    rintro ⟨winner, hw⟩
    obtain ⟨i, v, -, hv⟩ := hw.later l m rfl 1 _ h1 trivial 2 _ h2 h3
    cases hv
  refine ⟨s, l, m, hrun, h1, h2, h3, hnot, fun ⟨o, hlin⟩ => hnot ?_⟩
  exact writeOnce_of hlin fun _ _ _ => request_unique hrun

end OhosFfrt.SetOnce.Linearizable
