import OhosFfrt.Lib.Traces
import OhosFfrt.SetOnce.Moves

/-!
# `sync::SetOnce`: no waiter is lost

The winner stores `READY` before it takes the waiters, so whoever registers after it took them would
have found the value (`Drained`).  A waker that was registered is in the list, is still to be woken
by the winner, or was woken (`Owed`), so none is lost (`set_once_wakes`).
-/

namespace OhosFfrt.SetOnce.Waiters

open Basic Lib.Calls Lib.Runs List Option
open SetOnce.System SetOnce.Moves

variable {T : Type*} {s s' : Sys T} {op : Op T} {es tr : List (Ev T)} {cell cell' : Cell T}
  {c d p : ℕ} {call : Call T} {pc pc' : Pc T} {C : List (Ev T) → Sys T → Op T → Prop} {w : Waker}

/-! ## After the winner has taken the waiters -/

/-- It has taken the waiters. -/
def Pc.taken : Pc T → Bool
  | .wakeAll _ | .returned .stored => true
  | _ => false

/-- It is to push its waker. -/
def Pc.pushing : Pc T → Bool
  | .waitPush _ => true
  | _ => false

/-- **Nobody registers any more** once the winner has taken the waiters. -/
def Drained (s : Sys T) : Prop :=
  ∀ (c : ℕ) (call : Call T), s.calls[c]? = some call → Pc.taken call.pc = true →
    s.shared.waiters = [] ∧
      ∀ (d : ℕ) (call' : Call T), s.calls[d]? = some call' → Pc.pushing call'.pc = false

theorem ready_of_taken {r : Req T} (h : Fits cell r pc) (ht : Pc.taken pc = true) :
    cell.state = .ready := by
  cases pc with
  | wakeAll => exact h
  | returned x =>
    cases x with
    | stored => exact h
    | rejected | got | isInitialized | pending | ready => cases ht
  | _ => cases ht

theorem Drained.keep (h : Drained s) (hc : s.calls[c]? = some call)
    (hw : cell'.waiters = s.shared.waiters) (ht : Pc.taken pc' = true → Pc.taken call.pc = true)
    (hp : Pc.pushing pc' = true → Pc.pushing call.pc = true) :
    Drained (s.put c cell' { call with pc := pc' }) := by
  intro d call' hd htaken
  have hbefore : ∃ (d' : ℕ) (call' : Call T), s.calls[d']? = some call' ∧
      Pc.taken call'.pc = true := by
    rw [getElem?_put hc] at hd
    split_ifs at hd with hdc
    · cases hd
      exact ⟨c, call, hc, ht htaken⟩
    · exact ⟨d, call', hd, htaken⟩
  obtain ⟨d', call'', hd', ht'⟩ := hbefore
  obtain ⟨hnil, hpush⟩ := h d' call'' hd' ht'
  refine ⟨hw.trans hnil, fun e call₂ he => ?_⟩
  rw [getElem?_put hc] at he
  split_ifs at he with hec
  · cases he
    rw [Bool.eq_false_iff]
    intro hp'
    exact absurd (hp hp') (Bool.eq_false_iff.mp (hpush c call hc))
  · exact hpush e call₂ he

theorem Drained.moved (h : Drained s) (hS : Sound s) (hc : s.calls[c]? = some call)
    (hm : Moved s.shared c call.pc cell' pc' es) :
    Drained (s.put c cell' { call with pc := pc' }) := by
  obtain ⟨r, pc⟩ := call
  obtain ⟨hfits, hholds⟩ := hS.knows c _ hc
  cases hm with
  | takes =>
    -- the winner has the lock, so no poll is about to register
    intro d call' _ _
    refine ⟨rfl, fun e call₂ he => ?_⟩
    rw [getElem?_put hc] at he
    split_ifs at he with hec
    · cases he
      rfl
    · rw [Bool.eq_false_iff]
      intro hp
      have hlock : Pc.holds call₂.pc = true := by
        cases hpc : call₂.pc <;> rw [hpc] at hp <;> first | rfl | cases hp
      have hsame := ((hS.knows e call₂ he).2.mpr hlock).symm.trans (hholds.mpr rfl)
      exact hec (some.inj hsame)
  | missesAgain w hr =>
    -- the value is not there yet, so the waiters were not taken
    intro d call' hd ht
    rw [getElem?_put hc] at hd
    split_ifs at hd with hdc
    · cases hd
      cases ht
    · exact absurd (ready_of_taken (hS.knows d call' hd).1 ht) hr
  | pushes =>
    intro d call' hd ht
    rw [getElem?_put hc] at hd
    split_ifs at hd with hdc
    · cases hd
      cases ht
    · exact absurd ((h d call' hd ht).2 c _ hc) (by simp [Pc.pushing])
  | _ => exact h.keep hc rfl (fun ht => by first | rfl | cases ht) nofun

theorem drained_new : Drained (new : Sys T) := nofun

theorem drained_step (h : Drained s) (hS : Sound s) (hs : step s op = some (s', es)) :
    Drained s' := by
  obtain ⟨r, rfl, rfl⟩ | ⟨c, call, cell', pc', -, hc, hm, rfl⟩ := step_moved hs
  · have hentry : Pc.taken r.entry = false ∧ Pc.pushing r.entry = false := by
      cases r <;> exact ⟨rfl, rfl⟩
    intro d call' hd ht
    rw [getElem?_start] at hd
    split_ifs at hd with hdc
    · cases hd
      exact absurd (hentry.1.symm.trans ht) Bool.false_ne_true
    · obtain ⟨hnil, hpush⟩ := h d call' hd ht
      refine ⟨hnil, fun e call₂ he => ?_⟩
      rw [getElem?_start] at he
      split_ifs at he with hec
      · cases he
        exact hentry.2
      · exact hpush e call₂ he
  · exact h.moved hS hc hm

theorem drained_run (h : Run step C (new : Sys T) tr s) : Drained s :=
  (h.along (I := fun _ s => Sound s) fun _ _ h => sound_run h).inv drained_new
    fun _ _ _ _ _ hD hC hs => drained_step hD hC.2 hs

/-! ## What is owed to a waker -/

/-- The wakers it is to wake. -/
def Pc.waking : Pc T → List Waker
  | .wakeAll ws => ws
  | _ => []

/-- **A waker is in the list**, or the winner has still to wake it. -/
def Owed (s : Sys T) (w : Waker) : Prop :=
  w ∈ s.shared.waiters ∨
    ∃ (c : ℕ) (call : Call T), s.calls[c]? = some call ∧ w ∈ Pc.waking call.pc

theorem Owed.keep (h : Owed s w) (hc : s.calls[c]? = some call)
    (hw : w ∈ s.shared.waiters → w ∈ cell'.waiters ∨ w ∈ Pc.waking pc')
    (hk : w ∈ Pc.waking call.pc → w ∈ Pc.waking pc') :
    Owed (s.put c cell' { call with pc := pc' }) w := by
  have hself : (s.put c cell' { call with pc := pc' }).calls[c]? =
      some { call with pc := pc' } := by
    rw [getElem?_put hc, if_pos rfl]
  rcases h with h | ⟨d, call', hd, h⟩
  · exact (hw h).imp id fun h => ⟨c, _, hself, h⟩
  · by_cases hdc : d = c
    · subst hdc
      rw [hc] at hd
      cases hd
      exact .inr ⟨d, _, hself, hk h⟩
    · exact .inr ⟨d, call', by rw [getElem?_put hc, if_neg hdc]; exact hd, h⟩

theorem Owed.moved (h : Owed s w) (hc : s.calls[c]? = some call)
    (hm : Moved s.shared c call.pc cell' pc' es) :
    Owed (s.put c cell' { call with pc := pc' }) w ∨ .woke w ∈ es := by
  obtain ⟨r, pc⟩ := call
  cases hm with
  | takes => exact .inl (h.keep hc .inr nofun)
  | wakes v =>
    by_cases hv : w = v
    · exact .inr (by rw [hv]; exact mem_singleton_self _)
    · refine .inl (h.keep hc .inl fun hmem => ?_)
      exact (mem_cons.mp hmem).resolve_left hv
  | pushes v =>
    refine .inl (h.keep hc (fun hmem => .inl ?_) nofun)
    change w ∈ if v ∈ s.shared.waiters then s.shared.waiters else s.shared.waiters ++ [v]
    split_ifs
    · exact hmem
    · exact mem_append_left _ hmem
  | _ => exact .inl (h.keep hc .inl nofun)

theorem Owed.start (h : Owed s w) (r : Req T) : Owed (s.start ⟨r, r.entry⟩) w := by
  refine h.imp id fun ⟨d, call', hd, h⟩ => ⟨d, call', ?_, h⟩
  rw [getElem?_start, if_neg (Nat.ne_of_lt (Lib.Arena.lt_length hd))]
  exact hd

/-- It has pushed its waker. -/
def Pc.pushed : Pc T → Bool
  | .waitPending | .returned .pending => true
  | _ => false

/-- **Every poll that has registered its waker** is owed a wakeup, or was woken since it began. -/
def Minded (tr : List (Ev T)) (s : Sys T) : Prop :=
  ∀ l m p w, tr = l ++ .call p (.wait w) :: m → ∀ pc, s.calls[p]? = some ⟨.wait w, pc⟩ →
    Pc.pushed pc = true → Owed s w ∨ .woke w ∈ m

theorem pushed_moved (hS : Sound s) (hc : s.calls[c]? = some ⟨.wait w, pc⟩)
    (hm : Moved s.shared c pc cell' pc' es) (hp : Pc.pushed pc' = true) :
    Pc.pushed pc = true ∨ w ∈ cell'.waiters := by
  obtain ⟨hfits, -⟩ := hS.knows c _ hc
  cases hm with
  | pushes v =>
    rw [Req.wait.inj hfits]
    right
    change v ∈ if v ∈ s.shared.waiters then s.shared.waiters else s.shared.waiters ++ [v]
    split_ifs with hv
    · exact hv
    · exact mem_append_right _ (mem_singleton_self v)
  | pends => exact .inl rfl
  | undefined hv => exact absurd hv (hS.value (hfits rfl))
  | waitUndefined hv => exact absurd hv (hS.value hfits)
  | _ => cases hp

theorem minded_step (h : Minded tr s) (hS : Sound s) (hs : step s op = some (s', es)) :
    Minded (tr ++ es) s' := by
  intro l m p w heq pc₁ hp hpush
  obtain ⟨r, rfl, rfl⟩ | ⟨c, call, cell', pc', -, hc, hm, rfl⟩ := step_moved hs
  · rw [getElem?_start] at hp
    split_ifs at hp with hpc
    · -- the new call has not registered anything
      cases hp
      cases hpush
    · rcases split_append heq with ⟨m', htr, rfl⟩ | ⟨m', -, hm'⟩
      · refine (h l m' p w htr pc₁ hp hpush).imp (fun h => h.start r) fun h => ?_
        exact mem_append_left _ h
      · have hmem : Ev.call p (.wait w) ∈ [(.call s.calls.length r : Ev T)] := by
          rw [hm']
          exact mem_append_right _ mem_cons_self
        rw [mem_singleton, Ev.call.injEq] at hmem
        exact absurd hmem.1 hpc
  · rcases split_append heq with ⟨m', htr, rfl⟩ | ⟨m', -, hm'⟩
    · have hold : ∀ {pc₀}, s.calls[p]? = some ⟨.wait w, pc₀⟩ → Pc.pushed pc₀ = true →
          Owed (s.put c cell' { call with pc := pc' }) w ∨ .woke w ∈ m' ++ es := by
        intro pc₀ hp₀ hpush₀
        rcases h l m' p w htr pc₀ hp₀ hpush₀ with h | h
        · exact (h.moved hc hm).imp id (mem_append_right _)
        · exact .inr (mem_append_left _ h)
      rw [getElem?_put hc] at hp
      split_ifs at hp with hpc
      · subst hpc
        obtain ⟨r, pc⟩ := call
        cases hp
        rcases pushed_moved hS hc hm hpush with hpush₀ | hw
        · exact hold hc hpush₀
        · exact .inl (.inl hw)
      · exact hold hp hpush
    · refine absurd ?_ (hm.no_call (d := p) (r := .wait w))
      rw [hm']
      exact mem_append_right _ mem_cons_self

theorem minded_run (h : Run step C (new : Sys T) tr s) : Minded tr s :=
  (h.along (I := fun _ s => Sound s) fun _ _ h => sound_run h).inv
    nofun fun _ _ _ _ _ hM hC hs => minded_step hM hC.2 hs

/-! ## Polls that begin after the value was published -/

theorem ready_step (hS : Sound s) (hs : step s op = some (s', es))
    (h : s.shared.state = .ready ∨ .published ∈ es) : s'.shared.state = .ready := by
  obtain ⟨r, rfl, rfl⟩ | ⟨c, ⟨r, pc⟩, cell', pc', -, hc, hm, rfl⟩ := step_moved hs
  · exact h.resolve_right (by simp)
  · obtain ⟨hfits, -⟩ := hS.knows c _ hc
    change cell'.state = .ready
    cases hm with
    | stores => rfl
    | wins v he => exact absurd (he.symm.trans (h.resolve_right (by simp))) (by decide)
    | _ => exact h.resolve_right (by simp)

/-- What is published stays so. -/
theorem ready_run (h : Run step C (new : Sys T) tr s) : .published ∈ tr → s.shared.state = .ready :=
  (h.along (I := fun _ s => Sound s) fun _ _ h => sound_run h).inv
    (I := fun tr s => .published ∈ tr → s.shared.state = .ready) nofun
    fun _ _ _ _ _ ih hC hs hp => ready_step hC.2 hs ((mem_append.mp hp).imp_left ih)

/-- Where a poll can be that has found the value, or has still to look for it. -/
def Pc.late : Pc T → Bool
  | .waitLoad _ | .waitDeref | .returned (.ready _) => true
  | _ => false

theorem late_moved (hS : Sound s) (hready : s.shared.state = .ready)
    (hm : Moved s.shared c pc cell' pc' es) (hl : Pc.late pc = true) : Pc.late pc' = true := by
  cases hm with
  | finds => rfl
  | misses w hr => exact absurd hready hr
  | waits => rfl
  | waitUndefined hv => exact absurd hv (hS.value hready)
  | _ => cases hl

theorem late_run (h : Run step C (new : Sys T) tr s) {l m : List (Ev T)}
    (heq : tr = l ++ .published :: m) (hcall : .call p (.wait w) ∈ m) :
    Has s p fun call => Pc.late call.pc = true := by
  refine h.after (P := fun e => e = .published) (Q := fun e => e = .call p (.wait w))
    (K := fun s => Sound s ∧ s.shared.state = .ready)
    (L := fun s => Has s p fun call => Pc.late call.pc = true)
    ?_ ?_ ?_ ?_ l _ m heq rfl ⟨_, hcall, rfl⟩
  · rintro tr s h ⟨_, hp, rfl⟩
    exact ⟨sound_run h, ready_run h hp⟩
  · rintro tr s op s' es _ hs - ⟨_, hp, rfl⟩
    obtain ⟨r, rfl, rfl⟩ | ⟨c, call, cell', pc', -, -, hm, -⟩ := step_moved hs
    · rw [mem_singleton, Ev.call.injEq] at hp
      obtain ⟨rfl, rfl⟩ := hp
      exact has_start rfl
    · exact absurd hp hm.no_call
  · intro tr s op s' es _ hs hK hL
    exact has_step hL hs fun _ _ _ _ hcall hm => late_moved hK.1 hK.2 hm hcall
  · rintro tr s op s' es _ hs ⟨_, hpub, rfl⟩ _ hp rfl
    obtain ⟨r, -, rfl⟩ | ⟨c, call, cell', pc', -, -, hm, -⟩ := step_moved hs
    · simp at hpub
    · exact hm.no_call hp

/-! ## The result -/

/-- **`SetOnce` loses no waiter**: when the winning `set` has returned, the waker of every poll of
`wait` that returned `Pending` was woken since the poll began, and no poll that began after the
value was published returns `Pending`. -/
theorem set_once_wakes (h : Run step Any (new : Sys T) tr s) :
    (∀ l m p w, tr = l ++ .call p (.wait w) :: m → .ret p .pending ∈ m →
      ∀ c, .ret c .stored ∈ tr → .woke w ∈ m) ∧
    ∀ l m p w, tr = l ++ .published :: m → .call p (.wait w) ∈ m → .ret p .pending ∉ tr := by
  constructor
  · rintro l m p w rfl hret c hstored
    have hret' := returned_run h
      (mem_append_right l (mem_cons_of_mem (.call p (.wait w)) hret))
    have hcall := requested_run h (mem_append_right l mem_cons_self)
    obtain ⟨⟨_, _⟩, hp, rfl, rfl⟩ := hcall.and hret'
    obtain ⟨⟨r, _⟩, hc, rfl⟩ := returned_run h hstored
    refine (minded_run h l m p w rfl _ hp rfl).resolve_left ?_
    -- the winner has taken the list, and is done with it
    rintro (hw | ⟨d, call, hd, hw⟩)
    · rw [(drained_run h c _ hc rfl).1] at hw
      cases hw
    · have hwon : Pc.won call.pc = true := by
        cases hpc : call.pc <;> rw [hpc] at hw <;> first | rfl | cases hw
      have hdc : d = c := (sound_run h).unique hd hc hwon rfl
      rw [hdc, hc] at hd
      cases hd
      cases hw
  · intro l m p w heq hcall hret
    obtain ⟨call, -, hl, hpc⟩ := (late_run h heq hcall).and (returned_run h hret)
    rw [hpc] at hl
    cases hl

theorem set_once_wakes_one : ∃ s l m, Run step Any (new : Sys ℕ) (l ++ .call 0 (.wait 7) :: m) s ∧
    .ret 0 .pending ∈ m ∧ .ret 1 .stored ∈ l ++ .call 0 (.wait 7) :: m ∧ .woke 7 ∈ m := by
  obtain ⟨s, m, hrun, hret, hstored⟩ : ∃ s m,
      Run step Any (new : Sys ℕ) ([] ++ .call 0 (.wait 7) :: m) s ∧ .ret 0 .pending ∈ m ∧
      .ret 1 .stored ∈ [] ++ .call 0 (.wait 7) :: m := by
    refine ⟨_, [.call 1 (.set 5), .published, .ret 0 .pending, .woke 7, .ret 1 .stored],
      run_exec [.start (.wait 7), .start (.set 5), .advance 0, .advance 0, .advance 0, .advance 1,
        .advance 1, .advance 1, .advance 0, .advance 0, .advance 1, .advance 1, .advance 1,
        .advance 1] rfl, ?_⟩
    decide
  exact ⟨s, [], m, hrun, hret, hstored, (set_once_wakes hrun).1 [] m 0 7 rfl hret 1 hstored⟩

end OhosFfrt.SetOnce.Waiters
