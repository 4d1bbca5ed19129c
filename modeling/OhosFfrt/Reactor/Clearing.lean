import OhosFfrt.Reactor.Registry

/-!
# `reactor`: `clear_ready` and stale callbacks

The generation counts the stores of callbacks and of recorded errors, and nothing else changes it.
So a generation that is found again, less than `2 ^ 32` of these later, says that there was none of
them, and then what is cached can only have become less (`clear_never_newer`).
-/

namespace OhosFfrt.Reactor.Clearing

open Lib.Arena Lib.Mask Lib.Runs Reactor.State List Option
open Reactor.Registry

variable {s s' : Sys} {op : Op} {tr es m : List Ev} {call call' call₂ : Call} {c c₂ k : ℕ}
  {e e' : Entry} {io io' : ScheduledIo} {generation : BitVec 32}

/-! ## The tokens -/

/-- **The tokens are the numbers of the descriptors**, and the registry has no others. -/
structure Numbered (s : Sys) : Prop where
  next : s.next = s.entries.length + 1
  tokens : ∀ (k : ℕ) (e : Entry), s.entries[k]? = some e → e.token = k + 1
  registry : ∀ token k, s.registry token = some k → token = k + 1 ∧ k < s.entries.length

theorem registryAfter_some {token : ℕ} (h : s.registryAfter call e token = some k) :
    s.registry token = some k := by
  unfold Sys.registryAfter at h
  split_ifs at h
  · by_cases ht : token = e.token
    · rw [ht, Function.update_self] at h
      cases h
    · rwa [Function.update_of_ne ht] at h
  · exact h

theorem Numbered.set {registry : ℕ → Option ℕ} {calls : List Call} (h : Numbered s)
    (here : s.entries[k]? = some e) (htoken : e'.token = e.token)
    (hr : ∀ token j, registry token = some j → s.registry token = some j) :
    Numbered { s with registry := registry, entries := s.entries.set k e', calls := calls } := by
  refine ⟨?_, fun j e₂ he => ?_, fun token j hj => ?_⟩
  · rw [length_set]
    exact h.next
  · rcases of_set here he with ⟨rfl, rfl⟩ | ⟨-, he⟩
    · exact htoken.trans (h.tokens _ e here)
    · exact h.tokens j e₂ he
  · rw [length_set]
    exact h.registry token j (hr token j hj)

theorem Numbered.moved (h : Numbered s) (hm : Moved s op s' es) : Numbered s' := by
  cases hm with
  | register =>
    have hlen := h.next
    refine ⟨?_, fun k e he => ?_, fun token k hk => ?_⟩
    · rw [length_append, hlen]
      rfl
    · rcases of_snoc he with he | ⟨rfl, rfl⟩
      · exact h.tokens k e he
      · exact hlen
    · have hk : Function.update s.registry s.next (some s.entries.length) token = some k := hk
      rw [length_append]
      by_cases ht : token = s.next
      · rw [ht, Function.update_self] at hk
        cases hk
        exact ⟨ht.trans hlen, Nat.lt_succ_self _⟩
      · rw [Function.update_of_ne ht] at hk
        obtain ⟨htoken, hlt⟩ := h.registry token k hk
        exact ⟨htoken, Nat.lt_succ_of_lt hlt⟩
  | pollReady here => exact h.set here rfl fun _ _ hj => hj
  | tryIo | missed => exact h
  | arrived | call => exact ⟨h.next, h.tokens, h.registry⟩
  | go called here next => exact h.set here next.token_eq fun _ _ => registryAfter_some

/-! ## The lock -/

/-- A call is as it should be: it holds the lock if it is past it, and what it is about to store is
what it should store. -/
structure CallOk (c : ℕ) (call : Call) (e : Entry) : Prop where
  held : call.phase.holds = true → e.holder = some c
  prepared : ∀ generation ready, call.phase = .storing generation ready →
    Prepared call.origin e.io generation ready

theorem callOk_of_not_holds (h : call.phase.holds = false) : CallOk c call e := by
  refine ⟨fun hholds => ?_, fun generation ready hphase => ?_⟩
  · rw [h] at hholds
    cases hholds
  · rw [hphase] at h
    cases h

theorem prepared_congr {origin : Origin} {ready : Mask}
    (h : Prepared origin io generation ready) (hsame : io'.readiness = io.readiness) :
    Prepared origin io' generation ready := by
  have hready : io'.ready = io.ready := congrArg (fun r => (unpackReadiness r).2) hsame
  have hgeneration : io'.generation = io.generation :=
    congrArg (fun r => (unpackReadiness r).1) hsame
  unfold Prepared at h ⊢
  rw [hready, hgeneration]
  exact h

theorem CallOk.next (h : CallOk c call e) (hn : Next call c e call' e' es) :
    CallOk c call' e' := by
  cases hn with
  | refuse | record => exact callOk_of_not_holds rfl
  | enter | deregister => exact ⟨fun _ => rfl, nofun⟩
  | prepare generation ready start free registered prepared =>
    refine ⟨fun _ => rfl, fun generation' ready' hphase => ?_⟩
    cases hphase
    exact prepared
  | store generation ready storing =>
    have hheld := h.held (by rw [storing]; rfl)
    exact ⟨fun _ => hheld, nofun⟩
  | quiet call' e' later live entry readiness registered token kept held calm =>
    refine ⟨fun hnow => ?_, fun generation ready hphase => absurd hphase (calm _ _)⟩
    obtain ⟨hsame, hholds⟩ := held hnow
    rw [hsame, h.held hholds]

theorem CallOk.other (h : CallOk c call e) (hn : Next call c e call' e' es) (hne : c₂ ≠ c)
    (h₂ : CallOk c₂ call₂ e) : CallOk c₂ call₂ e' := by
  rcases hholds : call₂.phase.holds with _ | _
  · exact callOk_of_not_holds hholds
  · have hholder := h₂.held hholds
    -- the other call does not hold the lock, and cannot take it
    have hnot : call.phase.holds = false := by
      by_contra hcall
      rw [Bool.not_eq_false] at hcall
      rw [h.held hcall, some.injEq] at hholder
      exact hne hholder.symm
    have hfree : e.holder ≠ none := by
      rw [hholder]
      nofun
    cases hn with
    | refuse => exact h₂
    | enter _ free _ | prepare _ _ _ free _ _ | deregister _ free _ => exact absurd free hfree
    | store _ _ phase | record phase =>
      rw [phase] at hnot
      cases hnot
    | quiet call' e' later live entry readiness registered token kept =>
      refine ⟨fun _ => (kept hnot).trans hholder, fun generation ready hphase => ?_⟩
      exact prepared_congr (h₂.prepared generation ready hphase) readiness

/-- **Every call is as it should be.** -/
structure Locked (s : Sys) : Prop where
  inside : ∀ (c : ℕ) (call : Call), s.calls[c]? = some call → call.entry < s.entries.length
  ok : ∀ (c : ℕ) (call : Call) e, s.calls[c]? = some call → s.entries[call.entry]? = some e →
    CallOk c call e

theorem Locked.newCall (h : Locked s) (hk : k < s.entries.length) (origin : Origin) :
    Locked (s.call origin k) := by
  refine ⟨fun c call hc => ?_, fun c call e hc he => ?_⟩
  · rcases of_snoc hc with hc | ⟨-, rfl⟩
    · exact h.inside c call hc
    · exact hk
  · rcases of_snoc hc with hc | ⟨-, rfl⟩
    · exact h.ok c call e hc he
    · exact callOk_of_not_holds rfl

theorem Locked.moved (h : Locked s) (hreg : Numbered s) (hm : Moved s op s' es) : Locked s' := by
  cases hm with
  | register =>
    refine ⟨fun c call hc => ?_, fun c call e hc he => ?_⟩
    · rw [length_append]
      rcases of_snoc hc with hc | ⟨-, rfl⟩
      · have := h.inside c call hc
        omega
      · exact Nat.lt_succ_self _
    · rcases of_snoc hc with hc | ⟨-, rfl⟩
      · rw [getElem?_append_left (h.inside c call hc)] at he
        exact h.ok c call e hc he
      · exact callOk_of_not_holds rfl
  | @pollReady k w i e₀ waiters here =>
    refine ⟨fun c call hc => ?_, fun c call e hc he => ?_⟩
    · rw [length_set]
      exact h.inside c call hc
    · rcases of_set here he with ⟨hk, rfl⟩ | ⟨-, he⟩
      · have hold := h.ok c call e₀ hc (hk ▸ here)
        exact ⟨hold.held, fun _ _ hphase => prepared_congr (hold.prepared _ _ hphase) rfl⟩
      · exact h.ok c call e hc he
  | tryIo | missed => exact h
  | arrived found => exact h.newCall (hreg.registry _ _ found).2 _
  | call here => exact h.newCall (lt_length here) _
  | @go c₀ ctl call₀ call₀' e₀ e₀' es called here next =>
    refine ⟨fun c call hc => ?_, fun c call e hc he => ?_⟩
    · rw [length_set]
      rcases of_set called hc with ⟨rfl, rfl⟩ | ⟨-, hc⟩
      · rw [next.entry_eq]
        exact h.inside _ _ called
      · exact h.inside c call hc
    · have hok := h.ok _ _ _ called here
      rcases of_set called hc with ⟨rfl, rfl⟩ | ⟨hne, hold⟩
      · rcases of_set here he with ⟨-, rfl⟩ | ⟨hne, -⟩
        · exact hok.next next
        · exact absurd next.entry_eq hne
      · rcases of_set here he with ⟨hk, rfl⟩ | ⟨-, he⟩
        · exact hok.other next hne (h.ok c call e₀ hold (hk ▸ here))
        · exact h.ok c call e hold he

theorem sound_run (h : Run step Any new tr s) : Numbered s ∧ Locked s := by
  refine h.inv (I := fun _ (s : Sys) => Numbered s ∧ Locked s) ?_ ?_
  · exact ⟨⟨rfl, nofun, nofun⟩, nofun, nofun⟩
  · rintro tr s op s' es ⟨hnum, hlock⟩ - hs
    exact ⟨hnum.moved (step_moved hs), hlock.moved hnum (step_moved hs)⟩

/-! ## The generation -/

/-- An event that changes the generation of the descriptor `k`. -/
def bump (k : ℕ) : Ev → Bool
  | .called j | .recorded j => decide (j = k)
  | _ => false

/-- The new generations of `k`. -/
def bumps (k : ℕ) (tr : List Ev) : ℕ := tr.countP (bump k)

/-- **What a step does to the readiness** of the descriptor `k`. -/
structure Shift (k : ℕ) (io io' : ScheduledIo) (es : List Ev) : Prop where
  generation : io'.generation = io.generation + BitVec.ofNat 32 (bumps k es)
  ready : bumps k es = 0 → Within io'.ready io.ready

theorem within_refl (a : Mask) : Within a a := within_iff.mpr fun _ h => h

theorem shift_same (hsame : io'.readiness = io.readiness) (hes : bumps k es = 0) :
    Shift k io io' es := by
  have hready : io'.ready = io.ready := congrArg (fun r => (unpackReadiness r).2) hsame
  have hgeneration : io'.generation = io.generation :=
    congrArg (fun r => (unpackReadiness r).1) hsame
  refine ⟨?_, fun _ => ?_⟩
  · rw [hgeneration, hes]
    exact (BitVec.add_zero _).symm
  · rw [hready]
    exact within_refl _

theorem generation_store (io : ScheduledIo) (generation : BitVec 32) (ready : Mask) :
    (io.store generation ready).generation = generation := by
  unfold ScheduledIo.generation ScheduledIo.store
  rw [unpack_pack]

theorem shift_next (h : CallOk c call e) (hn : Next call c e call' e' es) :
    Shift call.entry e.io e'.io es := by
  cases hn with
  | refuse | enter | prepare | deregister => exact shift_same rfl rfl
  | store generation ready storing =>
    have hprepared := h.prepared generation ready storing
    unfold Prepared at hprepared
    unfold Call.stored
    split at hprepared
    · next horigin =>
      obtain ⟨hgeneration, -⟩ := hprepared
      rw [horigin]
      have hone : bumps call.entry [.called call.entry] = 1 := by simp [bumps, bump]
      refine ⟨?_, fun h0 => ?_⟩
      · rw [hone, generation_store, hgeneration]
        rfl
      · rw [hone] at h0
        cases h0
    · next horigin =>
      obtain ⟨hgeneration, hsame, hready⟩ := hprepared
      rw [horigin]
      refine ⟨?_, fun _ => ?_⟩
      · rw [generation_store, hgeneration, hsame]
        exact (BitVec.add_zero _).symm
      · rw [ready_store, hready]
        exact within_iff.mpr fun j hj => by
          rw [BitVec.getLsbD_and, Bool.and_eq_true] at hj
          exact hj.1
    · cases hprepared
  | record =>
    have hone : bumps call.entry [.recorded call.entry] = 1 := by simp [bumps, bump]
    refine ⟨?_, fun h0 => ?_⟩
    · rw [hone]
      exact generation_store _ _ _
    · rw [hone] at h0
      cases h0
  | quiet call' e' later live entry readiness =>
    exact shift_same readiness rfl

theorem bumps_other (hn : Next call c e call' e' es) (hk : k ≠ call.entry) : bumps k es = 0 := by
  cases hn with
  | store =>
    unfold Call.stored
    split
    · simp [bumps, bump, Ne.symm hk]
    · rfl
  | record => simp [bumps, bump, Ne.symm hk]
  | _ => rfl

theorem bumps_seen (k j : ℕ) (io : ScheduledIo) (i : Interest) : bumps k (seen j io i) = 0 := by
  unfold seen
  split_ifs <;> rfl

theorem entry_step (hm : Moved s op s' es) (hk : s.entries[k]? = some e) :
    ∃ e', s'.entries[k]? = some e' ∧
      (e'.io.readiness = e.io.readiness ∧ e'.io.registered = e.io.registered ∧ bumps k es = 0 ∨
        ∃ c call call', s.calls[c]? = some call ∧ call.entry = k ∧ Next call c e call' e' es) := by
  have hlt := lt_length hk
  cases hm with
  | register =>
    exact ⟨e, by rw [List.getElem?_append_left hlt, hk], Or.inl ⟨rfl, rfl, rfl⟩⟩
  | @pollReady k₀ w i e₀ waiters here =>
    by_cases hne : k = k₀
    · subst hne
      obtain rfl := some.inj (hk.symm.trans here)
      exact ⟨_, getElem?_set_self hlt, .inl ⟨rfl, rfl, bumps_seen _ _ _ _⟩⟩
    · exact ⟨e, by rw [getElem?_set_ne (Ne.symm hne), hk],
        .inl ⟨rfl, rfl, bumps_seen _ _ _ _⟩⟩
  | tryIo => exact ⟨e, hk, .inl ⟨rfl, rfl, bumps_seen _ _ _ _⟩⟩
  | missed | arrived | call => exact ⟨e, hk, .inl ⟨rfl, rfl, rfl⟩⟩
  | @go c₀ ctl call₀ call₀' e₀ e₀' es called here next =>
    by_cases hne : k = call₀.entry
    · subst hne
      obtain rfl := some.inj (hk.symm.trans here)
      exact ⟨_, getElem?_set_self hlt, .inr ⟨c₀, call₀, call₀', called, rfl, next⟩⟩
    · exact ⟨e, by rw [getElem?_set_ne (Ne.symm hne), hk],
        .inl ⟨rfl, rfl, bumps_other next hne⟩⟩

theorem shift_step (hL : Locked s) (hm : Moved s op s' es) (hk : s.entries[k]? = some e) :
    ∃ e', s'.entries[k]? = some e' ∧ Shift k e.io e'.io es := by
  obtain ⟨e', he', ⟨hsame, -, hes⟩ | ⟨c, call, call', hcall, rfl, hnext⟩⟩ := entry_step hm hk
  · exact ⟨e', he', shift_same hsame hes⟩
  · exact ⟨e', he', shift_next (hL.ok _ _ _ hcall hk) hnext⟩

/-! ## Observations -/

/-- **What an observation says now**: the generation has moved with the events since, and without
any of them what is cached is at most what was cached then. -/
def Remembered (tr : List Ev) (s : Sys) : Prop :=
  ∀ l k cached ready generation m, tr = l ++ .observed k cached ready generation :: m →
    ∃ e, s.entries[k]? = some e ∧ e.io.generation = generation + BitVec.ofNat 32 (bumps k m) ∧
      (bumps k m = 0 → Within e.io.ready cached)

theorem mem_seen {x : Ev} {j : ℕ} {i : Interest} {l : List Ev} (h : seen j io i = l ++ x :: m) :
    m = [] ∧ x = .observed j io.ready (io.ready &&& (i.bits ||| errorEvents)) io.generation := by
  unfold seen at h
  split_ifs at h
  · obtain ⟨rfl, rfl⟩ := split_singleton h
    exact ⟨(List.cons.inj h).2.symm, rfl⟩
  · cases l <;> cases h

/-- **The events of a step**: an observation, the arrival of a callback, or those of a call that
goes on, which are neither. -/
theorem event_step {x : Ev} {l : List Ev} (hm : Moved s op s' es) (hes : es = l ++ x :: m) :
    (∃ k e i, m = [] ∧ x = .observed k e.io.ready (e.io.ready &&& (Interest.bits i ||| errorEvents))
      e.io.generation ∧ s.entries[k]? = some e ∧
      ∃ e', s'.entries[k]? = some e' ∧ e'.io.readiness = e.io.readiness) ∨
    (∃ token k events, l = [] ∧ x = .arrived s.calls.length token ∧ s.registry token = some k ∧
      s'.calls[s.calls.length]? = some ⟨.callback token events, k, .start⟩) ∨
    (∃ j, x = .called j ∨ x = .recorded j) ∨
    ∃ k e e', x = .deregistered k e.token ∧ s.entries[k]? = some e ∧ s'.entries[k]? = some e' ∧
      e'.io.registered = false := by
  cases hm with
  | register | missed | call => cases l <;> cases hes
  | @pollReady k₀ w i e₀ waiters here =>
    obtain ⟨rfl, hx⟩ := mem_seen hes
    exact .inl ⟨k₀, e₀, i, rfl, hx, here, _,
      get_set here, rfl⟩
  | @tryIo k₀ i e₀ here =>
    obtain ⟨rfl, hx⟩ := mem_seen hes
    exact .inl ⟨k₀, e₀, i, rfl, hx, here, e₀, here, rfl⟩
  | @arrived token k events found =>
    obtain ⟨rfl, hx⟩ := split_singleton hes
    exact .inr (.inl ⟨token, k, events, rfl, hx, found,
      getElem?_concat_length⟩)
  | @go c₀ ctl call₀ call₀' e₀ e₀' es called here next =>
    have hx : x ∈ es := hes ▸ mem_append_right l mem_cons_self
    refine .inr (.inr ?_)
    cases next with
    | deregister =>
      exact .inr ⟨call₀.entry, e₀, _, mem_singleton.mp hx, here,
        get_set here, rfl⟩
    | store =>
      unfold Call.stored at hx
      split at hx
      · exact .inl ⟨_, .inl (mem_singleton.mp hx)⟩
      · cases hx
    | record => exact .inl ⟨_, .inr (mem_singleton.mp hx)⟩
    | _ => cases hx

theorem bumps_append (k : ℕ) (l m : List Ev) : bumps k (l ++ m) = bumps k l + bumps k m :=
  countP_append

theorem remembered_run (h : Run step Any new tr s) : Remembered tr s := by
  have h' := h.along (I := fun _ s => Locked s) fun _ _ h => (sound_run h).2
  refine h'.inv ?_ ?_
  · intro l k cached ready generation m heq
    cases l <;> cases heq
  · rintro tr s op s' es hI ⟨-, hL⟩ hs
    have hm := step_moved hs
    intro l k cached ready generation m heq
    rcases split_append heq with ⟨m', htr, rfl⟩ | ⟨l', -, hes⟩
    · -- an observation of before
      obtain ⟨e, he, hgeneration, hready⟩ := hI l k cached ready generation m' htr
      obtain ⟨e', he', hshift⟩ := shift_step hL hm he
      refine ⟨e', he', ?_, fun h0 => ?_⟩
      · rw [hshift.generation, hgeneration, bumps_append, BitVec.ofNat_add, BitVec.add_assoc]
      · rw [bumps_append] at h0
        have hnow := within_iff.mp (hshift.ready (by omega))
        have hthen := within_iff.mp (hready (by omega))
        exact within_iff.mpr fun j hj => hthen j (hnow j hj)
    · -- one that is made now
      rcases event_step hm hes with ⟨k₀, e, i, rfl, hx, -, e', he', hsame⟩ |
        ⟨token, k₀, events, -, hx, -⟩ | ⟨j, hx | hx⟩ | ⟨k₀, e, e', hx, -⟩ <;> cases hx
      have hshift : Shift k e.io e'.io [] := shift_same hsame rfl
      exact ⟨e', he', hshift.generation, hshift.ready⟩

/-! ## Stale callbacks -/

theorem next_registered_false (hn : Next call c e call' e' es) (h : e.io.registered = false) :
    e'.io.registered = false := by
  cases hn with
  | quiet _ _ _ _ _ _ registered => exact registered.trans h
  | deregister => rfl
  | _ => exact h

/-- What is known of descriptors that are deregistered, and of the callbacks that arrive after
that. -/
structure Stale (tr : List Ev) (s : Sys) : Prop where
  gone : ∀ k token, .deregistered k token ∈ tr →
    token = k + 1 ∧ ∃ e, s.entries[k]? = some e ∧ e.io.registered = false
  late : ∀ l c token m k, tr = l ++ .arrived c token :: m → .deregistered k token ∈ l →
    ∃ call, s.calls[c]? = some call ∧ call.entry = k ∧ call.origin ≠ .register ∧
      (call.phase = .start ∨ call.phase = .over)

theorem registered_false_step (hm : Moved s op s' es) (hk : s.entries[k]? = some e)
    (h : e.io.registered = false) : ∃ e', s'.entries[k]? = some e' ∧ e'.io.registered = false := by
  obtain ⟨e', he', ⟨-, hsame, -⟩ | ⟨c, call, call', -, -, hnext⟩⟩ := entry_step hm hk
  · exact ⟨e', he', hsame.trans h⟩
  · exact ⟨e', he', next_registered_false hnext h⟩

theorem go_next {ctl : Ctl} (hs : step s (.go c ctl) = some (s', es))
    (hcall : s.calls[c]? = some call) (he : s.entries[call.entry]? = some e) :
    ∃ call' e', Next call c e call' e' es ∧ s'.entries = s.entries.set call.entry e' := by
  cases step_moved hs with
  | call here own => rcases own with ⟨_, _, hop⟩ | hop <;> cases hop
  | go called here next =>
    obtain rfl := some.inj (hcall.symm.trans called)
    obtain rfl := some.inj (he.symm.trans here)
    exact ⟨_, _, next, rfl⟩

theorem next_stale (hn : Next call c e call' e' es) (hgone : e.io.registered = false)
    (horigin : call.origin ≠ .register) (hphase : call.phase = .start ∨ call.phase = .over) :
    call' = { call with phase := .over } ∧ e' = e := by
  cases hn with
  | refuse => exact ⟨rfl, rfl⟩
  | enter start free origin => exact absurd origin horigin
  | prepare _ _ _ _ registered _ | deregister _ _ registered =>
    rw [hgone] at registered
    cases registered
  | store _ _ phase | record phase =>
    rw [phase] at hphase
    exact absurd hphase (by simp)
  | quiet call' e' later live =>
    exact absurd hphase (not_or.mpr ⟨later, live⟩)

theorem call_step (hm : Moved s op s' es) (hc : s.calls[c]? = some call) :
    s'.calls[c]? = some call ∨ ∃ e call' e', s.entries[call.entry]? = some e ∧
      Next call c e call' e' es ∧ s'.calls[c]? = some call' := by
  have hlt := lt_length hc
  cases hm with
  | register => exact Or.inl (by rw [List.getElem?_append_left hlt, hc])
  | pollReady | tryIo | missed => exact .inl hc
  | arrived | call => exact .inl (by rw [Sys.call, getElem?_append_left hlt, hc])
  | @go c₀ ctl call₀ call₀' e₀ e₀' es called here next =>
    by_cases hne : c = c₀
    · subst hne
      obtain rfl := some.inj (hc.symm.trans called)
      exact .inr ⟨e₀, call₀', e₀', here, next, getElem?_set_self hlt⟩
    · exact .inl (by rw [getElem?_set_ne (Ne.symm hne), hc])

theorem stale_run (h : Run step Any new tr s) : Stale tr s := by
  have h' := h.along (I := fun _ s => Numbered s) fun _ _ h => (sound_run h).1
  refine h'.inv ?_ ?_
  · refine ⟨nofun, fun l c token m k heq => ?_⟩
    cases l <;> cases heq
  · rintro tr s op s' es hI ⟨-, hN⟩ hs
    have hm := step_moved hs
    refine ⟨fun k token hx => ?_, fun l c token m k heq hl => ?_⟩
    · rcases mem_append.mp hx with hx | hx
      · obtain ⟨htoken, e, he, hgone⟩ := hI.gone k token hx
        exact ⟨htoken, registered_false_step hm he hgone⟩
      · obtain ⟨l, m, hes⟩ := append_of_mem hx
        rcases event_step hm hes with ⟨k₀, e, i, -, hx, -⟩ | ⟨token', k₀, events, -, hx, -⟩ |
          ⟨j, hx | hx⟩ | ⟨k₀, e, e', hx, he, he', hgone⟩ <;> cases hx
        exact ⟨hN.tokens k e he, e', he', hgone⟩
    · rcases split_append heq with ⟨m', htr, -⟩ | ⟨l', rfl, hes⟩
      · obtain ⟨call, hcall, rfl, horigin, hphase⟩ := hI.late l c token m' k htr hl
        rcases call_step hm hcall with hsame | ⟨e, call', e', he, hnext, hcall'⟩
        · exact ⟨call, hsame, rfl, horigin, hphase⟩
        · have hgone := (hI.gone call.entry token (by rw [htr]; exact mem_append_left _ hl)).2
          obtain ⟨e₁, he₁, hgone⟩ := hgone
          obtain rfl := some.inj (he.symm.trans he₁)
          obtain ⟨rfl, -⟩ := next_stale hnext hgone horigin hphase
          exact ⟨_, hcall', rfl, horigin, .inr rfl⟩
      · rcases event_step hm hes with ⟨k₀, e, i, -, hx, -⟩ |
          ⟨token', k', events, rfl, hx, hfound, hcall⟩ | ⟨j, hx | hx⟩ | ⟨k₀, e, e', hx, -⟩ <;>
          cases hx
        rw [append_nil] at hl
        have htoken := (hI.gone k token hl).1
        have hk := (hN.registry token k' hfound).1
        have hsame : k' = k := by omega
        exact ⟨_, hcall, hsame, nofun, .inl rfl⟩

/-! ## The theorem -/

/-- **Which bits a step of `clear_ready` removes.** -/
theorem cleared_bit {ready : Mask} {j : ℕ} (h : CallOk c call e)
    (hn : Next call c e call' e' es) (horigin : call.origin = .clearReady ready generation)
    (hj : e.io.ready.getLsbD j = true) (hj' : e'.io.ready.getLsbD j = false) :
    ready.getLsbD j = true ∧ e.io.generation = generation := by
  -- only a store removes bits
  have hsame : e'.io.readiness ≠ e.io.readiness := by
    intro hsame
    have hready : e'.io.ready = e.io.ready := congrArg (fun r => (unpackReadiness r).2) hsame
    rw [hready, hj] at hj'
    cases hj'
  cases hn with
  | refuse | enter | prepare | deregister => exact absurd rfl hsame
  | store generation' ready' storing =>
    have hprepared := h.prepared generation' ready' storing
    rw [horigin] at hprepared
    obtain ⟨-, hgeneration, rfl⟩ := hprepared
    have hlt := BitVec.lt_of_getLsbD hj
    rw [ready_store, BitVec.getLsbD_and, hj, Bool.true_and, BitVec.getLsbD_not] at hj'
    refine ⟨?_, hgeneration⟩
    simpa [hlt] using hj'
  | record =>
    have hrecorded : (e.io.recordError).ready = e.io.ready ||| epollErr := ready_store _ _ _
    have hkept : (e.io.recordError).ready.getLsbD j = false := hj'
    rw [hrecorded, BitVec.getLsbD_or, hj] at hkept
    cases hkept
  | quiet call' e' later live entry readiness =>
    exact absurd readiness hsame

theorem bumps_zero (hlt : bumps k m < 2 ^ 32)
    (h : generation = generation + BitVec.ofNat 32 (bumps k m)) : bumps k m = 0 := by
  have hzero : BitVec.ofNat 32 (bumps k m) = 0#32 := by simpa using h
  have hnat := congrArg BitVec.toNat hzero
  rwa [BitVec.toNat_ofNat, Nat.mod_eq_of_lt hlt] at hnat

/-- **`clear_ready` never erases newer readiness, and stale callbacks change nothing.**  A step of a
call of `clear_ready` removes only bits that it was given; and if it was given a generation that was
observed, with fewer than `2 ^ 32` callbacks and recorded errors for this descriptor since, then
there were none, and the bits were cached at the observation.  A callback that arrives after its
token was deregistered changes no descriptor. -/
theorem clear_never_newer (tr : List Ev) (s : Sys) (h : Run step Any new tr s) :
    (∀ c call ctl s' es ready generation e e', s.calls[c]? = some call →
      call.origin = .clearReady ready generation → step s (.go c ctl) = some (s', es) →
      s.entries[call.entry]? = some e → s'.entries[call.entry]? = some e' →
      ∀ j, e.io.ready.getLsbD j = true → e'.io.ready.getLsbD j = false →
        ready.getLsbD j = true ∧ ∀ l cached seen m,
          tr = l ++ .observed call.entry cached seen generation :: m →
          bumps call.entry m < 2 ^ 32 →
          cached.getLsbD j = true ∧ ∀ x ∈ m, bump call.entry x = false) ∧
    (∀ token events s' es, step s (.callback token events) = some (s', es) →
      s'.entries = s.entries) ∧
    ∀ l c token m k, tr = l ++ .arrived c token :: m → .deregistered k token ∈ l →
      ∀ ctl s' es, step s (.go c ctl) = some (s', es) → s'.entries = s.entries := by
  obtain ⟨hN, hL⟩ := sound_run h
  have hR := remembered_run h
  have hS := stale_run h
  refine ⟨?_, ?_, ?_⟩
  · intro c call ctl s' es ready generation e e' hcall horigin hs he he' j hj hj'
    obtain ⟨call', e₁, next, hset⟩ := go_next hs hcall he
    rw [hset] at he'
    obtain ⟨-, rfl⟩ | ⟨hne, -⟩ := of_set he he'
    · obtain ⟨hbit, hgeneration⟩ := cleared_bit (hL.ok _ _ _ hcall he) next horigin hj hj'
      refine ⟨hbit, fun l cached seen m htr hlt => ?_⟩
      obtain ⟨e₁, he₁, hmoved, hcached⟩ := hR l _ cached seen generation m htr
      obtain rfl := some.inj (he.symm.trans he₁)
      rw [hgeneration] at hmoved
      have hzero := bumps_zero hlt hmoved
      refine ⟨within_iff.mp (hcached hzero) j hj, fun x hx => ?_⟩
      have hnone := countP_eq_zero.mp hzero x hx
      rwa [Bool.not_eq_true] at hnone
    · exact absurd rfl hne
  · intro token events s' es hs
    cases step_moved hs with
    | missed | arrived | call => rfl
  · intro l c token m k htr hl ctl s' es hs
    obtain ⟨call, hcall, rfl, horigin, hphase⟩ := hS.late l c token m k htr hl
    obtain ⟨-, e, he, hgone⟩ :=
      hS.gone call.entry token (by rw [htr]; exact mem_append_left _ hl)
    obtain ⟨call', e', next, hset⟩ := go_next hs hcall he
    obtain ⟨-, rfl⟩ := next_stale next hgone horigin hphase
    obtain ⟨hlt, rfl⟩ := List.getElem?_eq_some_iff.mp he
    rw [hset]
    exact set_getElem_self hlt

/-- A descriptor is registered, a callback says that it is readable, and this is observed and then
cleared. -/
def oneClear : List Op :=
  [.register .readable, .go 0 ⟨true, true⟩, .go 0 ⟨true, true⟩, .callback 1 epollIn,
    .go 1 ⟨true, true⟩, .go 1 ⟨true, true⟩, .go 1 ⟨true, true⟩, .pollReady 0 7 .readable,
    .clearReady 0 epollIn 1, .go 2 ⟨true, true⟩]

theorem clear_never_newer_one :
    ∃ tr s s' e e' cached seen l, Run step Any new tr s ∧
      step s (.go 2 ⟨true, true⟩) = some (s', []) ∧ s.entries[0]? = some e ∧
      s'.entries[0]? = some e' ∧ e.io.ready.getLsbD 0 = true ∧ e'.io.ready.getLsbD 0 = false ∧
      tr = l ++ [.observed 0 cached seen 1] ∧ cached.getLsbD 0 = true := by
  have hrun : Run step Any new [.arrived 1 1, .called 0, .observed 0 epollIn epollIn 1] _ :=
    run_exec oneClear rfl
  refine ⟨_, _, _, _, _, _, _, [.arrived 1 1, .called 0], hrun, rfl, rfl, rfl, rfl, rfl, rfl, ?_⟩
  have hbit := (clear_never_newer _ _ hrun).1 2 _ ⟨true, true⟩ _ _ epollIn 1 _ _ rfl rfl rfl rfl rfl
    0 rfl rfl
  exact (hbit.2 [.arrived 1 1, .called 0] _ _ [] rfl (by decide)).1

end OhosFfrt.Reactor.Clearing
