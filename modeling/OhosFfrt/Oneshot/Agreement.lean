import OhosFfrt.Lib.Traces
import OhosFfrt.Oneshot.Moves

/-!
# `signal::oneshot`: both sides agree on what became of the value

What was sent is what was received, or it is still stored (`Agreed`).  A receiver that was left
pending is `Parked`.  So the two sides agree (`oneshot_agree`).
-/

namespace OhosFfrt.Oneshot.Agreement

open Basic Lib.Runs Oneshot.Shared Oneshot.System List Option
open Oneshot.Moves

variable {T : Type*} {s s' : Sys T} {op : Op T} {es tr : List (Ev T)} {v : T} {w : Waker}

/-! ## What was sent and what was received -/

theorem sent_append (tr es : List (Ev T)) : sent (tr ++ es) = sent tr ++ sent es :=
  filterMap_append

theorem received_append (tr es : List (Ev T)) : received (tr ++ es) = received tr ++ received es :=
  filterMap_append

theorem mem_sent : v ∈ sent tr ↔ .sent v ∈ tr := by
  simp only [sent, mem_filterMap]
  constructor
  · rintro ⟨x, hx, hv⟩
    rcases x with v' | _ | _ | _ | _ | _ | _ | _ | _ | _ | _ <;> simp at hv
    rwa [← hv]
  · intro h
    exact ⟨_, h, rfl⟩

/-- The events neither send nor receive, and do not report the end. -/
def Silent (es : List (Ev T)) : Prop :=
  sent es = [] ∧ received es = [] ∧ (∀ v, .refused v ∉ es) ∧ .closed ∉ es

theorem silent_of_wakes (h : ∀ y ∈ es, (∃ w, y = .woke w) ∨ y = .broadcast) : Silent es := by
  refine ⟨?_, ?_, ?_, ?_⟩
  iterate 2
    · refine filterMap_eq_nil_iff.mpr fun y hy => ?_
      rcases h y hy with ⟨w, rfl⟩ | rfl <;> rfl
  · intro v hv
    rcases h _ hv with ⟨w, hw⟩ | hw <;> cases hw
  · intro hc
    rcases h _ hc with ⟨w, hw⟩ | hw <;> cases hw

theorem wakes_wake (o : Option Waker) :
    ∀ y ∈ (wake o ++ [.broadcast] : List (Ev T)), (∃ w, y = .woke w) ∨ y = .broadcast := by
  intro y hy
  rcases mem_append.mp hy with hy | hy
  · obtain ⟨w, -, rfl⟩ := mem_wake.mp hy
    exact .inl ⟨w, rfl⟩
  · exact .inr (mem_singleton.mp hy)

/-- **A receive has reported the end** when no value had been received. -/
def EndedEarly (tr : List (Ev T)) : Prop := ∃ l r, tr = l ++ .closed :: r ∧ received l = []

theorem endedEarly_append (h : EndedEarly (tr ++ es)) :
    EndedEarly tr ∨ (received tr = [] ∧ .closed ∈ es) := by
  obtain ⟨l, r, heq, hl⟩ := h
  rcases split_append heq with ⟨m, htr, -⟩ | ⟨m, rfl, hes⟩
  · exact .inl ⟨l, m, htr, hl⟩
  · rw [received_append, append_eq_nil_iff] at hl
    refine .inr ⟨hl.1, ?_⟩
    rw [hes]
    exact mem_append_right _ (mem_cons_self ..)

theorem endedEarly_now (h0 : received tr = []) (hrec : received es = []) (hc : .closed ∈ es) :
    EndedEarly (tr ++ es) := by
  obtain ⟨l, r, rfl⟩ := append_of_mem hc
  rw [received_append, append_eq_nil_iff] at hrec
  refine ⟨tr ++ l, r, by simp, ?_⟩
  rw [received_append, h0, hrec.1]
  rfl

theorem EndedEarly.append (h : EndedEarly tr) : EndedEarly (tr ++ es) := by
  obtain ⟨l, r, rfl, hl⟩ := h
  exact ⟨l, r ++ es, by simp, hl⟩

/-- **Both sides agree**, in a run with the trace `tr`. -/
structure Agreed (tr : List (Ev T)) (s : Sys T) : Prop where
  log : sent tr = received tr ++ s.inner.value.toList
  once : (sent tr).length ≤ 1
  unsent : s.sender ≠ none → sent tr = [] ∧ s.inner.senderAlive = true
  refused : ∀ v, .refused v ∈ tr → s.sender = none ∧ sent tr = []
  ended : EndedEarly tr → sent tr = [] ∧ (s.sender = none ∨ s.inner.receiverAlive = false)
  terminated : s.receiver = some ⟨false⟩ → received tr ≠ [] ∨ EndedEarly tr
  released : holds s = false → received tr ≠ [] ∨ EndedEarly tr ∨ .receiverDropped ∈ tr

theorem agreed_channel : Agreed [] (channel : Sys T) where
  log := rfl
  once := Nat.zero_le _
  unsent _ := ⟨rfl, rfl⟩
  refused _ h := nomatch h
  ended h := by
    obtain ⟨l, r, heq, -⟩ := h
    cases l <;> cases heq
  terminated h := by simp [channel] at h
  released h := nomatch h

theorem Agreed.quiet (h : Agreed tr s) (hsent : sent es = []) (hrec : received es = [])
    (hv : s'.inner.value = s.inner.value) (hs : s'.sender = s.sender ∨ s'.sender = none)
    (hsa : s'.sender ≠ none → s'.inner.senderAlive = s.inner.senderAlive)
    (hra : s'.inner.receiverAlive = true → s.inner.receiverAlive = true)
    (href : ∀ v, .refused v ∈ es → s'.sender = none ∧ sent tr = [])
    (hend : .closed ∈ es → received tr = [] →
      sent tr = [] ∧ (s'.sender = none ∨ s'.inner.receiverAlive = false))
    (hrx : s'.receiver = some ⟨false⟩ → s.receiver = some ⟨false⟩ ∨ .closed ∈ es)
    (hh : holds s' = false → holds s = false ∨ .closed ∈ es ∨ .receiverDropped ∈ es) :
    Agreed (tr ++ es) s' := by
  have hsent' : sent (tr ++ es) = sent tr := by
    rw [sent_append, hsent, append_nil]
  have hrec' : received (tr ++ es) = received tr := by
    rw [received_append, hrec, append_nil]
  have hkeep : s.sender = none → s'.sender = none := by
    intro h0
    rcases hs with hs | hs
    · rw [hs, h0]
    · exact hs
  -- an end that is reported now is early if nothing was received before
  have hnow : .closed ∈ es → received tr ≠ [] ∨ EndedEarly (tr ++ es) := by
    intro hc
    by_cases h0 : received tr = []
    · exact .inr (endedEarly_now h0 hrec hc)
    · exact .inl h0
  refine ⟨?_, ?_, ?_, ?_, ?_, ?_, ?_⟩
  · rw [hsent', hrec', hv]
    exact h.log
  · rw [hsent']
    exact h.once
  · intro hne
    rw [hsent', hsa hne]
    exact h.unsent fun h0 => hne (hkeep h0)
  · intro v hmem
    rw [hsent']
    rcases mem_append.mp hmem with hold | hnew
    · exact ⟨hkeep (h.refused v hold).1, (h.refused v hold).2⟩
    · exact href v hnew
  · intro hearly
    rw [hsent']
    rcases endedEarly_append hearly with hold | ⟨h0, hc⟩
    · obtain ⟨h1, h2⟩ := h.ended hold
      refine ⟨h1, ?_⟩
      rcases h2 with h2 | h2
      · exact .inl (hkeep h2)
      · right
        rcases hr : s'.inner.receiverAlive with _ | _
        · rfl
        · rw [hra hr] at h2
          cases h2
    · exact hend hc h0
  · intro hrx'
    rw [hrec']
    rcases hrx hrx' with hold | hc
    · exact (h.terminated hold).imp_right EndedEarly.append
    · exact hnow hc
  · intro hno
    rw [hrec']
    rcases hh hno with hold | hc | hdrop
    · rcases h.released hold with h1 | h1 | h1
      · exact .inl h1
      · exact .inr (.inl h1.append)
      · exact .inr (.inr (mem_append_left _ h1))
    · exact (hnow hc).imp_right .inl
    · exact .inr (.inr (mem_append_right _ hdrop))

theorem Agreed.silent (h : Agreed tr s) (hes : Silent es) (hv : s'.inner.value = s.inner.value)
    (hs : s'.sender = s.sender ∨ s'.sender = none)
    (hsa : s'.sender ≠ none → s'.inner.senderAlive = s.inner.senderAlive)
    (hra : s'.inner.receiverAlive = true → s.inner.receiverAlive = true)
    (hrx : s'.receiver = some ⟨false⟩ → s.receiver = some ⟨false⟩)
    (hh : holds s' = false → holds s = false ∨ .receiverDropped ∈ es) :
    Agreed (tr ++ es) s' := by
  obtain ⟨hsent, hrec, href, hcl⟩ := hes
  refine h.quiet hsent hrec hv hs hsa hra (fun v hv => absurd hv (href v))
    (fun hc => absurd hc hcl) (fun hrx' => .inl (hrx hrx')) fun hno => ?_
  exact (hh hno).imp_right .inr

theorem Agreed.none_of_unsent (h : Agreed tr s) (h0 : sent tr = []) :
    received tr = [] ∧ s.inner.value = none := by
  have hlog := h.log
  rw [h0] at hlog
  obtain ⟨h1, h2⟩ := append_eq_nil_iff.mp hlog.symm
  exact ⟨h1, toList_eq_nil_iff.mp h2⟩

theorem agreed_sent (h : Agreed tr s) (hs : s.sender = some ⟨true⟩)
    (hr : s.inner.receiverAlive = true) (hsilent : Silent es) :
    Agreed (tr ++ .sent v :: es)
      { s with
        inner := { s.inner with value := some v, senderAlive := false, recvWaker := none }
        sender := none } := by
  have hne : s.sender ≠ none := by rw [hs]; simp
  obtain ⟨h0, -⟩ := h.unsent hne
  obtain ⟨hrec, -⟩ := h.none_of_unsent h0
  obtain ⟨hsent, hrec', href, hcl⟩ := hsilent
  have hsent' : sent (tr ++ .sent v :: es) = [v] := by
    rw [sent_append, h0, nil_append]
    exact congrArg (v :: ·) hsent
  have hrec'' : received (tr ++ .sent v :: es) = [] := by
    rw [received_append, hrec, nil_append]
    exact hrec'
  have hnot : ¬ EndedEarly tr := by
    intro hend
    rcases (h.ended hend).2 with h1 | h1
    · exact hne h1
    · rw [h1] at hr
      cases hr
  refine ⟨?_, ?_, fun h => absurd rfl h, ?_, ?_, ?_, ?_⟩
  · rw [hsent', hrec'']
    rfl
  · rw [hsent']
    exact Nat.le_refl 1
  · intro v' hmem
    rcases mem_append.mp hmem with hmem | hmem
    · exact absurd (h.refused v' hmem).1 hne
    · rcases mem_cons.mp hmem with hmem | hmem
      · cases hmem
      · exact absurd hmem (href v')
  · intro hend
    rcases endedEarly_append hend with hend | ⟨-, hmem⟩
    · exact absurd hend hnot
    · rcases mem_cons.mp hmem with hmem | hmem
      · cases hmem
      · exact absurd hmem hcl
  · intro hrx
    rcases h.terminated hrx with h1 | h1
    · exact absurd hrec h1
    · exact absurd h1 hnot
  · intro hno
    rcases h.released hno with h1 | h1 | h1
    · exact absurd hrec h1
    · exact absurd h1 hnot
    · exact .inr (.inr (mem_append_left _ h1))

theorem agreed_took {rx : Option Receiver} {b : Bool} (h : Agreed tr s)
    (hv : s.inner.value = some v) :
    Agreed (tr ++ [.received v]) ⟨{ s.inner with value := none }, s.sender, rx, b⟩ := by
  have hsent : sent (tr ++ [.received v]) = sent tr := by
    rw [sent_append]
    exact append_nil _
  have hrec : received (tr ++ [.received v]) = received tr ++ [v] := received_append _ _
  have hlog : sent tr = received tr ++ [v] := by
    rw [h.log, hv]
    rfl
  have hsome : received (tr ++ [.received v]) ≠ [] := by
    rw [hrec]
    simp
  refine ⟨?_, ?_, ?_, ?_, ?_, fun _ => .inl hsome, fun _ => .inl hsome⟩
  · rw [hsent, hrec, hlog]
    exact (append_nil _).symm
  · rw [hsent]
    exact h.once
  · intro hne
    rw [hsent]
    exact h.unsent hne
  · intro v' hmem
    have hold : .refused v' ∈ tr := (mem_append.mp hmem).resolve_right (by simp)
    rw [hsent]
    exact h.refused v' hold
  · intro hend
    have hold := (endedEarly_append hend).resolve_right (by simp)
    rw [hsent]
    exact h.ended hold

theorem Agreed.over (h : Agreed tr s) (hd : s.receiver = some ⟨false⟩ ∨ (s.inner.value = none ∧
      (s.inner.senderAlive = false ∨ s.inner.receiverAlive = false))) (h0 : received tr = []) :
    sent tr = [] ∧ (s.sender = none ∨ s.inner.receiverAlive = false) := by
  rcases hd with hrx | ⟨hv, hd⟩
  · exact h.ended ((h.terminated hrx).resolve_left fun h1 => h1 h0)
  · have hlog : sent tr = [] := by
      rw [h.log, h0, hv]
      rfl
    refine ⟨hlog, ?_⟩
    rcases hd with hd | hd
    · left
      by_contra hne
      rw [(h.unsent hne).2] at hd
      cases hd
    · exact .inr hd

theorem agreed_step (hw : Wf s) (h : Agreed tr s) (hs : step s op = some (s', es)) :
    Agreed (tr ++ es) s' := by
  have hwakes : ∀ o, Silent (wake o ++ [.broadcast] : List (Ev T)) :=
    fun o => silent_of_wakes (wakes_wake o)
  have hw' := wf_step hw hs
  cases step_moved hw hs with
  | sent htx hr => exact agreed_sent h htx hr (hwakes _)
  | refused htx =>
    exact h.quiet rfl rfl rfl (.inr rfl) (fun h => absurd rfl h) (fun h => h)
      (fun _ _ => ⟨rfl, (h.unsent htx).1⟩) (by simp) .inl .inl
  | dropSender =>
    exact h.silent (hwakes _) rfl (.inr rfl) (fun h => absurd rfl h) (fun h => h) (fun h => h)
      .inl
  | pollClosed | idle =>
    exact h.silent (silent_of_wakes (by simp)) rfl (.inl rfl) (fun _ => rfl) (fun h => h)
      (fun h => h) .inl
  | took hh hv => exact agreed_took h hv
  | ended hd =>
    have hc : Ev.closed ∈ ([.closed] : List (Ev T)) := mem_singleton_self _
    exact h.quiet rfl rfl rfl (.inl rfl) (fun _ => rfl) (fun h => h) (by simp)
      (fun _ => h.over hd) (fun _ => .inr hc) fun _ => .inr (.inl hc)
  | @wait rx b rw x hh hv hsa hra hh' hx =>
    have hsilent : Silent [x] := by
      rcases hx with ⟨-, rfl | rfl⟩ | ⟨cx, -, rfl⟩ <;> exact ⟨rfl, rfl, by simp, by simp⟩
    refine h.silent hsilent rfl (.inl rfl) (fun _ => rfl) (fun h => h) (fun hrx => ?_)
      fun hno => ?_
    · -- a receiver without the channel does not wait, nor does it leave a `blocking_recv` behind
      rcases b with _ | _
      · rw [show rx = some ⟨false⟩ from hrx] at hh'
        cases hh'
      · rw [hw'.blocking rfl] at hrx
        cases hrx
    · exact absurd (hno.symm.trans hh') (by simp)
  | wakeWaiter =>
    exact h.silent (hwakes _) rfl (.inl rfl) (fun _ => rfl) (fun h => h) (fun h => h) .inl
  | @shut rx x es i hi hx hes =>
    have hsilent : Silent (x :: es) := by
      obtain ⟨h1, h2, h3, h4⟩ := silent_of_wakes hes
      rcases hx with ⟨rfl, -⟩ | ⟨rfl, -⟩ <;>
        exact ⟨h1, h2, by simpa using h3, by simpa using h4⟩
    refine h.silent hsilent ?_ (.inl rfl) (fun _ => ?_) (fun hra => ?_) (fun hrx => ?_)
      fun hno => ?_
    · rcases hi with rfl | ⟨cw, rfl⟩ <;> rfl
    · rcases hi with rfl | ⟨cw, rfl⟩ <;> rfl
    · rcases hi with rfl | ⟨cw, rfl⟩
      · exact hra
      · cases hra
    · rcases hx with ⟨-, rfl⟩ | ⟨-, rfl⟩
      · exact hrx
      · cases hrx
    · rcases hx with ⟨-, rfl⟩ | ⟨rfl, -⟩
      · exact .inl hno
      · exact .inr (mem_cons_self ..)

/-- What was sent is received or stored. -/
theorem agreed_run (h : Run step Any channel tr s) : Agreed tr s := by
  have ha := h.along fun _ _ => wf_run
  exact ha.inv agreed_channel fun _ _ _ _ _ hI hC hs => agreed_step hC.2 hI hs

/-- While the value that was sent is stored, a receiver that was not dropped has the channel, and
each of its receives returns it. -/
theorem Agreed.delivers (h : Agreed tr s) (hsent : .sent v ∈ tr)
    (hdrop : .receiverDropped ∉ tr) (hrec : received tr = []) :
    (∃ op : Op T, op.receives = true ∧ (step s op).isSome = true) ∧
    ∀ op s' es, op.receives = true → step s op = some (s', es) → .received v ∈ es := by
  have hmem := mem_sent.mpr hsent
  have hv : s.inner.value = some v := by
    rw [h.log, hrec, nil_append] at hmem
    exact mem_toList.mp hmem
  have hnot : ¬ EndedEarly tr := by
    intro hend
    rw [(h.ended hend).1] at hmem
    cases hmem
  have hrx : ∀ rx, s.receiver = some rx → rx = ⟨true⟩ := by
    rintro ⟨_ | _⟩ hrx
    · rcases h.terminated hrx with h1 | h1
      · exact absurd hrec h1
      · exact absurd h1 hnot
    · rfl
  have hholds : holds s = true := by
    by_contra hno
    rw [Bool.not_eq_true] at hno
    rcases h.released hno with h1 | h1 | h1
    · exact h1 hrec
    · exact hnot h1
    · exact hdrop h1
  refine ⟨?_, ?_⟩
  · unfold holds at hholds
    rw [Bool.or_eq_true, decide_eq_true_eq] at hholds
    rcases hholds with h1 | h1
    · exact ⟨.tryRecv, rfl, by simp [step, h1]⟩
    · exact ⟨.resumeRecv, rfl, by simp [step, h1]⟩
  · intro op s' es hop hs
    cases op with
    | tryRecv | poll cx | blockingRecv =>
      simp only [step, map_eq_some_iff] at hs
      obtain ⟨rx, hget, hs⟩ := hs
      have htrue := hrx rx hget
      subst htrue
      simp only [Shared.tryRecv, Shared.poll, Sys.round, blockingRound, hv, if_true,
        Prod.mk.injEq] at hs
      obtain ⟨-, rfl⟩ := hs
      exact mem_singleton_self _
    | resumeRecv =>
      simp only [step, Sys.round, blockingRound, hv, ite_none_right_eq_some,
        some.injEq, Prod.mk.injEq] at hs
      obtain ⟨-, -, rfl⟩ := hs
      exact mem_singleton_self _
    | send v | pollClosed cx | dropSender | wakeWaiter | close | dropReceiver => cases hop

/-! ## A receiver that was left pending -/

/-- The receiver left the waker `w`, and nothing is there for it. -/
structure Parked (w : Waker) (s : Sys T) : Prop where
  holds : holds s = true
  value : s.inner.value = none
  senderAlive : s.inner.senderAlive = true
  receiverAlive : s.inner.receiverAlive = true
  waker : s.inner.recvWaker = some w

/-- The poll that left `w` is no longer the last word: `w` is woken, the receiver is polled again,
closed or dropped. -/
def Disturbs (w : Waker) (x : Ev T) : Prop :=
  x = .woke w ∨ (∃ w', x = .pending w') ∨ x = .closeCalled ∨ x = .receiverDropped

theorem Parked.not_ended (hw : Wf s) (h : Parked w s) :
    ¬ (s.receiver = some ⟨false⟩ ∨ (s.inner.value = none ∧
      (s.inner.senderAlive = false ∨ s.inner.receiverAlive = false))) := by
  rintro (hrx | ⟨-, hd | hd⟩)
  · have hh := h.holds
    rcases hb : s.blocking with _ | _
    · rw [not_holds (by rw [hrx]; simp) hb] at hh
      cases hh
    · rw [hw.blocking hb] at hrx
      cases hrx
  · rw [h.senderAlive] at hd
    cases hd
  · rw [h.receiverAlive] at hd
    cases hd

theorem parked_of_pending (hw : Wf s) (hs : step s op = some (s', es)) (hp : .pending w ∈ es) :
    Parked w s' := by
  have hno : ∀ o, .pending w ∉ (wake o ++ [.broadcast] : List (Ev T)) := by
    intro o hmem
    rcases wakes_wake o _ hmem with ⟨w', hw'⟩ | hw' <;> cases hw'
  cases step_moved hw hs with
  | sent =>
    rcases mem_cons.mp hp with hp | hp
    · cases hp
    · exact absurd hp (hno _)
  | dropSender | wakeWaiter => exact absurd hp (hno _)
  | refused | took | ended => simp at hp
  | pollClosed | idle => cases hp
  | wait hh hv hsa hra hh' hx =>
    rw [mem_singleton] at hp
    subst hp
    rcases hx with ⟨-, hx | hx⟩ | ⟨cx, rfl, hx⟩
    · cases hx
    · cases hx
    · cases hx
      exact ⟨hh', hv, hsa, hra, rfl⟩
  | shut hi hx hes =>
    rcases mem_cons.mp hp with rfl | hp
    · rcases hx with ⟨hx, -⟩ | ⟨hx, -⟩ <;> cases hx
    · rcases hes _ hp with ⟨w', hw'⟩ | hw' <;> cases hw'

theorem parked_step (hw : Wf s) (h : Parked w s) (hs : step s op = some (s', es))
    (hes : ∀ y ∈ es, ¬ Disturbs w y) : Parked w s' := by
  -- whoever takes the waker out of its place wakes it
  have hwoken : .woke w ∈ (wake s.inner.recvWaker ++ [.broadcast] : List (Ev T)) :=
    mem_append_left _ (mem_wake.mpr ⟨w, h.waker, rfl⟩)
  cases step_moved hw hs with
  | sent => exact absurd (.inl rfl) (hes (.woke w) (mem_cons_of_mem _ hwoken))
  | dropSender | wakeWaiter => exact absurd (.inl rfl) (hes (.woke w) hwoken)
  | refused htx hr =>
    rw [h.receiverAlive] at hr
    cases hr
  | pollClosed => exact ⟨h.holds, h.value, h.senderAlive, h.receiverAlive, h.waker⟩
  | took hh hv =>
    rw [h.value] at hv
    cases hv
  | ended hd => exact absurd hd (h.not_ended hw)
  | wait hh hv hsa hra hh' hx =>
    rcases hx with ⟨rfl, -⟩ | ⟨cx, -, rfl⟩
    · exact ⟨hh', hv, hsa, hra, h.waker⟩
    · exact absurd (.inr (.inl ⟨cx, rfl⟩)) (hes _ (mem_singleton_self _))
  | @shut rx x es i hi hx =>
    have hd : Disturbs w x := by
      rcases hx with ⟨hx, -⟩ | ⟨hx, -⟩
      · exact .inr (.inr (.inl hx))
      · exact .inr (.inr (.inr hx))
    exact absurd hd (hes x (mem_cons_self ..))
  | idle => exact h

/-- A parked receiver has nothing to get. -/
theorem parked_run (h : Run step Any channel tr s)
    (hp : Since (· = .pending w) (Disturbs w) tr) : Parked w s := by
  have ha := h.along fun _ _ => wf_run
  refine ha.since (K := Parked w) ?_ ?_ hp
  · rintro tr s i s' es x ⟨-, hw⟩ hs hx rfl
    exact parked_of_pending hw hs hx
  · rintro tr s i s' es ⟨-, hw⟩ hs hK hes
    exact parked_step hw hK hs hes

theorem Parked.waits (hw : Wf s) (h : Parked w s) (hop : op.receives = true)
    (hs : step s op = some (s', es)) : .closed ∉ es ∧ ∀ v, .received v ∉ es := by
  have hrx : ∀ rx, s.receiver = some rx → rx = ⟨true⟩ := by
    rintro ⟨_ | _⟩ hrx
    · exact absurd (.inl hrx) (h.not_ended hw)
    · rfl
  cases op with
  | tryRecv | poll cx | blockingRecv =>
    simp only [step, map_eq_some_iff] at hs
    obtain ⟨rx, hget, hs⟩ := hs
    have htrue := hrx rx hget
    subst htrue
    simp only [Shared.tryRecv, Shared.poll, Sys.round, blockingRound, h.value, h.senderAlive,
      h.receiverAlive, if_true, Bool.and_self, Bool.not_true, Bool.or_self, Bool.false_eq_true,
      if_false, reportTry, report, Prod.mk.injEq] at hs
    obtain ⟨-, rfl⟩ := hs
    simp
  | resumeRecv =>
    simp only [step, Sys.round, blockingRound, h.value, h.senderAlive, h.receiverAlive,
      Bool.not_true, Bool.or_self, Bool.false_eq_true, if_false, report,
      ite_none_right_eq_some, some.injEq, Prod.mk.injEq] at hs
    obtain ⟨-, -, rfl⟩ := hs
    simp
  | send v | pollClosed cx | dropSender | wakeWaiter | close | dropReceiver => cases hop

/-- **The two sides of a oneshot channel agree.**  In every run at most one value is received, and
it was sent.  If `send` was refused nothing is ever received; if a receive reported the end before a
value was received, no `send` succeeds, before or after.  A value that was sent is what the next
receive returns, on any path, if the receiver was not dropped and has not taken it; and a receiver
whose last poll was `Pending`, and which was neither woken nor closed since, still has nothing to
return. -/
theorem oneshot_agree (h : Run step Any channel tr s) :
    ((received tr).length ≤ 1 ∧ ∀ v ∈ received tr, .sent v ∈ tr) ∧
    ((∃ v, .refused v ∈ tr) → received tr = []) ∧
    (∀ l r, tr = l ++ .closed :: r → received l = [] → ∀ v, .sent v ∉ tr) ∧
    (∀ v, .sent v ∈ tr → .receiverDropped ∉ tr → received tr = [] →
      (∃ op : Op T, op.receives = true ∧ (step s op).isSome = true) ∧
      ∀ op s' es, op.receives = true → step s op = some (s', es) → .received v ∈ es) ∧
    ∀ w, Since (· = .pending w) (Disturbs w) tr →
      (∀ rx, s.receiver = some rx → isFinished rx s.inner = false) ∧
      ∀ op s' es, op.receives = true → step s op = some (s', es) →
        .closed ∉ es ∧ ∀ v, .received v ∉ es := by
  have hw := wf_run h
  have ha := agreed_run h
  refine ⟨⟨?_, ?_⟩, ?_, ?_, fun v => ha.delivers, fun w hp => ?_⟩
  · have honce := ha.once
    rw [ha.log, length_append] at honce
    omega
  · intro v hv
    rw [← mem_sent, ha.log]
    exact mem_append_left _ hv
  · rintro ⟨v, hv⟩
    exact (ha.none_of_unsent (ha.refused v hv).2).1
  · intro l r heq hl v hv
    have hmem := mem_sent.mpr hv
    rw [(ha.ended ⟨l, r, heq, hl⟩).1] at hmem
    cases hmem
  · have hpark := parked_run h hp
    refine ⟨?_, fun op s' es => hpark.waits hw⟩
    rintro ⟨_ | _⟩ hrx
    · exact absurd (.inl hrx) (hpark.not_ended hw)
    · simp [isFinished, hpark.value, hpark.senderAlive, hpark.receiverAlive]

/-- The receiver is pending and then closed; the value that was sent before is still received. -/
theorem oneshot_agree_closed : ∃ s tr,
    exec step (channel : Sys ℕ) [.poll 7, .pollClosed 8, .send 3, .close] = some (s, tr) ∧
    tr = [.pending 7, .sent 3, .woke 7, .broadcast, .closeCalled, .woke 8, .broadcast] ∧
    ∀ op s' es, op.receives = true → step s op = some (s', es) → .received 3 ∈ es := by
  refine ⟨_, _, rfl, rfl, ?_⟩
  have h := run_exec [.poll 7, .pollClosed 8, .send 3, .close]
    (show exec step (channel : Sys ℕ) _ = some _ from rfl)
  exact ((oneshot_agree h).2.2.2.1 3 (by decide) (by decide) rfl).2

end OhosFfrt.Oneshot.Agreement
