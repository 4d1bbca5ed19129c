import OhosFfrt.Lib.Traces
import OhosFfrt.Mpsc.Permits

/-!
# `signal::mpsc`: the end of the stream

Nothing that has or borrows a sender can send after the end, since the counters are those of the
live senders and permits.  A `send_timeout` future has no sender; but for it the end is final
(`mpsc_end`).
-/

namespace OhosFfrt.Mpsc.EndOfStream

open Basic Lib.Runs
open Mpsc.Shared Mpsc.System Mpsc.Moves Mpsc.Steps
open Mpsc.Permits

variable {T : Type*} {s s₀ s' : Sys T} {op : Op T} {es tr : List (Ev T)} {c : Option ℕ}

/-- The operation may return a value. -/
def receives (s : Sys T) : Op T → Bool
  | .tryRecv | .pollRecv _ | .blockingRecv => s.rx = .idle
  | .pollRecvMany _ limit | .blockingRecvMany limit => s.rx = .idle ∧ 0 < limit
  | .pollRx _ =>
    match s.rx with
    | .recv | .recvMany (_ + 1) | .recvTimeout false => true
    | _ => false
  | .resumeRecv =>
    match s.rx with
    | .blocking _ => true
    | _ => false
  | _ => false

/-- Nothing is queued, or will be. -/
def Over (i : Inner T) : Prop := i.queue = [] ∧ i.finished = true

/-- A value, or the end. -/
def reports : Ev T → Bool
  | .received _ | .ended => true
  | _ => false

/-! ## Reporting the end -/

/-- **What a step reports**: values of a queue that is not empty, the end of a stream that is over,
or nothing. -/
theorem reports_step (hs : step s op = some (s', es)) :
    (s.inner.queue ≠ [] ∧ .ended ∉ es) ∨ (es = [.ended] ∧ Over s.inner ∧ s'.inner = s.inner) ∨
    Free reports es := by
  have hwakes : ∀ {es : List (Ev T)}, Wakes es → Free reports es := fun h => h.free rfl fun _ => rfl
  cases step_moved hs with
  | keep | waitSend | reserve | addSender | waitClose => exact .inr (.inr free_nil)
  | refuse | settle | parkSend | waitRecv | parkRecv =>
    exact .inr (.inr (by simp [Free, reports]))
  | begin _ _ _ _ _ hes =>
    refine .inr (.inr (free_cons rfl ?_))
    rcases hes with rfl | ⟨j, rfl, -⟩ <;> simp [Free, reports]
  | pushNew | pushReserved =>
    exact .inr (.inr (free_cons rfl (free_cons rfl (hwakes (wakes_push _ _)))))
  | pushPending => exact .inr (.inr (free_cons rfl (hwakes (wakes_push _ _))))
  | release hn hi =>
    obtain ⟨-, -, -, -, -, hw, -⟩ := releaseReserved_some hn hi
    exact .inr (.inr (hwakes hw))
  | dropSender hi =>
    obtain ⟨-, -, -, -, -, hw⟩ := dropSender_some hi
    exact .inr (.inr (hwakes hw))
  | pop vs hq hvs _ _ hes =>
    refine .inl ⟨?_, fun hx => ?_⟩
    · rw [hq]
      exact fun h => hvs (List.append_eq_nil_iff.mp h).1
    · simp only [List.mem_append, List.mem_map, List.mem_singleton, reduceCtorEq, and_false,
        exists_false, false_or, or_false] at hx
      obtain ⟨w, hw⟩ := hes _ hx
      cases hw
  | ended hi _ _ hq hf => exact .inr (.inl ⟨rfl, ⟨hq, hf⟩, hi⟩)
  | shut hx =>
    obtain ⟨-, -, -, hw, -⟩ := shut_eq s.inner
    refine .inr (.inr (free_cons ?_ (hwakes hw)))
    rcases hx with rfl | rfl <;> rfl

theorem ended_step (hs : step s op = some (s', es)) (he : .ended ∈ es) :
    es = [.ended] ∧ Over s.inner ∧ s'.inner = s.inner := by
  rcases reports_step hs with ⟨-, h⟩ | h | h
  · exact absurd he h
  · exact h
  · exact absurd (h _ he) (by simp [reports])

theorem take_over {i : Inner T} (h : Over i) (d : Bool) : take i d = .ended := by
  unfold take
  rw [h.1]
  exact if_pos h.2

theorem pollRecvMany_over (h : Over s.inner) (cx : Waker) {n : ℕ} :
    s.pollRecvMany cx n = (s, [.ended]) := by
  have hpop : popUpTo n ([] : List T) = ([], []) := by
    cases n <;> rfl
  unfold Sys.pollRecvMany
  rw [h.1, hpop]
  simp [h.2]

theorem ended_of_receives (hr : receives s op = true) (h : Over s.inner) :
    ∃ s', step s op = some (s', [.ended]) := by
  have htaken : ∀ (d : Bool) (got : Rx) (wait : Sys T × List (Ev T)),
      s.taken (take s.inner d) got wait = ({ s with rx := .idle }, [.ended]) := by
    intro d got wait
    rw [take_over h d]
    rfl
  cases op with
  | tryRecv | pollRecv cx | blockingRecv =>
    refine ⟨{ s with rx := .idle }, ?_⟩
    show guarded _ (s.taken (take s.inner _) _ _) = _
    rw [htaken]
    exact if_pos hr
  | pollRecvMany cx =>
    simp only [receives, decide_eq_true_eq] at hr
    refine ⟨s, ?_⟩
    simp only [step, guarded, hr.1, decide_true, if_true, Option.some.injEq]
    rw [if_neg (by omega)]
    exact pollRecvMany_over h cx
  | blockingRecvMany =>
    simp only [receives, decide_eq_true_eq] at hr
    refine ⟨{ s with rx := .idle }, ?_⟩
    simp only [step, guarded, hr.1, decide_true, if_true, Option.some.injEq]
    rw [if_neg (by omega)]
    exact htaken _ _ _
  | pollRx =>
    refine ⟨{ s with rx := .idle }, ?_⟩
    simp only [receives] at hr
    split at hr
    iterate 3
      · next hrx =>
        simp only [step, Sys.pollRx, hrx]
        exact congrArg some (htaken _ _ _)
    · cases hr
  | resumeRecv =>
    refine ⟨{ s with rx := .idle }, ?_⟩
    simp only [receives] at hr
    split at hr
    · next hrx =>
      simp only [step, hrx]
      exact congrArg some (htaken _ _ _)
    · cases hr
  | _ => cases hr

/-! ## The end is final -/

/-- **A stream that is over stays over**, if no `send_timeout` future is polled for a live receiver.
-/
theorem over_step (ha : Accounts c s) (h : Over s.inner)
    (hlate : s.inner.receiverAlive = true → pollsTimeout s op = false)
    (hs : step s op = some (s', es)) : Over s'.inner := by
  obtain ⟨hq, hf⟩ := h
  have hend := finished_iff.mp hf
  -- with a live receiver there is no sender, so nothing is backed
  have hbacked : s.inner.receiverAlive = true → ¬ Backed s.objs := by
    intro hal hb
    have hpos := ha.senders_pos hb
    have hcount := ha.senderCount
    rw [hal] at hend
    rcases hend with h | ⟨h, -⟩
    · omega
    · cases h
  cases step_moved hs with
  | keep hi | refuse hi | begin hi | settle hi | parkSend hi | ended hi | parkRecv hi | waitSend hi
  | waitRecv hi | waitClose hi =>
    rw [hi]
    exact ⟨hq, hf⟩
  | pushNew _ _ _ hr hbk => exact absurd hbk (hbacked hr.1)
  | pushPending _ _ _ _ _ _ hr hbk =>
    rcases hbk with hbk | hbk
    · exact absurd hbk (hbacked hr.1)
    · rw [hlate hr.1] at hbk
      cases hbk
  | pushReserved =>
    have hpos := ha.senderCount_pos (by omega)
    rcases hend with h | ⟨-, h⟩ <;> omega
  | reserve _ _ _ _ _ _ hal _ hbk => exact absurd hbk (hbacked hal)
  | release hn hi =>
    obtain ⟨r, w, hr, hi, -⟩ := releaseReserved_some hn hi
    rw [hi]
    refine ⟨hq, finished_iff.mpr ?_⟩
    exact hend.imp_right fun h => ⟨h.1, by simp only; omega⟩
  | addSender hi _ _ hc =>
    have hpos : s.inner.senderCount ≠ 0 := by
      rcases hc with hc | hc
      · exact hc
      · have := ha.senders_pos ⟨_, hc, .inl rfl⟩
        have := ha.senderCount
        omega
    rw [hi]
    exact ⟨hq, finished_iff.mpr (.inr (hend.resolve_left hpos))⟩
  | dropSender hi =>
    obtain ⟨n, w, hn, hi, -⟩ := dropSender_some hi
    rw [hi]
    exact ⟨hq, finished_iff.mpr (.inr (hend.resolve_left (by omega)))⟩
  | pop vs hvq hvs =>
    rw [hq] at hvq
    exact absurd (List.append_eq_nil_iff.mp hvq.symm).1 hvs
  | shut _ hi =>
    obtain ⟨ws, hsh, -⟩ := shut_eq s.inner
    rw [hi, hsh]
    exact ⟨hq, finished_iff.mpr (hend.imp_right fun h => ⟨rfl, h.2⟩)⟩

/-- **The condition on a step**: after the end was reported, no `send_timeout` future that still has
its value is polled while the receiver is not closed. -/
def NoLatePoll (tr : List (Ev T)) (s : Sys T) (op : Op T) : Prop :=
  .ended ∈ tr → s.inner.receiverAlive = true → pollsTimeout s op = false

instance [DecidableEq T] (tr : List (Ev T)) (s : Sys T) (op : Op T) :
    Decidable (NoLatePoll tr s op) := inferInstanceAs (Decidable (_ → _ → _))

/-- A value was received. -/
def Received (x : Ev T) : Prop := ∃ v, x = .received v

/-- No value comes after the end. -/
theorem final_run (h0 : s₀ = Sys.new c) (h : Run step NoLatePoll s₀ tr s) :
    Bars (· = .ended) Received tr := by
  have hal := h.along fun tr s hrun => accounts_run h0 hrun
  -- a step that starts when the stream is over delivers nothing
  have hnone : ∀ {s op s'} {es : List (Ev T)}, step s op = some (s', es) → Over s.inner →
      ∀ y ∈ es, ¬ Received y := by
    rintro s op s' es hs ho y hy ⟨v, rfl⟩
    rcases reports_step hs with ⟨hne, -⟩ | ⟨rfl, -⟩ | hfree
    · exact hne ho.1
    · cases List.mem_singleton.mp hy
    · cases hfree _ hy
  refine (hal.bars (K := fun s => Over s.inner) ?_ ?_).2
  · rintro tr s op s' es x ⟨-, -⟩ hs hx rfl
    obtain ⟨-, h1, h2⟩ := ended_step hs hx
    exact ⟨h2 ▸ h1, hnone hs h1⟩
  · rintro tr s op s' es ⟨hlate, ha⟩ hs ⟨x, hx, rfl⟩ ho
    exact ⟨over_step ha ho (hlate hx) hs, hnone hs ho⟩

/-- **The end of the stream is exact and, but for late polls, final**, on both flavours of the
channel. A receive reports the end exactly if the queue is empty and no strong sender is left or the
receiver is closed with no slot reserved.  In a run without late polls no value is received after
the end. -/
theorem mpsc_end (h0 : (∃ n, channel n = some s₀) ∨ s₀ = unboundedChannel)
    (h : Run step Any s₀ tr s) :
    (∀ op, receives s op = true →
      ((∃ s' es, step s op = some (s', es) ∧ .ended ∈ es) ↔
        s.inner.queue = [] ∧ (s.senders = 0 ∨ (s.inner.receiverAlive = false ∧ s.slots = 0)))) ∧
    (Run step NoLatePoll s₀ tr s → Bars (· = .ended) Received tr) := by
  obtain ⟨c, hc⟩ := new_of_channel h0
  have ha := accounts_run hc h
  refine ⟨fun op hr => ?_, fun hl => final_run hc hl⟩
  have hover : Over s.inner ↔ s.inner.queue = [] ∧
      (s.senders = 0 ∨ (s.inner.receiverAlive = false ∧ s.slots = 0)) := by
    unfold Over
    rw [finished_iff, ha.senderCount, ha.reserved]
  rw [← hover]
  constructor
  · rintro ⟨s', es, hs, he⟩
    exact (ended_step hs he).2.1
  · intro ho
    obtain ⟨s', hs⟩ := ended_of_receives hr ho
    exact ⟨s', _, hs, List.mem_singleton_self _⟩

/-- After the last sender is gone, a weak sender cannot be upgraded and the end is reported again.
-/
theorem mpsc_end_weak : ∃ (s₀ s : Sys ℕ) (tr : List (Ev ℕ)), channel 1 = some s₀ ∧
    exec step s₀ [.trySend 0 5, .downgrade 0, .drop 0, .tryRecv, .tryRecv, .upgrade 1, .tryRecv] =
      some (s, tr) ∧
    tr.count .ended = 2 ∧ Bars (· = .ended) Received tr := by
  refine ⟨_, _, _, rfl, rfl, rfl, ?_⟩
  exact (mpsc_end (T := ℕ) (.inl ⟨1, rfl⟩) (run_exec [.trySend 0 5, .downgrade 0, .drop 0,
    .tryRecv, .tryRecv, .upgrade 1, .tryRecv] rfl)).2 (run_execIf [.trySend 0 5, .downgrade 0,
    .drop 0, .tryRecv, .tryRecv, .upgrade 1, .tryRecv] .nil rfl)

/-- A `send_timeout` future outlives the last sender; the end is reported, then the future is polled
and its value is received. -/
theorem value_after_end : ¬ ∀ (s₀ s : Sys ℕ) (tr : List (Ev ℕ)), channel 1 = some s₀ →
    Run step Any s₀ tr s → Bars (· = .ended) Received tr := by
  intro h
  have hrun := h _ _ _ rfl (run_exec [.sendTimeout 0 7, .drop 0, .tryRecv, .pollSend 1 0, .tryRecv]
    rfl)
  exact hrun [.started 0 7, .broadcast, .ended] [.settled 0 7 .accepted, .broadcast, .received 7,
    .broadcast] rfl ⟨.ended, by simp, rfl⟩ (.received 7) (by simp) ⟨7, rfl⟩

end OhosFfrt.Mpsc.EndOfStream
