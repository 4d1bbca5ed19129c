import OhosFfrt.Io.Integrity
import OhosFfrt.Lib.Traces

/-!
# The pipes of `io::duplex` and `io::simplex`: the end of a stream

`poll_shutdown` closes the writer of a pipe, and a reader that finds an empty buffer of a closed
writer reports the end.  `poll_write` does not look at whether its own writer is closed.  Without
such writes the end is final (`eof_final`).
-/

namespace OhosFfrt.Io.Duplex

open Basic Lib.Files Lib.Runs List Option

variable {s s' s₀ : Sys} {op : Op} {es tr : List Ev} {d e : Side} {p p' : MemoryPipe} {c : ℕ}

/-! ## The events -/

/-- A `poll_read` of the end `e` into a destination that is not empty reports the end. -/
def Eof (e : Side) (x : Ev) : Prop := ∃ n, 0 < n ∧ x = .read e n []

/-- `e` reads bytes. -/
def Delivers (e : Side) (x : Ev) : Prop := ∃ n bytes, bytes ≠ [] ∧ x = .read e n bytes

/-- `e` is shut down. -/
def Shuts (e : Side) (x : Ev) : Prop := x = .shutdown e

/-- `e` writes bytes. -/
def Accepts (e : Side) (x : Ev) : Prop := ∃ bytes, bytes ≠ [] ∧ x = .wrote e bytes

theorem not_delivers (h : delivered e.peer es = []) : ∀ x ∈ es, ¬ Delivers e x := by
  rintro x hx ⟨n, bytes, hne, rfl⟩
  have hnil := flatMap_eq_nil_iff.mp h _ hx
  simp only [Ev.taken, if_true] at hnil
  exact hne hnil

theorem not_accepts (h : accepted e es = []) : ∀ x ∈ es, ¬ Accepts e x := by
  rintro x hx ⟨bytes, hne, rfl⟩
  have hnil := flatMap_eq_nil_iff.mp h _ hx
  simp only [Ev.written, if_true] at hnil
  exact hne hnil

/-! ## Writes after the end -/

/-- **No write after the end**: a `poll_write` whose writer is closed has nothing to write, or is
turned away, as the reader is gone or the buffer full. -/
def Careful (_ : List Ev) (s : Sys) : Op → Prop
  | .write d _ buf => (s.outgoing d).writerClosed = true →
    buf = [] ∨ (s.outgoing d).readerClosed = true ∨
      (s.outgoing d).capacity ≤ (s.outgoing d).buffer.length
  | _ => True

instance (tr : List Ev) (s : Sys) (op : Op) : Decidable (Careful tr s op) := by
  unfold Careful
  split <;> infer_instance

/-- `Careful`, for the halves. -/
def HalfCareful (tr : List Ev) (s : Sys) (op : HalfOp) : Prop := Careful tr s op.whole

instance (tr : List Ev) (s : Sys) (op : HalfOp) : Decidable (HalfCareful tr s op) :=
  inferInstanceAs (Decidable (Careful tr s op.whole))

theorem written_pollWrite (cx : Waker) (buf : List Byte)
    (h : buf = [] ∨ p.readerClosed = true ∨ p.capacity ≤ p.buffer.length) :
    (reportWrite e cx buf (p.pollWrite cx buf).1).written d = [] := by
  unfold MemoryPipe.pollWrite
  by_cases hc : p.readerClosed = true
  · rw [if_pos hc]
    rfl
  · rw [if_neg hc]
    by_cases hb : p.capacity - p.buffer.length = 0
    · simp only [if_pos hb]
      rfl
    · have hnil : buf = [] := by
        rcases h with h | h | h
        · exact h
        · exact absurd h hc
        · omega
      simp [if_neg hb, hnil, reportWrite, Ev.written]

theorem accepted_closed (hC : Careful tr s op) (hs : step s op = some (s', es))
    (hw : (s.outgoing d).writerClosed = true) : accepted d es = [] := by
  rcases op with ⟨e, cx, n⟩ | ⟨e, cx, buf⟩ | e | e | e | e
  all_goals
    simp only [step, ite_none_right_eq_some, some.injEq, Prod.mk.injEq] at hs
    obtain ⟨-, -, rfl⟩ := hs
  · rw [accepted_wake]
    cases ((s.incoming e).pollRead cx n).1 <;> rfl
  · rw [accepted_wake]
    by_cases hde : e = d
    · subst hde
      exact written_pollWrite cx buf (hC hw)
    · refine written_of_pipe ?_
      rw [pipe_reportWrite]
      exact fun h => hde (some.inj h)
  · rfl
  · exact accepted_wake ..
  · exact accepted_wake ..
  · exact accepted_wake ..

theorem Moved.writerClosed (h : Moved d p p' es) (hc : p.writerClosed = true) :
    p'.writerClosed = true := by
  cases h with
  | closesWriter => rfl
  | _ => exact hc

/-! ## The end is final -/

/-- **The end**: nothing is left to read, and the writer is closed. -/
def Over (p : MemoryPipe) : Prop := p.buffer = [] ∧ p.writerClosed = true

theorem Moved.over (h : Moved d p p' es) {x : Ev} (hx : x ∈ es) (heof : Eof d.peer x) :
    Over p' ∧ delivered d es = [] := by
  obtain ⟨n, hn, rfl⟩ := heof
  cases h with
  | stays hes =>
    refine absurd ?_ (hes _ hx)
    simp [Ev.pipe]
  | reads hb =>
    -- a buffer that is not empty gives a byte to a destination that is not
    have hread := eq_of_mem_wake hx nofun
    simp only [Ev.read.injEq, true_and] at hread
    obtain ⟨rfl, hnil⟩ := hread
    have hlen := congrArg List.length hnil
    have hpos := length_pos_iff.mpr hb
    rw [length_take, length_nil] at hlen
    omega
  | ends hb hc => exact ⟨⟨hb, hc⟩, by simp [delivered, Ev.taken]⟩
  | starves hb hc | refuses hc | chokes hc hb => simp at hx
  | accepts hc hb | closesReader => cases eq_of_mem_wake hx nofun
  | closesWriter hy =>
    rcases hy with rfl | rfl <;> cases eq_of_mem_wake hx nofun

theorem Over.moved (h : Over p) (hm : Moved d p p' es) (ha : accepted d es = []) :
    Over p' ∧ delivered d es = [] := by
  have hflow := hm.flows
  rw [h.1, ha, append_nil, append_eq_nil_iff] at hflow
  exact ⟨⟨hflow.2, hm.writerClosed h.2⟩, hflow.1⟩

theorem eof_bars (h : Run step Careful s₀ tr s) (e : Side) : Bars (Eof e) (Delivers e) tr := by
  refine (h.bars (K := fun s => Over (s.incoming e)) ?_ ?_).2
  · intro tr s op s' es x hC hs hx heof
    have hmoved := step_moved hs e.peer
    obtain ⟨hover, hnone⟩ := hmoved.over hx (by rw [peer_peer]; exact heof)
    exact ⟨hover, not_delivers hnone⟩
  · intro tr s op s' es hC hs _ hover
    obtain ⟨hover', hnone⟩ :=
      Over.moved hover (step_moved hs e.peer) (accepted_closed hC hs hover.2)
    exact ⟨hover', not_delivers hnone⟩

theorem Moved.shuts (h : Moved d p p' es) {x : Ev} (hx : x ∈ es) (hshut : Shuts d x) :
    p'.writerClosed = true ∧ accepted d es = [] := by
  cases hshut
  cases h with
  | stays hes => exact absurd rfl (hes _ hx)
  | closesWriter hy =>
    refine ⟨rfl, ?_⟩
    rw [accepted_wake]
    rcases hy with rfl | rfl <;> rfl
  | ends hb hc | starves hb hc | refuses hc | chokes hc hb => simp at hx
  | reads hb | accepts hc hb | closesReader => cases eq_of_mem_wake hx nofun

theorem shutdown_bars (h : Run step Careful s₀ tr s) (e : Side) :
    Bars (Shuts e) (Accepts e) tr := by
  refine (h.bars (K := fun s => (s.outgoing e).writerClosed = true) ?_ ?_).2
  · intro tr s op s' es x hC hs hx hshut
    obtain ⟨hclosed, hnone⟩ := (step_moved hs e).shuts hx hshut
    exact ⟨hclosed, not_accepts hnone⟩
  · intro tr s op s' es hC hs _ hclosed
    exact ⟨(step_moved hs e).writerClosed hclosed, not_accepts (accepted_closed hC hs hclosed)⟩

/-- **The end of a stream is final if nothing is written after it.**  In a run of a pair, of
`duplex` or of `simplex`, in which no write is accepted by a closed writer, an end that has reported
the end of its stream, into a destination that is not empty, delivers no byte any more, and after
`poll_shutdown` no byte is accepted. -/
theorem eof_final (c : ℕ) (s₀ s : Sys) (tr : List Ev) (e : Side) :
    (duplex c = some s₀ → Run step Careful s₀ tr s →
      Bars (Eof e) (Delivers e) tr ∧ Bars (Shuts e) (Accepts e) tr) ∧
    (simplex c = some s₀ → Run halfStep HalfCareful s₀ tr s →
      Bars (Eof e) (Delivers e) tr ∧ Bars (Shuts e) (Accepts e) tr) := by
  refine ⟨fun _ h => ⟨eof_bars h e, shutdown_bars h e⟩, fun _ h => ?_⟩
  have hwhole : Run step Careful s₀ tr s :=
    Run.along_inputs (f := HalfOp.whole) h fun _ _ _ hC => hC
  exact ⟨eof_bars hwhole e, shutdown_bars hwhole e⟩

/-- The left end writes a byte and shuts down; the right end reads it and finds the end. -/
theorem eof_final_after_byte : ∃ s₀ s tr, simplex 4 = some s₀ ∧
    Run halfStep HalfCareful s₀ tr s ∧
    tr = [.wrote .left [1], .shutdown .left, .read .right 2 [1], .read .right 2 []] ∧
    Bars (Eof .right) (Delivers .right) tr := by
  obtain ⟨s₀, h₀⟩ : ∃ s₀, simplex 4 = some s₀ := ⟨_, rfl⟩
  obtain ⟨s, hrun⟩ : ∃ s, Run halfStep HalfCareful s₀
      [.wrote .left [1], .shutdown .left, .read .right 2 [1], .read .right 2 []] s := by
    cases h₀
    refine ⟨_, run_execIf [.write 0 [1], .shutdown, .read 0 2, .read 0 2] .nil rfl⟩
  exact ⟨s₀, s, _, h₀, hrun, rfl, ((eof_final 4 s₀ s _ .right).2 h₀ hrun).1⟩

/-- **Bytes after the end.**  The writer shuts down, the reader is told the end, the writer writes a
byte through the same handle, which is accepted, and the reader reads it. -/
theorem eof_not_final : ∃ s₀ s tr, simplex 1 = some s₀ ∧ Run halfStep Any s₀ tr s ∧
    tr = [.shutdown .left, .read .right 1 [], .wrote .left [1], .read .right 1 [1]] ∧
    ¬ Bars (Eof .right) (Delivers .right) tr ∧ ¬ Bars (Shuts .left) (Accepts .left) tr := by
  refine ⟨_, _, _, rfl, run_exec [.shutdown, .read 0 1, .write 0 [1], .read 0 1] rfl, rfl,
    fun h => ?_, fun h => ?_⟩
  · refine h [.shutdown .left, .read .right 1 []] [.wrote .left [1], .read .right 1 [1]] rfl
      ⟨.read .right 1 [], by simp, 1, Nat.one_pos, rfl⟩ (.read .right 1 [1]) (by simp) ?_
    exact ⟨1, [1], by simp, rfl⟩
  · refine h [.shutdown .left] [.read .right 1 [], .wrote .left [1], .read .right 1 [1]] rfl
      ⟨.shutdown .left, by simp, rfl⟩ (.wrote .left [1]) (by simp) ?_
    exact ⟨[1], by simp, rfl⟩

end OhosFfrt.Io.Duplex
