import OhosFfrt.Io.Duplex

/-!
# The pipes of `io::duplex`: integrity

A reader waits only at an empty buffer that may still be written to, and a writer only at a full one
that may still be read (`Sound`).  The bytes arrive in order (`duplex_integrity`).
-/

namespace OhosFfrt.Io.Duplex

open Basic Lib.Files Lib.Runs Io.Traits List Option

variable {s s' s₀ : Sys} {op : Op} {es tr : List Ev} {d e : Side} {p p' : MemoryPipe} {c : ℕ}
  {w : Option Waker} {x : Ev} {C : List Ev → Sys → Op → Prop}

@[simp] theorem peer_peer (d : Side) : d.peer.peer = d := by cases d <;> rfl

/-! ## What a step can do to a pipe -/

/-- The end that writes to the pipe an event is about. -/
def Ev.pipe : Ev → Option Side
  | .read d _ _ | .readPending d _ | .readerDropped d => some d.peer
  | .wrote d _ | .writePending d _ | .refused d _ | .shutdown d | .writerDropped d => some d
  | .flushed _ | .woke _ => none

/-- **What a step can do to the pipe** that the end `d` writes to. -/
inductive Moved (d : Side) (p : MemoryPipe) : MemoryPipe → List Ev → Prop
  | stays {es : List Ev} (hes : ∀ x ∈ es, x.pipe ≠ some d) : Moved d p p es
  | reads {n : ℕ} (hb : p.buffer ≠ []) :
      Moved d p
        { p with buffer := p.buffer.drop (min p.buffer.length n), writerWaker := none }
        (wake p.writerWaker ++ [.read d.peer n (p.buffer.take (min p.buffer.length n))])
  | ends {n : ℕ} (hb : p.buffer = []) (hc : p.writerClosed = true) :
      Moved d p p [.read d.peer n []]
  | starves {cx : Waker} (hb : p.buffer = []) (hc : p.writerClosed = false) :
      Moved d p { p with readerWaker := register p.readerWaker cx } [.readPending d.peer cx]
  | refuses {error : BrokenPipe} (hc : p.readerClosed = true) : Moved d p p [.refused d error]
  | chokes {cx : Waker} (hc : p.readerClosed = false) (hb : p.capacity ≤ p.buffer.length) :
      Moved d p { p with writerWaker := register p.writerWaker cx } [.writePending d cx]
  | accepts {buf : List Byte} (hc : p.readerClosed = false) (hb : p.buffer.length < p.capacity) :
      Moved d p
        { p with
          buffer := p.buffer ++ buf.take (min (p.capacity - p.buffer.length) buf.length)
          readerWaker := none }
        (wake p.readerWaker ++
          [.wrote d (buf.take (min (p.capacity - p.buffer.length) buf.length))])
  | closesWriter {x : Ev} (hx : x = .shutdown d ∨ x = .writerDropped d) :
      Moved d p { p with writerClosed := true, readerWaker := none } (wake p.readerWaker ++ [x])
  | closesReader :
      Moved d p { p with readerClosed := true, writerWaker := none }
        (wake p.writerWaker ++ [.readerDropped d.peer])

theorem mem_wake (h : x ∈ wake w) : ∃ v, x = .woke v := by
  obtain ⟨v, -, rfl⟩ := mem_map.mp h
  exact ⟨v, rfl⟩

theorem eq_of_mem_wake {y : Ev} (h : x ∈ wake w ++ [y]) (hx : ∀ v, x ≠ .woke v) : x = y := by
  rcases mem_append.mp h with h | h
  · obtain ⟨v, rfl⟩ := mem_wake h
    exact absurd rfl (hx v)
  · exact mem_singleton.mp h

theorem moved_stays (hx : x.pipe ≠ some d) :
    Moved d p p (wake w ++ [x]) := by
  refine .stays fun y hy => ?_
  rcases mem_append.mp hy with hy | hy
  · obtain ⟨v, rfl⟩ := mem_wake hy
    exact nofun
  · rw [mem_singleton.mp hy]
    exact hx

theorem moved_pollRead (cx : Waker) (n : ℕ) :
    Moved d p (p.pollRead cx n).2.1
      (wake (p.pollRead cx n).2.2 ++ [reportRead d.peer cx n (p.pollRead cx n).1]) := by
  unfold MemoryPipe.pollRead
  by_cases hb : p.buffer = []
  · rw [if_neg (not_not_intro hb)]
    by_cases hc : p.writerClosed = true
    · rw [if_pos hc]
      exact .ends hb hc
    · rw [if_neg hc]
      exact .starves hb (Bool.eq_false_iff.mpr hc)
  · rw [if_pos hb]
    exact .reads hb

theorem moved_pollWrite (cx : Waker) (buf : List Byte) :
    Moved d p (p.pollWrite cx buf).2.1
      (wake (p.pollWrite cx buf).2.2 ++ [reportWrite d cx buf (p.pollWrite cx buf).1]) := by
  unfold MemoryPipe.pollWrite
  by_cases hc : p.readerClosed = true
  · rw [if_pos hc]
    exact .refuses hc
  · have hopen := Bool.eq_false_iff.mpr hc
    rw [if_neg hc]
    by_cases hb : p.capacity - p.buffer.length = 0
    · simp only [if_pos hb]
      exact .chokes hopen (by omega)
    · simp only [if_neg hb]
      exact .accepts hopen (by omega)

theorem outgoing_put_self : (s.put d p).outgoing d = p := Function.update_self ..

theorem outgoing_put_of_ne (h : d ≠ e) : (s.put e p).outgoing d = s.outgoing d :=
  Function.update_of_ne h ..

theorem moved_put (hx : x.pipe = some e) (h : Moved e (s.outgoing e) p (wake w ++ [x])) (d : Side) :
    Moved d (s.outgoing d) ((s.put e p).outgoing d) (wake w ++ [x]) := by
  by_cases hde : d = e
  · subst hde
    rw [outgoing_put_self]
    exact h
  · rw [outgoing_put_of_ne hde]
    refine moved_stays ?_
    rw [hx]
    exact fun he => hde (some.inj he).symm

theorem pipe_reportRead (d : Side) (cx : Waker) (n : ℕ) (r : Poll (List Byte)) :
    (reportRead d cx n r).pipe = some d.peer := by
  cases r <;> rfl

theorem pipe_reportWrite (d : Side) (cx : Waker) (buf : List Byte)
    (r : Poll (Except BrokenPipe ℕ)) : (reportWrite d cx buf r).pipe = some d := by
  rcases r with _ | (_ | _) <;> rfl

theorem step_moved (h : step s op = some (s', es)) (d : Side) :
    Moved d (s.outgoing d) (s'.outgoing d) es := by
  rcases op with ⟨e, cx, n⟩ | ⟨e, cx, buf⟩ | e | e | e | e
  all_goals
    obtain ⟨-, ⟨⟩⟩ := ite_none_right_eq_some.mp h
  · refine moved_put (pipe_reportRead e cx n _) ?_ d
    have hmoved := moved_pollRead (d := e.peer) (p := s.outgoing e.peer) cx n
    rw [peer_peer] at hmoved
    exact hmoved
  · exact moved_put (pipe_reportWrite e cx buf _) (moved_pollWrite cx buf) d
  · exact moved_stays (w := none) nofun
  · exact moved_put (x := .shutdown e) rfl (.closesWriter (.inl rfl)) d
  · exact moved_put (x := .writerDropped e) rfl (.closesWriter (.inr rfl)) d
  · have hmoved : Moved e.peer (s.outgoing e.peer) (s.outgoing e.peer).closeReader.1
        (wake (s.outgoing e.peer).closeReader.2 ++ [.readerDropped e]) := by
      have hmoved := Moved.closesReader (d := e.peer) (p := s.outgoing e.peer)
      rw [peer_peer] at hmoved
      exact hmoved
    exact moved_put (x := .readerDropped e) rfl hmoved d

/-! ## What was written and read -/

/-- The bytes written by `d`. -/
def Ev.written (d : Side) : Ev → List Byte
  | .wrote e bytes => if e = d then bytes else []
  | _ => []

/-- The bytes read from `d`. -/
def Ev.taken (d : Side) : Ev → List Byte
  | .read e _ bytes => if e.peer = d then bytes else []
  | _ => []

/-- **What was accepted** by `poll_write` of the end `d`. -/
def accepted (d : Side) (tr : List Ev) : List Byte := tr.flatMap (Ev.written d)

/-- **What was read** by the peer of `d`. -/
def delivered (d : Side) (tr : List Ev) : List Byte := tr.flatMap (Ev.taken d)

theorem accepted_append (d : Side) (tr es : List Ev) :
    accepted d (tr ++ es) = accepted d tr ++ accepted d es := flatMap_append

theorem delivered_append (d : Side) (tr es : List Ev) :
    delivered d (tr ++ es) = delivered d tr ++ delivered d es := flatMap_append

theorem written_of_pipe (h : x.pipe ≠ some d) : x.written d = [] := by
  cases x with
  | wrote => exact if_neg fun he => h (congrArg some he)
  | _ => rfl

theorem taken_of_pipe (h : x.pipe ≠ some d) : x.taken d = [] := by
  cases x with
  | read => exact if_neg fun he => h (congrArg some he)
  | _ => rfl

theorem accepted_wake (d : Side) (w : Option Waker) (x : Ev) :
    accepted d (wake w ++ [x]) = x.written d := by
  cases w <;> simp [accepted, wake, Ev.written]

theorem delivered_wake (d : Side) (w : Option Waker) (x : Ev) :
    delivered d (wake w ++ [x]) = x.taken d := by
  cases w <;> simp [delivered, wake, Ev.taken]

theorem Moved.flows (h : Moved d p p' es) :
    delivered d es ++ p'.buffer = p.buffer ++ accepted d es := by
  cases h with
  | stays hes =>
    have hw : accepted d es = [] :=
      flatMap_eq_nil_iff.mpr fun x hx => written_of_pipe (hes x hx)
    have ht : delivered d es = [] :=
      flatMap_eq_nil_iff.mpr fun x hx => taken_of_pipe (hes x hx)
    rw [hw, ht, append_nil, nil_append]
  | reads | accepts | closesReader =>
    rw [accepted_wake, delivered_wake]
    simp [Ev.written, Ev.taken]
  | ends hb hc | starves hb hc | refuses hc | chokes hc hb =>
    simp [accepted, delivered, Ev.written, Ev.taken]
  | closesWriter hx =>
    rw [accepted_wake, delivered_wake]
    rcases hx with rfl | rfl <;> simp [Ev.written, Ev.taken]

/-! ## The invariant -/

/-- **A pipe in order**, of the capacity `c`. -/
structure Sound (c : ℕ) (p : MemoryPipe) : Prop where
  capacity : p.capacity = c
  bound : p.buffer.length ≤ c
  reader : p.readerWaker ≠ none → p.buffer = [] ∧ p.writerClosed = false
  writer : p.writerWaker ≠ none → p.buffer.length = c ∧ p.readerClosed = false

theorem sound_new (c : ℕ) : Sound c (.new c) :=
  ⟨rfl, Nat.zero_le c, fun h => absurd rfl h, fun h => absurd rfl h⟩

theorem Sound.moved (h : Sound c p) (hm : Moved d p p' es) : Sound c p' := by
  cases hm with
  | stays => exact h
  | reads hb =>
    refine ⟨h.capacity, ?_, fun hr => absurd (h.reader hr).1 hb, fun hw => absurd rfl hw⟩
    have hbound := h.bound
    rw [length_drop]
    omega
  | ends => exact h
  | starves hb hc =>
    refine ⟨h.capacity, h.bound, fun _ => ⟨hb, hc⟩, fun hw => ?_⟩
    exact h.writer hw
  | refuses => exact h
  | chokes hc hb =>
    have hbound := h.bound
    rw [h.capacity] at hb
    exact ⟨h.capacity, h.bound, h.reader, fun _ => ⟨Nat.le_antisymm hbound hb, hc⟩⟩
  | accepts =>
    have hbound := h.bound
    have hcap := h.capacity
    refine ⟨h.capacity, ?_, fun hr => absurd rfl hr, fun hw => ?_⟩
    · simp only [length_append, length_take]
      omega
    · -- a writer waits at a full buffer only
      have hfull := (h.writer hw).1
      omega
  | closesWriter =>
    exact ⟨h.capacity, h.bound, fun hr => absurd rfl hr, h.writer⟩
  | closesReader =>
    exact ⟨h.capacity, h.bound, h.reader, fun hw => absurd rfl hw⟩

theorem duplex_some (h : duplex c = some s₀) :
    0 < c ∧ s₀ = ⟨fun _ => .new c, fun _ => .live⟩ := by
  simp only [duplex, ite_none_right_eq_some, some.injEq] at h
  exact ⟨h.1, h.2.symm⟩

theorem sound_run (h₀ : duplex c = some s₀)
    (h : Run step C s₀ tr s) (d : Side) : Sound c (s.outgoing d) := by
  obtain ⟨-, rfl⟩ := duplex_some h₀
  exact h.inv (I := fun _ s => Sound c (s.outgoing d)) (sound_new c)
    fun _ _ _ _ _ hI _ hs => hI.moved (step_moved hs d)

/-- What is written is read, in order. -/
theorem flows_run (h₀ : duplex c = some s₀) (h : Run step C s₀ tr s) (d : Side) :
    delivered d tr ++ (s.outgoing d).buffer = accepted d tr := by
  obtain ⟨-, rfl⟩ := duplex_some h₀
  refine h.inv (I := fun tr s => delivered d tr ++ (s.outgoing d).buffer = accepted d tr) rfl ?_
  intro tr s op s' es hI _ hs
  have hflow := (step_moved hs d).flows
  rw [delivered_append, accepted_append, append_assoc, hflow, ← append_assoc, hI]

/-- **The pipes of a duplex pair keep what they are given.**  For every capacity, and whatever the
order in which the two ends read, write, shut down and are dropped: in each direction the bytes that
were read and the ones in the buffer are those that were accepted, in order; the buffer is not
longer than the capacity; a reader's waker is there only while the buffer is empty and the writer
not closed, and a writer's only while the buffer is full and the reader not closed. -/
theorem duplex_integrity (h₀ : duplex c = some s₀) (h : Run step Any s₀ tr s) (d : Side) :
    delivered d tr ++ (s.outgoing d).buffer = accepted d tr ∧
      (s.outgoing d).buffer.length ≤ c ∧
      ((s.outgoing d).readerWaker ≠ none →
        (s.outgoing d).buffer = [] ∧ (s.outgoing d).writerClosed = false) ∧
      ((s.outgoing d).writerWaker ≠ none →
        (s.outgoing d).buffer.length = c ∧ (s.outgoing d).readerClosed = false) := by
  have hsound := sound_run h₀ h d
  exact ⟨flows_run h₀ h d, hsound.bound, hsound.reader, hsound.writer⟩

/-- A pair with room for two bytes: the left end fills its pipe and waits, and the right end, which
waited for the bytes, reads one. -/
theorem duplex_integrity_two : ∃ s₀ s tr, duplex 2 = some s₀ ∧ Run step Any s₀ tr s ∧
    delivered .left tr = [1] ∧ (s.outgoing .left).buffer = [2] ∧
    delivered .left tr ++ (s.outgoing .left).buffer = accepted .left tr := by
  obtain ⟨s₀, h₀⟩ : ∃ s₀, duplex 2 = some s₀ := ⟨_, rfl⟩
  obtain ⟨s, hrun, hbuffer⟩ : ∃ s, Run step Any s₀
      [.readPending .right 7, .woke 7, .wrote .left [1, 2], .writePending .left 8, .woke 8,
        .read .right 1 [1]] s ∧ (s.outgoing .left).buffer = [2] := by
    cases h₀
    exact ⟨_, run_exec [.read .right 7 1, .write .left 7 [1, 2, 3], .write .left 8 [3],
      .read .right 7 1] rfl, rfl⟩
  exact ⟨s₀, s, _, h₀, hrun, rfl, hbuffer, (duplex_integrity h₀ hrun .left).1⟩

end OhosFfrt.Io.Duplex
