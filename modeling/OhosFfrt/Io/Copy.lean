import OhosFfrt.Io.BufRead
import OhosFfrt.Io.Script
import OhosFfrt.Io.Transfer
import OhosFfrt.Lib.Polling

/-!
# `io::copy` and `io::copy_buf`

`Copy` has a buffer of its own for what was read and is not written yet.  `copy_buf` has none: it
offers the writer what the reader has buffered and consumes what the writer has taken.  Both move
every byte once (`copies_exact`).
-/

namespace OhosFfrt.Io

open Basic Lib.Files Lib.Polling Lib.Runs Io.Traits List Option
open Io.Transfer

/-! ## `copy` -/

/-- `Copy`; the fields of the transfer are `buf`, `pos`, `cap`, `amount` and `eof`. -/
structure Copy (R W : Type*) where
  reader : R
  writer : W
  state : Transfer

namespace Copy

variable {R W : Type*}

/-- `io::copy`. -/
def copy (reader : R) (writer : W) : Copy R W := ⟨reader, writer, .new (8 * 1024)⟩

/-- `Copy::poll`: the next call of the loop. -/
def next [AsyncRead R] [AsyncWrite W] (this : Copy R W) (cx : Waker) :
    Option (Copy R W × Option (Poll (Result ℕ)) × List Call) :=
  (this.state.next pollFlush "failed to copy entire stream" this.reader this.writer cx).map fun n =>
    (⟨n.reader, n.writer, n.state⟩, n.result, n.calls)

variable [AsyncRead R] [LawfulWriter W] {c c' : Copy R W} {cx : Waker}
  {r : Option (Poll (Result ℕ))} {base : List Byte} {cs cs' : List Call}

/-- Every byte read is written or in the buffer. -/
def Exact (base : List Byte) (cs : List Call) (c : Copy R W) : Prop :=
  Transfer.Exact base cs c.state c.writer

theorem exact_next (h : Exact base cs c) (hn : c.next cx = some (c', r, cs')) :
    Exact base (cs ++ cs') c' := by
  obtain ⟨n, ht, he⟩ := map_eq_some_iff.mp hn
  simp only [Prod.mk.injEq] at he
  obtain ⟨rfl, rfl, rfl⟩ := he
  exact Transfer.Exact.next h LawfulWriter.consumed_flush ht

theorem next_spec (h : Exact base cs c) (hn : c.next cx = some (c', r, cs')) :
    (∀ n e, .read n (.ready (.error e)) ∈ cs' →
      r = some (.ready (.error e)) ∧ c'.state.unwritten = []) ∧
    (∀ k, r = some (.ready (.ok k)) → AtEnd cs ∧ .close (.ready (.ok ())) ∈ cs' ∧
      k = (readOf cs).length ∧ LawfulWriter.consumed c'.writer = base ++ readOf cs) ∧
    ∀ bytes, .write bytes (.ready (.ok 0)) ∈ cs' → bytes ≠ [] ∧
      r = some (.ready (.error ⟨.writeZero, "failed to copy entire stream"⟩)) := by
  obtain ⟨n, ht, he⟩ := map_eq_some_iff.mp hn
  simp only [Prod.mk.injEq] at he
  obtain ⟨rfl, rfl, rfl⟩ := he
  have hnonempty : c.state.pos < c.state.cap → c.state.unwritten ≠ [] := by
    intro hp hnil
    have hlen := length_unwritten c.state
    rw [hnil, length_nil] at hlen
    omega
  cases next_called ht with
  | readFailed hp =>
    refine ⟨fun n e he => ?_, by simp, by simp⟩
    simp only [mem_singleton, Call.read.injEq, Poll.ready.injEq, Except.error.injEq] at he
    exact ⟨by rw [he.2], unwritten_nil (Nat.le_of_eq hp.symm)⟩
  | writeZero hp => exact ⟨by simp, by simp, by simpa using hnonempty hp⟩
  | wrote => exact ⟨by simp, by simp, by simp⟩
  | closed hp he hw =>
    refine ⟨by simp, fun k hk => ?_, by simp⟩
    have hnil := unwritten_nil hp
    have hamount := h.amount
    have hbytes := h.bytes
    have hflush := LawfulWriter.consumed_flush c.writer cx
    rw [hnil] at hamount hbytes
    rw [hw] at hflush
    refine ⟨h.eof.mp he, mem_singleton_self _, ?_, ?_⟩
    · rw [← hamount]
      simpa using hk.symm
    · rw [hbytes, append_nil]
      exact hflush
  | _ => exact ⟨by simp, by simp, by simp⟩

end Copy

/-! ## `copy_buf` -/

/-- The calls of a `CopyBuf`. -/
inductive BufCall
  | fillBuf (r : Poll (Result (List Byte)))
  | write (offered : List Byte) (r : Poll (Result ℕ))
  | consume (amount : ℕ)
  | flush (r : Poll (Result Unit))
  deriving DecidableEq

/-- The future of `copy_buf`. -/
structure CopyBuf (R W : Type*) where
  reader : R
  writer : W
  amount : ℕ
  finished : Bool

namespace CopyBuf

variable {R W : Type*}

/-- `io::copy_buf`. -/
def copyBuf (reader : R) (writer : W) : CopyBuf R W := ⟨reader, writer, 0, false⟩

/-- The result of a round. -/
abbrev Turn (R W : Type*) := CopyBuf R W × Option (Poll (Result ℕ)) × List BufCall

/-- The end of the input: flush. -/
def flush [AsyncWrite W] (this : CopyBuf R W) (cx : Waker) (calls : List BufCall) : Turn R W :=
  match pollFlush this.writer cx with
  | (.pending, writer) =>
    ({ this with writer := writer }, some .pending, calls ++ [.flush .pending])
  | (.ready (.error e), writer) =>
    ({ this with writer := writer, finished := true }, some (.ready (.error e)),
      calls ++ [.flush (.ready (.error e))])
  | (.ready (.ok ()), writer) =>
    ({ this with writer := writer, finished := true }, some (.ready (.ok this.amount)),
      calls ++ [.flush (.ready (.ok ()))])

/-- Writes what is available. -/
def write [AsyncBufRead R] [AsyncWrite W] (this : CopyBuf R W) (cx : Waker)
    (available : List Byte) (calls : List BufCall) : Option (Turn R W) :=
  match pollWrite this.writer cx available with
  | (.pending, writer) =>
    some ({ this with writer := writer }, some .pending, calls ++ [.write available .pending])
  | (.ready (.error e), writer) =>
    some ({ this with writer := writer, finished := true }, some (.ready (.error e)),
      calls ++ [.write available (.ready (.error e))])
  | (.ready (.ok 0), writer) =>
    some ({ this with writer := writer, finished := true },
      some (.ready (.error ⟨.writeZero, "failed to copy buffered stream"⟩)),
      calls ++ [.write available (.ready (.ok 0))])
  | (.ready (.ok (n + 1)), writer) =>
    (consume this.reader (n + 1)).bind fun reader =>
      (checkedAdd this.amount (n + 1)).map fun amount =>
        ({ this with reader := reader, writer := writer, amount := amount }, none,
          calls ++ [.write available (.ready (.ok (n + 1))), .consume (n + 1)])

/-- **One turn of the loop.** -/
def next [AsyncBufRead R] [AsyncWrite W] (this : CopyBuf R W) (cx : Waker) : Option (Turn R W) :=
  if this.finished then none
  else
    match pollFillBuf this.reader cx with
    | (.pending, reader) =>
      some ({ this with reader := reader }, some .pending, [.fillBuf .pending])
    | (.ready (.error e), reader) =>
      some ({ this with reader := reader, finished := true }, some (.ready (.error e)),
        [.fillBuf (.ready (.error e))])
    | (.ready (.ok available), reader) =>
      let this := { this with reader := reader }
      if available = [] then some (this.flush cx [.fillBuf (.ready (.ok available))])
      else this.write cx available [.fillBuf (.ready (.ok available))]

/-! ### The reader and the writer are at the same byte -/

variable [LawfulBufRead R] [LawfulWriter W] {c c' : CopyBuf R W} {cx : Waker}
  {r : Option (Poll (Result ℕ))} {cs : List BufCall} {b₁ b₂ moved : List Byte}

/-- **The reader has consumed what the writer has taken**, after the bytes `b₁` and `b₂` that they
had before. -/
structure Even (b₁ b₂ moved : List Byte) (c : CopyBuf R W) : Prop where
  reader : LawfulBufRead.consumed c.reader = b₁ ++ moved
  writer : LawfulWriter.consumed c.writer = b₂ ++ moved
  amount : c.amount = moved.length

theorem Even.setReader {reader : R} (h : Even b₁ b₂ moved c)
    (hr : LawfulBufRead.consumed reader = LawfulBufRead.consumed c.reader) (f : Bool) :
    Even b₁ b₂ moved { c with reader := reader, finished := f } :=
  ⟨hr.trans h.reader, h.writer, h.amount⟩

theorem Even.setWriter {writer : W} (h : Even b₁ b₂ moved c)
    (hw : LawfulWriter.consumed writer = LawfulWriter.consumed c.writer) (f : Bool) :
    Even b₁ b₂ moved { c with writer := writer, finished := f } :=
  ⟨h.reader, hw.trans h.writer, h.amount⟩

/-- **What a round does.** -/
structure Turns (b₁ b₂ moved : List Byte) (c' : CopyBuf R W) (r : Option (Poll (Result ℕ)))
    (cs : List BufCall) : Prop where
  even : ∃ moved', Even b₁ b₂ (moved ++ moved') c'
  ok : ∀ k, r = some (.ready (.ok k)) → .fillBuf (.ready (.ok [])) ∈ cs ∧
    .flush (.ready (.ok ())) ∈ cs ∧ k = moved.length ∧ Even b₁ b₂ moved c'
  zero : ∀ bytes, .write bytes (.ready (.ok 0)) ∈ cs → bytes ≠ [] ∧
    r = some (.ready (.error ⟨.writeZero, "failed to copy buffered stream"⟩))

theorem Turns.of_even (h : Even b₁ b₂ moved c') (hr : ∀ k, r ≠ some (.ready (.ok k)))
    (hcs : ∀ bytes, .write bytes (.ready (.ok 0)) ∉ cs) : Turns b₁ b₂ moved c' r cs where
  even := ⟨[], by rwa [append_nil]⟩
  ok k hk := absurd hk (hr k)
  zero bytes hb := absurd hb (hcs bytes)

theorem flush_turns (h : Even b₁ b₂ moved c) (cx : Waker) :
    Turns b₁ b₂ moved (c.flush cx [.fillBuf (.ready (.ok []))]).1
      (c.flush cx [.fillBuf (.ready (.ok []))]).2.1
      (c.flush cx [.fillBuf (.ready (.ok []))]).2.2 := by
  have hflush := LawfulWriter.consumed_flush c.writer cx
  unfold flush
  generalize pollFlush c.writer cx = q at hflush ⊢
  rcases q with ⟨_ | (e | _), writer⟩
  · exact .of_even (h.setWriter hflush c.finished) (by simp) (by simp)
  · exact .of_even (h.setWriter hflush true) (by simp) (by simp)
  · have heven := h.setWriter hflush true
    refine ⟨⟨[], by rwa [append_nil]⟩, fun k hk => ?_, by simp⟩
    refine ⟨by simp, by simp, ?_, heven⟩
    rw [← h.amount]
    simpa using hk.symm

theorem write_turns {available : List Byte} (h : Even b₁ b₂ moved c) (hne : available ≠ [])
    (hconsume : ∀ k ≤ available.length, ∃ reader, consume c.reader k = some reader ∧
      LawfulBufRead.consumed reader = LawfulBufRead.consumed c.reader ++ available.take k)
    (hw : c.write cx available [.fillBuf (.ready (.ok available))] = some (c', r, cs)) :
    Turns b₁ b₂ moved c' r cs := by
  have hamount := LawfulWriter.amount_write c.writer cx available
  have hconsumed := LawfulWriter.consumed_write c.writer cx available
  unfold write at hw
  generalize pollWrite c.writer cx available = q at hamount hconsumed hw
  rcases q with ⟨_ | (e | _ | n), writer⟩
  · have hsame : LawfulWriter.consumed writer = LawfulWriter.consumed c.writer := by
      simpa [Poll.amount] using hconsumed
    cases hw
    exact .of_even (h.setWriter hsame c.finished) (by simp) (by simp)
  · have hsame : LawfulWriter.consumed writer = LawfulWriter.consumed c.writer := by
      simpa [Poll.amount] using hconsumed
    cases hw
    exact .of_even (h.setWriter hsame true) (by simp) (by simp)
  · have hsame : LawfulWriter.consumed writer = LawfulWriter.consumed c.writer := by
      simpa [Poll.amount] using hconsumed
    cases hw
    refine ⟨⟨[], ?_⟩, by simp, by simpa using hne⟩
    rw [append_nil]
    exact h.setWriter hsame true
  · replace hamount : n + 1 ≤ available.length := hamount
    obtain ⟨reader, hreader, hw⟩ := bind_eq_some_iff.mp hw
    obtain ⟨amount, ha, he⟩ := map_eq_some_iff.mp hw
    cases he
    obtain ⟨reader', hc, hconsumed'⟩ := hconsume (n + 1) hamount
    obtain rfl := some.inj (hc.symm.trans hreader)
    refine ⟨⟨available.take (n + 1), ⟨?_, ?_, ?_⟩⟩, by simp, by simp⟩
    · rw [hconsumed', h.reader, append_assoc]
    · show LawfulWriter.consumed writer = _
      rw [hconsumed, h.writer, append_assoc]
      rfl
    · unfold checkedAdd at ha
      split_ifs at ha
      rw [length_append, length_take, Nat.min_eq_left hamount, ← h.amount]
      exact (some.inj ha).symm

theorem next_turns (h : Even b₁ b₂ moved c) (hn : c.next cx = some (c', r, cs)) :
    Turns b₁ b₂ moved c' r cs := by
  have hfill := LawfulBufRead.consumed_fillBuf c.reader cx
  have hshown := LawfulBufRead.consume_shown c.reader cx
  unfold next at hn
  split_ifs at hn
  generalize pollFillBuf c.reader cx = q at hfill hshown hn
  rcases q with ⟨_ | (e | available), reader⟩
  · cases hn
    exact .of_even (h.setReader hfill c.finished) (by simp) (by simp)
  · cases hn
    exact .of_even (h.setReader hfill true) (by simp) (by simp)
  · have heven := h.setReader hfill c.finished
    simp only at hn
    split_ifs at hn with hnil
    · subst hnil
      have hflush := flush_turns heven cx
      rwa [some.inj hn] at hflush
    · refine write_turns heven hnil (fun k hk => ?_) hn
      exact hshown available reader k rfl hk

end CopyBuf

/-! ## Both -/

section
variable {R B W W' : Type*} [AsyncRead R] [LawfulBufRead B] [LawfulWriter W] [LawfulWriter W']

theorem exact_run {reader : R} {writer : W} {tr : List (Ev Call (Poll (Result ℕ)))}
    {s : Polled (Copy R W) Waker} (h : Run (drive Copy.next) Any ⟨.copy reader writer, none⟩ tr s) :
    Copy.Exact (LawfulWriter.consumed writer) (callsOf tr) s.future :=
  drive_inv h (exact_new (by decide) writer) fun _ _ _ _ _ _ hI hn => Copy.exact_next hI hn

theorem even_run {reader : B} {writer : W} {tr : List (Ev BufCall (Poll (Result ℕ)))}
    {s : Polled (CopyBuf B W) Waker}
    (h : Run (drive CopyBuf.next) Any ⟨.copyBuf reader writer, none⟩ tr s) :
    ∃ moved, CopyBuf.Even (LawfulBufRead.consumed reader) (LawfulWriter.consumed writer) moved
      s.future := by
  refine drive_inv (I := fun _ c => ∃ moved, CopyBuf.Even (LawfulBufRead.consumed reader)
    (LawfulWriter.consumed writer) moved c) h ⟨[], ?_⟩ ?_
  · exact ⟨(append_nil _).symm, (append_nil _).symm, rfl⟩
  · rintro cs c cx c' r cs' ⟨moved, hI⟩ hn
    obtain ⟨moved', h'⟩ := (CopyBuf.next_turns hI hn).even
    exact ⟨moved ++ moved', h'⟩

/-- **Every byte is moved once.**  For every reader and every lawful writer:

* whatever the calls of a `Copy` return, what the writer has taken followed by what is left of the
  buffer is what was read; a failed read is reported when nothing is left of it; `Ok(n)` is
  returned after the end of the reader, by a flush that succeeds, and `n` is the number of bytes
  read, all of which the writer has taken; a write of nothing of a chunk that is not empty is an
  error;
* whatever those of `copy_buf` return, the reader has consumed what the writer has taken, and
  `Ok(n)` and a write of nothing are as above. -/
theorem copies_exact {reader : R} {writer : W} {tr : List (Ev Call (Poll (Result ℕ)))}
    {s : Polled (Copy R W) Waker} {reader' : B} {writer' : W'}
    {tr' : List (Ev BufCall (Poll (Result ℕ)))} {t : Polled (CopyBuf B W') Waker}
    (h : Run (drive Copy.next) Any ⟨.copy reader writer, none⟩ tr s)
    (h' : Run (drive CopyBuf.next) Any ⟨.copyBuf reader' writer', none⟩ tr' t) :
    (LawfulWriter.consumed writer ++ readOf (callsOf tr) =
        LawfulWriter.consumed s.future.writer ++ s.future.state.unwritten ∧
      ∀ op s' es, drive Copy.next s op = some (s', es) →
        (∀ n e, .call (.read n (.ready (.error e))) ∈ es →
          .returned (.ready (.error e)) ∈ es ∧ s'.future.state.unwritten = []) ∧
        (∀ n, .returned (.ready (.ok n)) ∈ es → AtEnd (callsOf tr) ∧
          .call (.close (.ready (.ok ()))) ∈ es ∧ n = (readOf (callsOf tr)).length ∧
          LawfulWriter.consumed s'.future.writer =
            LawfulWriter.consumed writer ++ readOf (callsOf tr)) ∧
        ∀ bytes, .call (.write bytes (.ready (.ok 0))) ∈ es → bytes ≠ [] ∧
          .returned (.ready (.error ⟨.writeZero, "failed to copy entire stream"⟩)) ∈ es) ∧
    ∃ moved, LawfulBufRead.consumed t.future.reader = LawfulBufRead.consumed reader' ++ moved ∧
      LawfulWriter.consumed t.future.writer = LawfulWriter.consumed writer' ++ moved ∧
      ∀ op t' es, drive CopyBuf.next t op = some (t', es) →
        (∀ n, .returned (.ready (.ok n)) ∈ es → .call (.fillBuf (.ready (.ok []))) ∈ es ∧
          .call (.flush (.ready (.ok ()))) ∈ es ∧ n = moved.length ∧
          LawfulWriter.consumed t'.future.writer = LawfulWriter.consumed writer' ++ moved) ∧
        ∀ bytes, .call (.write bytes (.ready (.ok 0))) ∈ es → bytes ≠ [] ∧
          .returned (.ready (.error ⟨.writeZero, "failed to copy buffered stream"⟩)) ∈ es := by
  refine ⟨⟨(exact_run h).bytes, fun op s' es hs => ?_⟩, ?_⟩
  · rcases drive_step hs with ⟨-, rfl⟩ | ⟨cx, r, cs, hn, rfl⟩
    · simp
    · simp only [call_mem, returned_mem]
      exact Copy.next_spec (exact_run h) hn
  · obtain ⟨moved, heven⟩ := even_run h'
    refine ⟨moved, heven.reader, heven.writer, fun op t' es hs => ?_⟩
    rcases drive_step hs with ⟨-, rfl⟩ | ⟨cx, r, cs, hn, rfl⟩
    · simp
    · have hturns := CopyBuf.next_turns heven hn
      simp only [call_mem, returned_mem]
      refine ⟨fun n hr => ?_, hturns.zero⟩
      obtain ⟨hfill, hflush, hk, heven'⟩ := hturns.ok n hr
      exact ⟨hfill, hflush, hk, heven'.writer⟩

end

/-- A copy of two bytes. -/
def ofTwo : Polled (Copy Script Script) Waker :=
  ⟨.copy ⟨[.ready (.ok [1, 2])], [], [], []⟩ ⟨[], [.ready (.ok 1)], [], []⟩, none⟩

/-- Of two bytes, over a buffered reader. -/
def bufOfTwo : Polled (CopyBuf Slice Cursor) Waker := ⟨.copyBuf ⟨[1, 2], 0⟩ ⟨[0], 0⟩, none⟩

-- the buffer of a copy has 8192 bytes
set_option maxRecDepth 100000 in
theorem copies_exact_two : ∃ (s s' : Polled (Copy Script Script) Waker)
    (tr : List (Ev Call (Poll (Result ℕ)))) (t t' : Polled (CopyBuf Slice Cursor) Waker)
    (tr' : List (Ev BufCall (Poll (Result ℕ)))),
    Run (drive Copy.next) Any ofTwo tr s ∧
    drive Copy.next s .go =
      some (s', [.call (.close (.ready (.ok ()))), .returned (.ready (.ok 2))]) ∧
    AtEnd (callsOf tr) ∧ LawfulWriter.consumed s'.future.writer = [1, 2] ∧
    Run (drive CopyBuf.next) Any bufOfTwo tr' t ∧
    drive CopyBuf.next t .go =
      some (t', [.call (.fillBuf (.ready (.ok [2]))), .call (.write [2] (.ready (.ok 0))),
        .returned (.ready (.error ⟨.writeZero, "failed to copy buffered stream"⟩))]) ∧
    LawfulBufRead.consumed t.future.reader = [1] := by
  have h : Run (drive Copy.next) Any ofTwo _ _ :=
    run_exec [.poll 0, .go, .go, .go, .go] rfl
  have h' : Run (drive CopyBuf.next) Any bufOfTwo _ _ :=
    run_exec [.poll 0, .go] rfl
  have hok := ((copies_exact h h').1.2 .go _
    [.call (.close (.ready (.ok ()))), .returned (.ready (.ok 2))] rfl).2.1 2 (by simp)
  exact ⟨_, _, _, _, _, _, h, rfl, hok.1, hok.2.2.2, h', rfl, rfl⟩

end OhosFfrt.Io
