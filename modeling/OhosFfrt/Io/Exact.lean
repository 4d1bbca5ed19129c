import OhosFfrt.Io.Delimited
import OhosFfrt.Io.Script

/-!
# `io`: `read_exact` and `write_all`

The loops of `ReadExact::poll` and `WriteAll::poll` go on until the buffer is full, and until it is
written; any turn may read or write a part only, or be pending (`readExact_completes`,
`writeAll_completes`).
-/

namespace OhosFfrt.Io

open Basic Lib.Files Lib.Polling Io.Traits List

/-! ## The code -/

/-- `io::Error`, as `ReadExact` returns it: an error of the reader, or one of the kind
`UnexpectedEof`. -/
inductive ExactError
  | io (e : Error)
  | unexpectedEof (message : String)
  deriving DecidableEq, Repr

/-- The error of an early end. -/
def earlyEof : ExactError := .unexpectedEof "early EOF while filling buffer"

structure ReadExact (R : Type*) where
  reader : R
  buf : List Byte
  read : ℕ

structure WriteAll (W : Type*) where
  writer : W
  buf : List Byte

/-- The buffer, after `bytes` were put into `this.buf[this.read..]`. -/
def ReadExact.filled {R : Type*} (this : ReadExact R) (bytes : List Byte) : List Byte :=
  this.buf.take this.read ++ bytes ++ this.buf.drop (this.read + bytes.length)

section
variable {R : Type*} [AsyncRead R] {W : Type*} [AsyncWrite W]

/-- A turn of the loop of `ReadExact::poll`. -/
def ReadExact.turn (this : ReadExact R) (cx : Waker) :
    Option (ReadExact R × Option (Poll (Except ExactError ℕ))) :=
  if this.read < this.buf.length then
    match pollRead this.reader cx (this.buf.length - this.read) with
    | (.pending, reader) => some ({ this with reader := reader }, some .pending)
    | (.ready (.error e), reader) =>
      some ({ this with reader := reader }, some (.ready (.error (.io e))))
    | (.ready (.ok bytes), reader) =>
      if bytes.1.length = 0 then
        some ({ this with reader := reader, buf := this.filled bytes.1 },
          some (.ready (.error earlyEof)))
      else some (⟨reader, this.filled bytes.1, this.read + bytes.1.length⟩, none)
  else some (this, some (.ready (.ok this.buf.length)))

/-- `ReadExact::poll`. -/
def ReadExact.poll (n : ℕ) :
    ReadExact R → Waker → Option (Poll (Except ExactError ℕ) × ReadExact R) :=
  loop ReadExact.turn n

/-- A turn of the loop of `WriteAll::poll`. -/
def WriteAll.turn (this : WriteAll W) (cx : Waker) :
    Option (WriteAll W × Option (Poll (Result Unit))) :=
  if this.buf = [] then some (this, some (.ready (.ok ())))
  else
    match pollWrite this.writer cx this.buf with
    | (.ready (.ok 0), writer) =>
      some ({ this with writer := writer },
        some (.ready (.error ⟨.writeZero, "failed to write whole buffer"⟩)))
    | (.ready (.ok n), writer) =>
      -- `&this.buf[n..]` panics out of bounds
      if n ≤ this.buf.length then some (⟨writer, this.buf.drop n⟩, none) else none
    | (.ready (.error e), writer) =>
      some ({ this with writer := writer }, some (.ready (.error e)))
    | (.pending, writer) => some ({ this with writer := writer }, some .pending)

/-- `WriteAll::poll`. -/
def WriteAll.poll (n : ℕ) : WriteAll W → Waker → Option (Poll (Result Unit) × WriteAll W) :=
  loop WriteAll.turn n

/-- `reader.read_exact(&mut buf).await`: its result and the buffer after it. -/
def readExact (n : ℕ) (buf : List Byte) (w : ℕ → Waker) (reader : R) :
    Option ((Except ExactError ℕ × List Byte) × R) :=
  (complete (ReadExact.poll n) readyValue n w ⟨reader, buf, 0⟩).map fun r =>
    ((r.1, r.2.buf), r.2.reader)

/-- `writer.write_all(&buf).await`. -/
def writeAll (n : ℕ) (buf : List Byte) (w : ℕ → Waker) (writer : W) :
    Option (Result Unit × W) :=
  (complete (WriteAll.poll n) readyValue n w ⟨writer, buf⟩).map fun r => (r.1, r.2.writer)

end

/-! ## `read_exact` -/

theorem ReadExact.length_filled {R : Type*} (this : ReadExact R) {bytes : List Byte}
    (h : this.read + bytes.length ≤ this.buf.length) :
    (this.filled bytes).length = this.buf.length := by
  simp only [ReadExact.filled, length_append, length_take, length_drop]
  omega

theorem ReadExact.take_filled {R : Type*} (this : ReadExact R) {bytes : List Byte}
    (h : this.read ≤ this.buf.length) :
    (this.filled bytes).take (this.read + bytes.length) = this.buf.take this.read ++ bytes := by
  apply take_left'
  rw [length_append, length_take]
  omega

section
variable {R : Type*} [FiniteRead R] {l : List Byte} {size : ℕ}

open FiniteRead (unread wait)

namespace ReadExact

/-- Of the bytes `l`, a part is in the buffer. -/
structure Reads (size : ℕ) (l : List Byte) (this : ReadExact R) : Prop where
  length : this.buf.length = size
  le : this.read ≤ size
  parts : l = this.buf.take this.read ++ unread this.reader

/-- The buffer is full, or the end came early. -/
def Done (size : ℕ) (l : List Byte) (result : Except ExactError ℕ) (this : ReadExact R) : Prop :=
  if size ≤ l.length then
    result = .ok size ∧ this.buf = l.take size ∧ unread this.reader = l.drop size
  else result = .error earlyEof

/-- What is left to read, and the pending calls before more of it is read. -/
def measure (this : ReadExact R) : ℕ ×ₗ ℕ :=
  toLex (this.buf.length - this.read, wait this.reader)

theorem turn_spec {this : ReadExact R} (h : Reads size l this) (cx : Waker) :
    ∃ f r, this.turn cx = some (f, r) ∧
      ((∃ b, r.bind readyValue = some b ∧ Done size l b f) ∨
        r.bind readyValue = none ∧ Reads size l f ∧ f.measure < this.measure) := by
  obtain ⟨hlen, hle, hparts⟩ := h
  have hlenl : l.length = this.read + (unread this.reader).length := by
    rw [hparts, length_append, length_take]
    omega
  by_cases hlt : this.read < this.buf.length
  · generalize hr : pollRead this.reader cx (this.buf.length - this.read) = q
    rcases q with ⟨_ | (e | bytes), reader⟩
    · -- pending
      obtain ⟨hunread, hwait⟩ := FiniteRead.read_pending _ _ _ _ hr
      refine ⟨{ this with reader := reader }, some .pending, ?_, .inr ⟨rfl, ⟨hlen, hle, ?_⟩, ?_⟩⟩
      · rw [turn, if_pos hlt, hr]
      · rw [hunread]
        exact hparts
      · exact Prod.Lex.toLex_lt_toLex.mpr (.inr ⟨rfl, hwait⟩)
    · exact absurd hr (FiniteRead.read_error _ _ _ _ _)
    · obtain ⟨hunread, hend⟩ := FiniteRead.read_ready _ _ _ _ _ hr
      have hfit := bytes.2
      by_cases hn : bytes.1.length = 0
      · -- the bytes have ended
        have hnil := hend (by omega) (eq_nil_of_length_eq_zero hn)
        refine ⟨{ this with reader := reader, buf := this.filled bytes.1 },
          some (.ready (.error earlyEof)), ?_, .inl ⟨_, rfl, ?_⟩⟩
        · rw [turn, if_pos hlt, hr]
          exact if_pos hn
        · rw [Done, if_neg]
          rw [hlenl, hnil, length_nil]
          omega
      · -- some bytes are read
        have hfilled := this.length_filled (show this.read + bytes.1.length ≤ _ by omega)
        refine ⟨⟨reader, this.filled bytes.1, this.read + bytes.1.length⟩, none, ?_,
          .inr ⟨rfl, ⟨hfilled.trans hlen, ?_, ?_⟩, ?_⟩⟩
        · rw [turn, if_pos hlt, hr]
          exact if_neg hn
        · show this.read + bytes.1.length ≤ size
          omega
        · show l = (this.filled bytes.1).take (this.read + bytes.1.length) ++ unread reader
          rw [this.take_filled (by omega), hparts, hunread, append_assoc]
        · refine Prod.Lex.toLex_lt_toLex.mpr (.inl ?_)
          show (this.filled bytes.1).length - (this.read + bytes.1.length) <
            this.buf.length - this.read
          omega
  · -- the buffer is full
    have hread : this.read = size := by omega
    have hall : this.buf.take this.read = this.buf := take_of_length_le (by omega)
    rw [hall] at hparts
    refine ⟨this, some (.ready (.ok this.buf.length)), ?_, .inl ⟨_, rfl, ?_⟩⟩
    · rw [turn, if_neg hlt]
    · rw [Done, if_pos (by omega)]
      refine ⟨by rw [hlen], ?_, ?_⟩
      · rw [hparts, take_left' hlen]
      · rw [hparts, drop_left' hlen]

end ReadExact

/-- `read_exact` fills the buffer or finds the end. -/
theorem readExact_completes (buf : List Byte) (w : ℕ → Waker) (r : R) :
    if buf.length ≤ (unread r).length then
      ∃ N r', unread r' = (unread r).drop buf.length ∧ ∀ n, N ≤ n → readExact n buf w r =
        some ((.ok buf.length, (unread r).take buf.length), r')
    else ∃ N buf' r', ∀ n, N ≤ n → readExact n buf w r = some ((.error earlyEof, buf'), r') := by
  have hpoll : ∀ n f cx, ReadExact.Reads buf.length (unread r) f →
      ReadExact.poll (R := R) n f cx = loop ReadExact.turn n f cx := fun _ _ _ _ => rfl
  have hreads : ReadExact.Reads buf.length (unread r) (⟨r, buf, 0⟩ : ReadExact R) :=
    ⟨rfl, Nat.zero_le _, rfl⟩
  obtain ⟨N, b, f, hdone, hN⟩ :=
    complete_of_turn hpoll (fun _ cx h => ReadExact.turn_spec h cx) hreads w
  unfold ReadExact.Done at hdone
  split_ifs at hdone ⊢
  · obtain ⟨rfl, hbuf, hrest⟩ := hdone
    refine ⟨N, f.reader, hrest, fun n hn => ?_⟩
    rw [readExact, hN n hn, ← hbuf]
    rfl
  · subst hdone
    refine ⟨N, f.buf, f.reader, fun n hn => ?_⟩
    rw [readExact, hN n hn]
    rfl

end

/-! ## `write_all` -/

/-- **A writer that goes on**: it takes at least a byte of what it is offered, after any number of
pending calls, and does not fail. -/
class SteadyWriter (W : Type*) extends LawfulWriter W where
  stall : W → ℕ
  write_pending : ∀ w cx bytes w', pollWrite w cx bytes = (.pending, w') → stall w' < stall w
  write_zero : ∀ w cx bytes w', pollWrite w cx bytes = (.ready (.ok 0), w') → bytes = []
  write_error : ∀ w cx bytes e w', pollWrite w cx bytes ≠ (.ready (.error e), w')

/-- A writer that is pending, or takes so many bytes and one more, as is said for each of its
calls; then it takes all that it is offered. -/
structure Portions where
  portions : List (Option ℕ)
  taken : List Byte

namespace Portions

/-- The answer to an offer of `n` bytes. -/
def answer (n : ℕ) : List (Option ℕ) → Poll (Result ℕ)
  | [] => .ready (.ok n)
  | none :: _ => .pending
  | some k :: _ => .ready (.ok (k + 1))

/-- It takes as much as it likes. -/
def write (this : Portions) (bytes : List Byte) : Poll (Result ℕ) × Portions :=
  let r := offered this.taken bytes (answer bytes.length this.portions)
  (r.1, ⟨this.portions.tail, r.2⟩)

instance : AsyncWrite Portions where
  pollWrite this _ bytes := this.write bytes
  pollWriteVectored this _ bufs := this.write bufs.flatten
  isWriteVectored _ := true
  pollFlush this _ := (.ready (.ok ()), this)
  pollShutdown this _ := (.ready (.ok ()), this)

instance : SteadyWriter Portions where
  consumed := taken
  amount_write _ _ _ := (offered_spec ..).1
  consumed_write _ _ _ := (offered_spec ..).2
  amount_writeVectored _ _ _ := (offered_spec ..).1
  consumed_writeVectored _ _ _ := (offered_spec ..).2
  consumed_flush _ _ := rfl
  consumed_shutdown _ _ := rfl
  stall this := this.portions.length
  write_pending this cx bytes this' h := by
    obtain ⟨_ | ⟨_ | k, portions⟩, taken⟩ := this <;> cases h
    exact Nat.lt_succ_self _
  write_zero this cx bytes this' h := by
    obtain ⟨h, -⟩ := Prod.mk.inj h
    obtain ⟨_ | ⟨_ | k, portions⟩, taken⟩ := this
    · have hzero : (bytes.take bytes.length).length = 0 := Except.ok.inj (Poll.ready.inj h)
      exact List.eq_nil_of_length_eq_zero (by rwa [List.take_length] at hzero)
    · cases h
    · have hzero : (bytes.take (k + 1)).length = 0 := Except.ok.inj (Poll.ready.inj h)
      rw [List.length_take] at hzero
      exact List.eq_nil_of_length_eq_zero (by omega)
  write_error this cx bytes e this' h := by
    obtain ⟨_ | ⟨_ | k, portions⟩, taken⟩ := this <;> cases h

end Portions

section
variable {W : Type*} [SteadyWriter W] {l : List Byte}

open LawfulWriter (consumed)
open SteadyWriter (stall)

namespace WriteAll

/-- Of the bytes `l`, what is not taken is still to be written. -/
def Writes (l : List Byte) (this : WriteAll W) : Prop := consumed this.writer ++ this.buf = l

/-- Everything is written. -/
def Done (l : List Byte) (result : Result Unit) (this : WriteAll W) : Prop :=
  result = .ok () ∧ consumed this.writer = l

/-- What is left to write, and the pending calls before more of it is taken. -/
def measure (this : WriteAll W) : ℕ ×ₗ ℕ := toLex (this.buf.length, stall this.writer)

theorem turn_spec {this : WriteAll W} (h : Writes l this) (cx : Waker) :
    ∃ f r, this.turn cx = some (f, r) ∧
      ((∃ b, r.bind readyValue = some b ∧ Done l b f) ∨
        r.bind readyValue = none ∧ Writes l f ∧ f.measure < this.measure) := by
  by_cases hbuf : this.buf = []
  · refine ⟨this, _, if_pos hbuf, .inl ⟨_, rfl, rfl, ?_⟩⟩
    unfold Writes at h
    rwa [hbuf, append_nil] at h
  · have htaken := LawfulWriter.consumed_write this.writer cx this.buf
    have hamount := LawfulWriter.amount_write this.writer cx this.buf
    generalize hw : pollWrite this.writer cx this.buf = q at htaken hamount
    rcases q with ⟨_ | (e | _ | k), writer⟩
    · -- pending
      refine ⟨{ this with writer := writer }, some .pending, ?_, .inr ⟨rfl, ?_, ?_⟩⟩
      · rw [turn, if_neg hbuf, hw]
      · have hsame : consumed writer = consumed this.writer := htaken.trans (append_nil _)
        show consumed writer ++ this.buf = l
        rw [hsame]
        exact h
      · exact Prod.Lex.toLex_lt_toLex.mpr
          (.inr ⟨rfl, SteadyWriter.write_pending _ _ _ _ hw⟩)
    · exact absurd hw (SteadyWriter.write_error _ _ _ _ _)
    · exact absurd (SteadyWriter.write_zero _ _ _ _ hw) hbuf
    · -- some bytes are taken
      have hle : k + 1 ≤ this.buf.length := hamount
      refine ⟨⟨writer, this.buf.drop (k + 1)⟩, none, ?_, .inr ⟨rfl, ?_, ?_⟩⟩
      · rw [turn, if_neg hbuf, hw]
        exact if_pos hle
      · have hmore : consumed writer = consumed this.writer ++ this.buf.take (k + 1) := htaken
        show consumed writer ++ this.buf.drop (k + 1) = l
        rw [hmore, append_assoc, take_append_drop]
        exact h
      · refine Prod.Lex.toLex_lt_toLex.mpr (.inl ?_)
        show (this.buf.drop (k + 1)).length < this.buf.length
        rw [length_drop]
        omega

end WriteAll

/-- `write_all` writes all of it. -/
theorem writeAll_completes (buf : List Byte) (w : ℕ → Waker) (writer : W) :
    ∃ N writer', consumed writer' = consumed writer ++ buf ∧
      ∀ n, N ≤ n → writeAll n buf w writer = some (.ok (), writer') := by
  have hpoll : ∀ n f cx, WriteAll.Writes (consumed writer ++ buf) f →
      WriteAll.poll (W := W) n f cx = loop WriteAll.turn n f cx := fun _ _ _ _ => rfl
  have hwrites : WriteAll.Writes (consumed writer ++ buf) (⟨writer, buf⟩ : WriteAll W) := rfl
  obtain ⟨N, b, f, ⟨rfl, hconsumed⟩, hN⟩ :=
    complete_of_turn hpoll (fun _ cx h => WriteAll.turn_spec h cx) hwrites w
  refine ⟨N, f.writer, hconsumed, fun n hn => ?_⟩
  rw [writeAll, hN n hn]
  rfl

end

end OhosFfrt.Io
