import OhosFfrt.Io.Traits

/-!
# The loop of `Copy::poll` and of `poll_copy_direction`

Both read into a buffer, write what they have read until nothing of it is left, and at the end of
the reader flush or shut down the writer.  Every call may return from the poll, and the next poll
goes on with the call that the position in the buffer and the flag `eof` tell it to make.
-/

namespace OhosFfrt.Io

open Basic Lib.Files Io.Traits List Option

/-- The buffer and the counters of a `Copy` and of a `CopyDirection`. -/
structure Transfer where
  buf : List Byte
  pos : ℕ
  cap : ℕ
  amount : ℕ
  eof : Bool
  cap_le : cap ≤ buf.length
  deriving Repr

instance : DecidableEq Transfer := fun a b =>
  decidable_of_iff (a.buf = b.buf ∧ a.pos = b.pos ∧ a.cap = b.cap ∧ a.amount = b.amount ∧
    a.eof = b.eof) (by cases a; cases b; simp)

namespace Transfer

/-- A call that is made, and what it returns. -/
inductive Call
  /-- Into a buffer with room for `n` bytes. -/
  | read (n : ℕ) (r : Poll (Result (List Byte)))
  | write (offered : List Byte) (r : Poll (Result ℕ))
  /-- `poll_flush` of a `Copy`, `poll_shutdown` of a `CopyDirection`. -/
  | close (r : Poll (Result Unit))
  deriving DecidableEq

/-- What a call leads to: the poll returns `result`, or the loop goes on. -/
structure Next (R W : Type*) where
  state : Transfer
  reader : R
  writer : W
  result : Option (Poll (Result ℕ))
  calls : List Call

def new (size : ℕ) : Transfer where
  buf := List.replicate size 0
  pos := 0
  cap := 0
  amount := 0
  eof := false
  cap_le := zero_le

/-- What is still to be written. -/
def unwritten (this : Transfer) : List Byte := (this.buf.drop this.pos).take (this.cap - this.pos)

/-- The buffer after a read. -/
def filled (this : Transfer) (bytes : Filled this.buf.length) : Transfer where
  buf := bytes.1 ++ this.buf.drop bytes.1.length
  pos := 0
  cap := bytes.1.length
  amount := this.amount
  eof := bytes.1.length = 0
  cap_le := by rw [List.length_append]; omega

section
variable {R W : Type*} [AsyncRead R] [AsyncWrite W]

/-- Fills the buffer. -/
def read (this : Transfer) (reader : R) (writer : W) (cx : Waker) : Next R W :=
  match pollRead reader cx this.buf.length with
  | (.pending, reader) => ⟨this, reader, writer, some .pending, [.read this.buf.length .pending]⟩
  | (.ready (.error e), reader) =>
    ⟨this, reader, writer, some (.ready (.error e)), [.read this.buf.length (.ready (.error e))]⟩
  | (.ready (.ok bytes), reader) =>
    ⟨this.filled bytes, reader, writer, none, [.read this.buf.length (.ready (.ok bytes.1))]⟩

/-- The write; `none` if `amount` overflows. -/
def write (message : String) (this : Transfer) (reader : R) (writer : W) (cx : Waker) :
    Option (Next R W) :=
  match pollWrite writer cx this.unwritten with
  | (.pending, writer) =>
    some ⟨this, reader, writer, some .pending, [.write this.unwritten .pending]⟩
  | (.ready (.error e), writer) =>
    some ⟨this, reader, writer, some (.ready (.error e)),
      [.write this.unwritten (.ready (.error e))]⟩
  | (.ready (.ok 0), writer) =>
    some ⟨this, reader, writer, some (.ready (.error ⟨.writeZero, message⟩)),
      [.write this.unwritten (.ready (.ok 0))]⟩
  | (.ready (.ok (n + 1)), writer) =>
    (checkedAdd this.amount (n + 1)).map fun amount =>
      ⟨{ this with pos := this.pos + (n + 1), amount := amount }, reader, writer, none,
        [.write this.unwritten (.ready (.ok (n + 1)))]⟩

/-- The end: closes the writer. -/
def finish (close : W → Waker → Poll (Result Unit) × W) (this : Transfer) (reader : R) (writer : W)
    (cx : Waker) : Next R W :=
  match close writer cx with
  | (.pending, writer) => ⟨this, reader, writer, some .pending, [.close .pending]⟩
  | (.ready (.error e), writer) =>
    ⟨this, reader, writer, some (.ready (.error e)), [.close (.ready (.error e))]⟩
  | (.ready (.ok ()), writer) =>
    ⟨this, reader, writer, some (.ready (.ok this.amount)), [.close (.ready (.ok ()))]⟩

/-- **The next call of the loop**: `if pos == cap && !eof`, then `while pos < cap`, then `if eof`.
-/
def next (close : W → Waker → Poll (Result Unit) × W) (message : String) (this : Transfer)
    (reader : R) (writer : W) (cx : Waker) : Option (Next R W) :=
  if this.pos = this.cap ∧ this.eof = false then some (this.read reader writer cx)
  else if this.pos < this.cap then this.write message reader writer cx
  else if this.eof then some (this.finish close reader writer cx)
  else
    -- a writer has said that it took more than it was offered
    some ⟨this, reader, writer, none, []⟩

/-! ### What a call can do -/

/-- **What the next call can do.** -/
inductive Called (close : W → Waker → Poll (Result Unit) × W) (message : String) (t : Transfer)
    (r : R) (w : W) (cx : Waker) : Next R W → Prop
  | readPending {r' : R} (hp : t.pos = t.cap) (he : t.eof = false)
      (hr : pollRead r cx t.buf.length = (.pending, r')) :
      Called close message t r w cx ⟨t, r', w, some .pending, [.read t.buf.length .pending]⟩
  | readFailed {r' : R} {e : Error} (hp : t.pos = t.cap) (he : t.eof = false)
      (hr : pollRead r cx t.buf.length = (.ready (.error e), r')) :
      Called close message t r w cx
        ⟨t, r', w, some (.ready (.error e)), [.read t.buf.length (.ready (.error e))]⟩
  | filled {r' : R} {bytes : Filled t.buf.length} (hp : t.pos = t.cap) (he : t.eof = false)
      (hr : pollRead r cx t.buf.length = (.ready (.ok bytes), r')) :
      Called close message t r w cx
        ⟨t.filled bytes, r', w, none, [.read t.buf.length (.ready (.ok bytes.1))]⟩
  | writePending {w' : W} (hp : t.pos < t.cap)
      (hw : pollWrite w cx t.unwritten = (.pending, w')) :
      Called close message t r w cx ⟨t, r, w', some .pending, [.write t.unwritten .pending]⟩
  | writeFailed {w' : W} {e : Error} (hp : t.pos < t.cap)
      (hw : pollWrite w cx t.unwritten = (.ready (.error e), w')) :
      Called close message t r w cx
        ⟨t, r, w', some (.ready (.error e)), [.write t.unwritten (.ready (.error e))]⟩
  | writeZero {w' : W} (hp : t.pos < t.cap)
      (hw : pollWrite w cx t.unwritten = (.ready (.ok 0), w')) :
      Called close message t r w cx
        ⟨t, r, w', some (.ready (.error ⟨.writeZero, message⟩)),
          [.write t.unwritten (.ready (.ok 0))]⟩
  | wrote {w' : W} {n : ℕ} (hp : t.pos < t.cap)
      (hw : pollWrite w cx t.unwritten = (.ready (.ok (n + 1)), w')) :
      Called close message t r w cx
        ⟨{ t with pos := t.pos + (n + 1), amount := t.amount + (n + 1) }, r, w', none,
          [.write t.unwritten (.ready (.ok (n + 1)))]⟩
  | closePending {w' : W} (hp : t.cap ≤ t.pos) (he : t.eof = true)
      (hw : close w cx = (.pending, w')) :
      Called close message t r w cx ⟨t, r, w', some .pending, [.close .pending]⟩
  | closeFailed {w' : W} {e : Error} (hp : t.cap ≤ t.pos) (he : t.eof = true)
      (hw : close w cx = (.ready (.error e), w')) :
      Called close message t r w cx
        ⟨t, r, w', some (.ready (.error e)), [.close (.ready (.error e))]⟩
  | closed {w' : W} (hp : t.cap ≤ t.pos) (he : t.eof = true)
      (hw : close w cx = (.ready (.ok ()), w')) :
      Called close message t r w cx
        ⟨t, r, w', some (.ready (.ok t.amount)), [.close (.ready (.ok ()))]⟩
  | spins (hp : t.cap < t.pos) : Called close message t r w cx ⟨t, r, w, none, []⟩

variable {close : W → Waker → Poll (Result Unit) × W} {message : String} {t : Transfer} {r : R}
  {w : W} {cx : Waker} {n : Next R W}

theorem read_called (hp : t.pos = t.cap) (he : t.eof = false) :
    Called close message t r w cx (t.read r w cx) := by
  unfold read
  split
  · next hr => exact .readPending hp he hr
  · next hr => exact .readFailed hp he hr
  · next hr => exact .filled hp he hr

theorem write_called (hp : t.pos < t.cap) (h : t.write message r w cx = some n) :
    Called close message t r w cx n := by
  unfold write at h
  split at h
  · next hw =>
    cases h
    exact .writePending hp hw
  · next hw =>
    cases h
    exact .writeFailed hp hw
  · next hw =>
    cases h
    exact .writeZero hp hw
  · next hw =>
    obtain ⟨amount, ha, rfl⟩ := map_eq_some_iff.mp h
    unfold checkedAdd at ha
    split_ifs at ha
    cases ha
    exact .wrote hp hw

theorem finish_called (hp : t.cap ≤ t.pos) (he : t.eof = true) :
    Called close message t r w cx (t.finish close r w cx) := by
  unfold finish
  split
  · next hw => exact .closePending hp he hw
  · next hw => exact .closeFailed hp he hw
  · next hw => exact .closed hp he hw

theorem next_called (h : t.next close message r w cx = some n) :
    Called close message t r w cx n := by
  unfold next at h
  split_ifs at h with hr hw he
  · cases h
    exact read_called hr.1 hr.2
  · exact write_called hw h
  · cases h
    exact finish_called (by omega) he
  · cases h
    refine .spins ?_
    have hne : t.pos ≠ t.cap := fun hp => hr ⟨hp, by simpa using he⟩
    omega

end

/-! ### Every byte once -/

/-- The bytes read. -/
def readOf (cs : List Call) : List Byte :=
  cs.flatMap fun
    | .read _ (.ready (.ok bytes)) => bytes
    | _ => []

theorem readOf_append (cs cs' : List Call) : readOf (cs ++ cs') = readOf cs ++ readOf cs' :=
  flatMap_append

/-- The end of the reader was read: nothing was put into a buffer with room. -/
def AtEnd (cs : List Call) : Prop := ∃ n, 0 < n ∧ .read n (.ready (.ok [])) ∈ cs

theorem AtEnd.append {cs : List Call} (h : AtEnd cs) (cs' : List Call) : AtEnd (cs ++ cs') := by
  obtain ⟨n, hn, hmem⟩ := h
  exact ⟨n, hn, mem_append_left _ hmem⟩

theorem atEnd_snoc {cs : List Call} {c : Call} (hc : ∀ n, c ≠ .read n (.ready (.ok []))) :
    AtEnd (cs ++ [c]) ↔ AtEnd cs := by
  refine ⟨fun ⟨n, hn, hmem⟩ => ⟨n, hn, ?_⟩, fun h => h.append _⟩
  rcases mem_append.mp hmem with hmem | hmem
  · exact hmem
  · exact absurd (mem_singleton.mp hmem).symm (hc n)

variable {R W : Type*} {base : List Byte} {cs : List Call} {t : Transfer} {w w' : W}

/-- **The transfer is exact**: all that was read, after the bytes `base` that the writer had taken
before, was taken by the writer or is still in the buffer, and `amount` counts the former. -/
structure Exact [LawfulWriter W] (base : List Byte) (cs : List Call) (t : Transfer) (w : W) :
    Prop where
  size : 0 < t.buf.length
  pos_le : t.pos ≤ t.cap
  bytes : base ++ readOf cs = LawfulWriter.consumed w ++ t.unwritten
  amount : t.amount + t.unwritten.length = (readOf cs).length
  eof : t.eof = true ↔ AtEnd cs
  drained : t.eof = true → t.cap = 0

theorem length_unwritten (t : Transfer) : t.unwritten.length = t.cap - t.pos := by
  have := t.cap_le
  unfold unwritten
  rw [length_take, length_drop]
  omega

theorem unwritten_nil (h : t.cap ≤ t.pos) : t.unwritten = [] := by
  refine eq_nil_of_length_eq_zero ?_
  rw [length_unwritten]
  omega

theorem unwritten_filled (t : Transfer) (bytes : Filled t.buf.length) :
    (t.filled bytes).unwritten = bytes.1 := by
  unfold unwritten filled
  rw [drop_zero, Nat.sub_zero, take_left]

variable [LawfulWriter W]

theorem exact_new {size : ℕ} (h : 0 < size) (w : W) :
    Exact (LawfulWriter.consumed w) [] (new size) w where
  size := by
    unfold new
    rwa [length_replicate]
  pos_le := Nat.le_refl _
  bytes := rfl
  amount := rfl
  eof := by simp [new, AtEnd]
  drained := nofun

theorem Exact.keep {c : Call} (h : Exact base cs t w) (hc : readOf [c] = [])
    (hend : ∀ n, c ≠ .read n (.ready (.ok [])))
    (hw : LawfulWriter.consumed w' = LawfulWriter.consumed w) : Exact base (cs ++ [c]) t w' where
  size := h.size
  pos_le := h.pos_le
  bytes := by
    rw [readOf_append, hc, append_nil, hw]
    exact h.bytes
  amount := by
    rw [readOf_append, hc, append_nil]
    exact h.amount
  eof := by rw [h.eof, atEnd_snoc hend]
  drained := h.drained

theorem Exact.filled {bytes : Filled t.buf.length} (h : Exact base cs t w) (hp : t.pos = t.cap)
    (he : t.eof = false) :
    Exact base (cs ++ [.read t.buf.length (.ready (.ok bytes.1))]) (t.filled bytes) w where
  size := by
    have := h.size
    have := bytes.2
    unfold Transfer.filled
    rw [length_append, length_drop]
    omega
  pos_le := Nat.zero_le _
  bytes := by
    rw [readOf_append, unwritten_filled, ← append_assoc, h.bytes,
      unwritten_nil (Nat.le_of_eq hp.symm), append_nil]
    exact congrArg _ (append_nil _)
  amount := by
    have hamount := h.amount
    rw [unwritten_nil (Nat.le_of_eq hp.symm), length_nil] at hamount
    rw [readOf_append, unwritten_filled, length_append, ← hamount]
    exact congrArg _ (congrArg _ (append_nil bytes.1).symm)
  eof := by
    constructor
    · intro hb
      refine ⟨_, h.size, mem_append_right _ (mem_singleton.mpr ?_)⟩
      rw [eq_nil_of_length_eq_zero (of_decide_eq_true hb)]
    · intro hend
      rcases hb : bytes.1 with _ | ⟨b, bs⟩
      · exact decide_eq_true (congrArg List.length hb)
      · rw [hb, atEnd_snoc (by simp), ← h.eof, he] at hend
        cases hend
  drained hb := of_decide_eq_true hb

theorem Exact.wrote {k : ℕ} {r : Poll (Result ℕ)} (h : Exact base cs t w) (hp : t.pos < t.cap)
    (hk : k ≤ t.unwritten.length)
    (hw : LawfulWriter.consumed w' = LawfulWriter.consumed w ++ t.unwritten.take k) :
    Exact base (cs ++ [.write t.unwritten r])
      { t with pos := t.pos + k, amount := t.amount + k } w' where
  size := h.size
  pos_le := by
    rw [length_unwritten] at hk
    show t.pos + k ≤ t.cap
    omega
  bytes := by
    have hdrop : ({ t with pos := t.pos + k, amount := t.amount + k } : Transfer).unwritten =
        t.unwritten.drop k := by
      unfold unwritten
      rw [drop_take, drop_drop, Nat.sub_sub]
    rw [readOf_append, hdrop, hw, append_assoc, take_append_drop, ← h.bytes]
    exact congrArg _ (append_nil _)
  amount := by
    have hamount := h.amount
    rw [length_unwritten] at hamount hk ⊢
    rw [readOf_append, length_append]
    show t.amount + k + (t.cap - (t.pos + k)) = (readOf cs).length + 0
    omega
  eof := by rw [h.eof, atEnd_snoc (by simp)]
  drained he := by
    have := h.drained he
    omega

theorem Exact.next [AsyncRead R] {close : W → Waker → Poll (Result Unit) × W} {message : String}
    {r : R} {cx : Waker} {n : Next R W} (h : Exact base cs t w)
    (hclose : ∀ w cx, LawfulWriter.consumed (close w cx).2 = LawfulWriter.consumed w)
    (hn : t.next close message r w cx = some n) : Exact base (cs ++ n.calls) n.state n.writer := by
  have hwrite : ∀ {q : Poll (Result ℕ)} {w' : W}, pollWrite w cx t.unwritten = (q, w') →
      q.amount ≤ t.unwritten.length ∧
        LawfulWriter.consumed w' = LawfulWriter.consumed w ++ t.unwritten.take q.amount := by
    intro q w' hw
    have ha := LawfulWriter.amount_write w cx t.unwritten
    have hc := LawfulWriter.consumed_write w cx t.unwritten
    rw [hw] at ha hc
    exact ⟨ha, hc⟩
  have hnone : ∀ {q : Poll (Result ℕ)} {w' : W}, pollWrite w cx t.unwritten = (q, w') →
      q.amount = 0 → LawfulWriter.consumed w' = LawfulWriter.consumed w := by
    intro q w' hw hq
    rw [(hwrite hw).2, hq, take_zero, append_nil]
  have hlast : ∀ {q : Poll (Result Unit)} {w' : W}, close w cx = (q, w') →
      LawfulWriter.consumed w' = LawfulWriter.consumed w := by
    intro q w' hw
    have := hclose w cx
    rwa [hw] at this
  cases next_called hn with
  | readPending | readFailed => exact h.keep rfl (by simp) rfl
  | filled hp he => exact h.filled hp he
  | writePending _ hw | writeFailed _ hw | writeZero _ hw =>
    exact h.keep rfl (by simp) (hnone hw rfl)
  | wrote hp hw => exact h.wrote hp (hwrite hw).1 (hwrite hw).2
  | closePending _ _ hw | closeFailed _ _ hw | closed _ _ hw =>
    exact h.keep rfl (by simp) (hlast hw)
  | spins =>
    rw [append_nil]
    exact h

end Transfer

end OhosFfrt.Io
