import OhosFfrt.Io.Sources

/-!
# `io`: readers of a finite string

A reader of a finite string gives its bytes in order and in portions of any size, with any number of
pending calls before a portion (`FiniteRead`); so does a buffered reader, which shows a portion
until it is consumed (`FiniteBufRead`).
-/

namespace OhosFfrt.Io

open Basic Lib.Files Io.Traits List

/-- **A reader of a finite string.** -/
class FiniteRead (R : Type*) extends AsyncRead R where
  /-- The bytes that are still to be read. -/
  unread : R → List Byte
  /-- A bound on the pending calls before the next that is ready. -/
  wait : R → ℕ
  read_pending : ∀ r cx n r', pollRead r cx n = (.pending, r') →
    unread r' = unread r ∧ wait r' < wait r
  read_ready : ∀ r cx n bytes r', pollRead r cx n = (.ready (.ok bytes), r') →
    unread r = bytes.1 ++ unread r' ∧ (0 < n → bytes.1 = [] → unread r = [])
  read_error : ∀ r cx n e r', pollRead r cx n ≠ (.ready (.error e), r')

/-- **A buffered reader of a finite string.** -/
class FiniteBufRead (R : Type*) extends AsyncBufRead R where
  /-- The bytes that are still to be consumed. -/
  rest : R → List Byte
  /-- A bound on the pending calls before the next that is ready. -/
  delay : R → ℕ
  fill_pending : ∀ r cx r', pollFillBuf r cx = (.pending, r') →
    rest r' = rest r ∧ delay r' < delay r
  fill_ready : ∀ r cx bytes r', pollFillBuf r cx = (.ready (.ok bytes), r') →
    rest r' = rest r ∧ bytes <+: rest r ∧ (bytes = [] → rest r = [])
  fill_error : ∀ r cx e r', pollFillBuf r cx ≠ (.ready (.error e), r')
  consume_shown : ∀ r cx bytes r' k, pollFillBuf r cx = (.ready (.ok bytes), r') →
    k ≤ bytes.length → ∃ r'', consume r' k = some r'' ∧ rest r'' = (rest r').drop k

/-! ### Chunks -/

namespace Chunks

/-- The polls before the next chunk. -/
def pendings (this : Chunks) : ℕ := (this.script.takeWhile fun chunk => chunk.isNone).length

theorem pendings_tail {this : Chunks} {script : List (Option (List Byte))}
    (h : this.script = none :: script) : this.tail.pendings < this.pendings := by
  unfold pendings
  rw [script_tail h, h]
  exact Nat.lt_succ_self _

theorem bytes_of_end {this : Chunks} (h : this.script = []) : this.bytes = [] := by
  unfold bytes
  rw [h]
  rfl

theorem pollRead_pending (this : Chunks) (cx : Waker) (n : ℕ) (this' : Chunks)
    (h : pollRead this cx n = (.pending, this')) :
    this'.bytes = this.bytes ∧ this'.pendings < this.pendings := by
  simp only [pollRead] at h
  split at h
  · cases h
  · next script hscript =>
    obtain ⟨-, rfl⟩ := Prod.mk.inj h
    exact ⟨this.bytes_tail hscript, pendings_tail hscript⟩
  · cases h

theorem pollRead_ready (this : Chunks) (cx : Waker) (n : ℕ) (given : Filled n) (this' : Chunks)
    (h : pollRead this cx n = (.ready (.ok given), this')) :
    this.bytes = given.1 ++ this'.bytes ∧ (0 < n → given.1 = [] → this.bytes = []) := by
  simp only [pollRead] at h
  split at h
  · next hscript =>
    cases h
    exact ⟨rfl, fun _ _ => bytes_of_end hscript⟩
  · cases h
  · next chunk script hscript =>
    cases h
    refine ⟨this.bytes_advance hscript n, fun hn htake => ?_⟩
    rw [List.take_eq_nil_iff] at htake
    exact absurd htake (not_or.mpr ⟨by omega, chunk_ne hscript⟩)

theorem pollRead_error (this : Chunks) (cx : Waker) (n : ℕ) (e : Error) (this' : Chunks) :
    pollRead this cx n ≠ (.ready (.error e), this') := by
  intro h
  simp only [pollRead] at h
  split at h <;> cases h

instance : FiniteRead Chunks where
  unread := bytes
  wait := pendings
  read_pending := pollRead_pending
  read_ready := pollRead_ready
  read_error := pollRead_error

/-- The first chunk is shown, and the first bytes of it are consumed. -/
instance : AsyncBufRead Chunks where
  pollFillBuf this _ :=
    match this.script with
    | [] => (.ready (.ok []), this)
    | none :: _ => (.pending, this.tail)
    | some chunk :: _ => (.ready (.ok chunk), this)
  consume this amount := some (this.advance amount)

instance : FiniteBufRead Chunks where
  rest := bytes
  delay := pendings
  fill_pending this cx this' h := by
    simp only [pollFillBuf] at h
    split at h
    · cases h
    · next script hscript =>
      obtain ⟨-, rfl⟩ := Prod.mk.inj h
      exact ⟨this.bytes_tail hscript, pendings_tail hscript⟩
    · cases h
  fill_ready this cx shown this' h := by
    simp only [pollFillBuf] at h
    split at h
    · next hscript =>
      cases h
      exact ⟨rfl, List.nil_prefix, fun _ => bytes_of_end hscript⟩
    · cases h
    · next chunk script hscript =>
      cases h
      refine ⟨rfl, ?_, fun hnil => absurd hnil (chunk_ne hscript)⟩
      unfold bytes
      rw [hscript]
      exact List.prefix_append _ _
  fill_error this cx e this' h := by
    simp only [pollFillBuf] at h
    split at h <;> cases h
  consume_shown this cx shown this' k h hk := by
    refine ⟨_, rfl, ?_⟩
    simp only [pollFillBuf] at h
    split at h
    · next hscript =>
      cases h
      have hend : (this.advance k).script = [] := by
        show dropChunk k this.script = []
        rw [hscript]
        rfl
      rw [bytes_of_end hend, bytes_of_end hscript, List.drop_nil]
    · cases h
    · next chunk script hscript =>
      cases h
      rw [this.bytes_advance hscript k, List.drop_left']
      rw [List.length_take, Nat.min_eq_left hk]

end Chunks

/-! ### A slice -/

instance : FiniteBufRead Slice where
  rest := Slice.bytes
  delay _ := 0
  fill_pending this cx this' h := by cases h
  fill_ready this cx shown this' h := by
    cases h
    exact ⟨rfl, List.prefix_refl _, id⟩
  fill_error this cx e this' h := by cases h
  consume_shown this cx shown this' k h hk := by
    cases h
    refine ⟨_, rfl, ?_⟩
    show this.whole.drop (this.start + min k this.bytes.length) = _
    rw [Nat.min_eq_left hk, ← List.drop_drop]
    rfl

/-! ### A `BufReader` -/

namespace BufReader

variable {R : Type*} {b : BufReader R}

theorem buffer_of_le (h : b.cap ≤ b.pos) : b.buffer = [] := by
  apply eq_nil_of_length_eq_zero
  rw [length_buffer]
  omega

variable [FiniteRead R]

/-- What is still to be consumed: what is buffered, and what the inner reader will give. -/
def toConsume (this : BufReader R) : List Byte := this.buffer ++ FiniteRead.unread this.inner

/-- What `poll_fill_buf` does to a reader of a finite string. -/
def Fills (b : BufReader R) : Poll (Result (List Byte)) × BufReader R → Prop
  | (.pending, b') =>
    b'.toConsume = b.toConsume ∧ FiniteRead.wait b'.inner < FiniteRead.wait b.inner
  | (.ready (.error _), _) => False
  | (.ready (.ok bytes), b') =>
    b'.toConsume = b.toConsume ∧ bytes <+: b.toConsume ∧ (bytes = [] → b.toConsume = [])

theorem fills_pollFillBuf (hbuf : 0 < b.buf.length) (cx : Waker) :
    b.Fills (b.pollFillBuf cx) := by
  unfold pollFillBuf
  split_ifs with hpos
  · -- the buffer is filled from the inner reader
    have hempty := buffer_of_le hpos
    unfold refill
    generalize hr : pollRead b.inner cx b.buf.length = q
    rcases q with ⟨_ | (e | bytes), inner⟩
    · obtain ⟨hunread, hwait⟩ := FiniteRead.read_pending _ _ _ _ hr
      refine ⟨?_, hwait⟩
      show b.buffer ++ FiniteRead.unread inner = b.buffer ++ FiniteRead.unread b.inner
      rw [hunread]
    · exact absurd hr (FiniteRead.read_error _ _ _ _ _)
    · obtain ⟨hunread, hend⟩ := FiniteRead.read_ready _ _ _ _ _ hr
      have hall : b.toConsume = bytes.1 ++ FiniteRead.unread inner := by
        rw [toConsume, hempty, nil_append, hunread]
      have hshown : (bytes.1 ++ b.buf.drop bytes.1.length).take bytes.1.length = bytes.1 :=
        take_left' rfl
      show _ ++ FiniteRead.unread inner = b.toConsume ∧
        (bytes.1 ++ b.buf.drop bytes.1.length).take bytes.1.length <+: b.toConsume ∧
          ((bytes.1 ++ b.buf.drop bytes.1.length).take bytes.1.length = [] → b.toConsume = [])
      rw [hshown, hall]
      refine ⟨congrArg (· ++ _) hshown, prefix_append _ _, fun hnil => ?_⟩
      rw [← hunread]
      exact hend hbuf hnil
  · refine ⟨rfl, prefix_append _ _, fun hnil => ?_⟩
    have hlen := b.length_buffer
    rw [show b.buffer = [] from hnil, length_nil] at hlen
    omega

/-- A `BufReader` over a reader of a finite string, with a buffer that is not empty. -/
structure Finite (R : Type*) where
  reader : BufReader R
  room : 0 < reader.buf.length
  size : reader.buf.length ≤ usizeMax

instance : AsyncBufRead (Finite R) where
  pollFillBuf this cx :=
    ((this.reader.pollFillBuf cx).1,
      { reader := (this.reader.pollFillBuf cx).2
        room := by
          rw [length_pollFillBuf]
          exact this.room
        size := by
          rw [length_pollFillBuf]
          exact this.size })
  consume this amount :=
    (checkedAdd this.reader.pos amount).map fun _ =>
      { reader := this.reader.advance amount, room := this.room, size := this.size }

theorem Finite.fill_eq {this this' : Finite R} {cx : Waker} {r : Poll (Result (List Byte))}
    (h : AsyncBufRead.pollFillBuf this cx = (r, this')) :
    this.reader.pollFillBuf cx = (r, this'.reader) :=
  Prod.ext (show (AsyncBufRead.pollFillBuf this cx).1 = _ from congrArg Prod.fst h)
    (show (AsyncBufRead.pollFillBuf this cx).2.reader = _ by rw [h])

instance : FiniteBufRead (Finite R) where
  rest this := this.reader.toConsume
  delay this := FiniteRead.wait this.reader.inner
  fill_pending this cx this' h := by
    have hfills := fills_pollFillBuf this.room cx
    rw [Finite.fill_eq h] at hfills
    exact hfills
  fill_ready this cx bytes this' h := by
    have hfills := fills_pollFillBuf this.room cx
    rw [Finite.fill_eq h] at hfills
    exact hfills
  fill_error this cx e this' h := by
    have hfills := fills_pollFillBuf this.room cx
    rw [Finite.fill_eq h] at hfills
    exact hfills
  consume_shown this cx bytes this' k h hk := by
    obtain rfl := buffer_of_shown (Finite.fill_eq h)
    have hlen := this'.reader.length_buffer
    have hcap := this'.reader.cap_le
    have hsize := this'.size
    have hadd : checkedAdd this'.reader.pos k = some (this'.reader.pos + k) := by
      have hpos := this'.reader.pos_le
      exact if_pos (by omega)
    refine ⟨_, congrArg (Option.map _) hadd, ?_⟩
    show (this'.reader.advance k).buffer ++ FiniteRead.unread this'.reader.inner = _
    rw [buffer_advance _ (by omega), toConsume, List.drop_append_of_le_length hk]

end BufReader

end OhosFfrt.Io
