import OhosFfrt.Io.Traits

/-!
# `io::Cursor` over a slice

A cursor over a slice of bytes is a reader, a seeker, and a writer that overwrites the slice and
takes nothing more at its end.
-/

namespace OhosFfrt.Io

open Basic Lib.Files Lib.Streams Io.Traits List

/-- `std::io::Cursor<&mut [u8]>`. -/
structure Cursor where
  inner : List Byte
  position : ℕ
  deriving DecidableEq, Repr

namespace Cursor

instance : AsyncRead Cursor where
  pollRead this _ n :=
    if this.inner.length < this.position then (.ready (.ok ⟨[], Nat.zero_le _⟩), this)
    else
      let amount := min (this.inner.length - this.position) n
      (.ready (.ok ⟨(this.inner.drop this.position).take amount, by
          rw [List.length_take]; omega⟩),
        { this with position := this.position + amount })

/-- `std::io::Seek::seek`. -/
def seek (this : Cursor) (position : SeekFrom) : Result Unit × Cursor :=
  let target := target this.inner.length this.position position
  if 0 ≤ target ∧ target < 2 ^ 64 then (.ok (), { this with position := target.toNat })
  else (.error ⟨.invalidInput, "invalid seek to a negative or overflowing position"⟩, this)

instance : AsyncSeek Cursor where
  startSeek := seek
  pollComplete this _ := (.ready (.ok this.position), this)

/-- `std::io::Write::write`. -/
def write (this : Cursor) (buf : List Byte) : ℕ × Cursor :=
  let start := min this.position this.inner.length
  let amount := min (this.inner.length - start) buf.length
  (amount,
    { inner := this.inner.take start ++ buf.take amount ++ this.inner.drop (start + amount)
      position := this.position + amount })

/-- `std::io::Write::write_vectored`: up to the first slice that is not written whole. -/
def writeVectored (this : Cursor) : List (List Byte) → ℕ × Cursor
  | [] => (0, this)
  | buf :: bufs =>
    let (n, this') := this.write buf
    if n < buf.length then (n, this')
    else
      let (m, this'') := writeVectored this' bufs
      (n + m, this'')

instance : AsyncWrite Cursor where
  pollWrite this _ buf := ((.ready (.ok (this.write buf).1)), (this.write buf).2)
  pollWriteVectored this _ bufs :=
    (.ready (.ok (this.writeVectored bufs).1), (this.writeVectored bufs).2)
  isWriteVectored _ := true
  pollFlush this _ := (.ready (.ok ()), this)
  pollShutdown this _ := (.ready (.ok ()), this)

variable {this : Cursor}

/-! ## A cursor is lawful -/

theorem write_le (this : Cursor) (buf : List Byte) : (this.write buf).1 ≤ buf.length :=
  Nat.min_le_right _ _

theorem take_write (this : Cursor) (buf : List Byte) :
    (this.write buf).2.inner.take (this.write buf).2.position =
      this.inner.take this.position ++ buf.take (this.write buf).1 := by
  unfold write
  simp only
  rcases Nat.le_total this.position this.inner.length with h | h
  · rw [Nat.min_eq_left h]
    refine take_left' ?_
    rw [length_append, length_take, length_take]
    omega
  · rw [Nat.min_eq_right h, Nat.sub_self, Nat.zero_min]
    simp

theorem writeVectored_le (bufs : List (List Byte)) : ∀ this : Cursor,
    (this.writeVectored bufs).1 ≤ bufs.flatten.length := by
  induction bufs with
  | nil => exact fun _ => Nat.le_refl _
  | cons buf bufs ih =>
    intro this
    have hbuf := this.write_le buf
    have hbufs := ih (this.write buf).2
    rw [flatten_cons, length_append]
    unfold writeVectored
    simp only
    split_ifs
    · simp only
      omega
    · simp only
      omega

theorem take_writeVectored (bufs : List (List Byte)) : ∀ this : Cursor,
    (this.writeVectored bufs).2.inner.take (this.writeVectored bufs).2.position =
      this.inner.take this.position ++ bufs.flatten.take (this.writeVectored bufs).1 := by
  induction bufs with
  | nil => exact fun this => (append_nil _).symm
  | cons buf bufs ih =>
    intro this
    have hle := this.write_le buf
    rw [flatten_cons, take_append]
    unfold writeVectored
    simp only
    split_ifs with hn
    · simp only
      rw [take_write, Nat.sub_eq_zero_of_le hle, take_zero, append_nil]
    · have hall : (this.write buf).1 = buf.length := by omega
      simp only
      rw [ih, take_write, hall, Nat.add_sub_cancel_left, take_length,
        take_of_length_le (Nat.le_add_right _ _), append_assoc]

instance : LawfulWriter Cursor where
  consumed this := this.inner.take this.position
  amount_write this _ buf := this.write_le buf
  consumed_write this _ buf := this.take_write buf
  amount_writeVectored this _ bufs := writeVectored_le bufs this
  consumed_writeVectored this _ bufs := take_writeVectored bufs this
  consumed_flush _ _ := rfl
  consumed_shutdown _ _ := rfl

/-- Its contents. -/
def contents (this : Cursor) : Contents := ⟨fun i => this.inner.getD i 0, this.inner.length⟩

theorem contents_seek (this : Cursor) (position : SeekFrom) :
    (this.seek position).2.contents = this.contents := by
  unfold seek
  simp only
  split_ifs
  · rfl
  · rfl

theorem seek_ok {position : SeekFrom} {cxs : List Waker} {p : ℕ} {this' : Cursor}
    (h : driveSeek this position cxs = (.ready (.ok p), this')) : this'.position = p ∧
      (p : Int) = target this.inner.length this.position position := by
  unfold driveSeek at h
  by_cases htarget : 0 ≤ target this.inner.length this.position position ∧
      target this.inner.length this.position position < 2 ^ 64
  · rw [show startSeek this position = _ from if_pos htarget] at h
    rcases cxs with _ | ⟨cx, cxs⟩
    · cases h
    · cases h
      exact ⟨rfl, Int.toNat_of_nonneg htarget.1⟩
  · rw [show startSeek this position = _ from if_neg htarget] at h
    cases h

theorem bytes_pollRead (this : Cursor) (cx : Waker) (n : ℕ) :
    (pollRead this cx n).1.bytes =
        slice this.contents.byteAt this.position (pollRead this cx n).1.bytes.length ∧
      (pollRead this cx n).2.position =
        this.position + (pollRead this cx n).1.bytes.length ∧
      (pollRead this cx n).2.inner = this.inner := by
  simp only [pollRead]
  split_ifs with h
  · exact ⟨rfl, rfl, rfl⟩
  · have hlen : ((this.inner.drop this.position).take
        (min (this.inner.length - this.position) n)).length =
          min (this.inner.length - this.position) n := by
      rw [length_take, length_drop]
      omega
    refine ⟨?_, ?_, rfl⟩
    · simp only [Poll.bytes]
      rw [hlen]
      exact take_drop_eq_slice _ _ (by omega)
    · exact congrArg (this.position + ·) hlen.symm

instance : LawfulReader Cursor where
  contents := contents
  offset := position
  bytes_read this cx n := (this.bytes_pollRead cx n).1
  offset_read this cx n := (this.bytes_pollRead cx n).2.1
  contents_read this cx n := by
    unfold contents
    rw [(this.bytes_pollRead cx n).2.2]
  contents_startSeek := contents_seek
  contents_pollComplete _ _ := rfl
  seek_ok _ _ _ _ _ h := seek_ok h

end Cursor

end OhosFfrt.Io
