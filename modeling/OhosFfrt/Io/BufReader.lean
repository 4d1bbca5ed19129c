import OhosFfrt.Fs.State
import OhosFfrt.Io.Traits

/-!
# `io::BufReader`: the reader and its calls

The unread bytes are those of the buffer from `pos` to `cap`, and a reader comes with the proof that
these are in order.
-/

namespace OhosFfrt.Io

open Basic Lib.Files Io.Traits

structure BufReader (R : Type*) where
  inner : R
  buf : List Byte
  pos : ℕ
  cap : ℕ
  pos_le : pos ≤ cap
  cap_le : cap ≤ buf.length
  deriving DecidableEq, Repr

namespace BufReader

variable {R : Type*}

/-- `BufReader::with_capacity`; `vec!` panics above `isize::MAX`. -/
def withCapacity (capacity : ℕ) (inner : R) : Option (BufReader R) :=
  if capacity < 2 ^ 63 then
    some
      { inner := inner
        buf := List.replicate capacity 0
        pos := 0
        cap := 0
        pos_le := Nat.le_refl _
        cap_le := Nat.zero_le _ }
  else none

/-- `BufReader::buffer`. -/
def buffer (this : BufReader R) : List Byte := (this.buf.drop this.pos).take (this.cap - this.pos)

/-- The inner reader has changed. -/
def setInner (this : BufReader R) (inner : R) : BufReader R := { this with inner := inner }

/-- The first `amount` of the unread bytes are read; `pos += amount` if there are that many. -/
def advance (this : BufReader R) (amount : ℕ) : BufReader R :=
  { this with
    pos := min (this.pos + amount) this.cap
    pos_le := Nat.min_le_right _ _ }

/-- `BufReader::consume`. -/
def consume (this : BufReader R) (amount : ℕ) : Option (BufReader R) :=
  (checkedAdd this.pos amount).map fun _ => this.advance amount

section
variable [AsyncRead R]

/-- The buffer is filled by the inner reader. -/
def refill (this : BufReader R) (cx : Waker) : Poll (Result Unit) × BufReader R :=
  match pollRead this.inner cx this.buf.length with
  | (.pending, inner) => (.pending, this.setInner inner)
  | (.ready (.error e), inner) => (.ready (.error e), this.setInner inner)
  | (.ready (.ok bytes), inner) =>
    (.ready (.ok ()),
      { inner := inner
        buf := bytes.1 ++ this.buf.drop bytes.1.length
        pos := 0
        cap := bytes.1.length
        pos_le := Nat.zero_le _
        cap_le := by rw [List.length_append]; omega })

/-- `BufReader::poll_fill_buf`. -/
def pollFillBuf (this : BufReader R) (cx : Waker) : Poll (Result (List Byte)) × BufReader R :=
  ready (if this.cap ≤ this.pos then this.refill cx else (.ready (.ok ()), this)) id fun _ this =>
    (.ready (.ok this.buffer), this)

/-- `BufReader::poll_read`. -/
instance : AsyncRead (BufReader R) where
  pollRead this cx n :=
    if n = 0 then (.ready (.ok ⟨[], Nat.zero_le _⟩), this)
    else if this.pos = this.cap ∧ this.buf.length ≤ n then
      let (r, inner) := pollRead this.inner cx n
      (r, this.setInner inner)
    else
      ready (if this.pos = this.cap then this.refill cx else (.ready (.ok ()), this)) id
        fun _ this =>
          let amount := min n (this.cap - this.pos)
          (.ready (.ok ⟨(this.buf.drop this.pos).take amount, by rw [List.length_take]; omega⟩),
            this.advance amount)

end

/-- The buffer is discarded. -/
def clear (this : BufReader R) : BufReader R :=
  { this with
    pos := 0
    cap := 0
    pos_le := Nat.le_refl _
    cap_le := Nat.zero_le _ }

/-- `BufReader::start_seek` and `BufReader::poll_complete`.  The position is adjusted as that of a
`File` is. -/
instance [AsyncSeek R] : AsyncSeek (BufReader R) where
  startSeek this position :=
    match Fs.State.compensate position (this.cap - this.pos) with
    | none => (.error ⟨.invalidInput, "seek offset overflow"⟩, this)
    | some position =>
      let (r, inner) := startSeek this.inner position
      (r, this.clear.setInner inner)
  pollComplete this cx :=
    let (r, inner) := pollComplete this.inner cx
    (r, this.setInner inner)

end BufReader

end OhosFfrt.Io
