import OhosFfrt.Io.Transparent

/-!
# `io`: the trait of buffered readers

`poll_fill_buf` shows what is buffered, and `consume` takes some of what was shown.  The functions
that are generic over the trait rely on no more than this (`LawfulBufRead`).
-/

namespace OhosFfrt.Io

open Basic Lib.Files Lib.Streams Io.Traits Option

/-- `AsyncBufRead`; `consume` may panic. -/
class AsyncBufRead (R : Type*) where
  pollFillBuf : R → Waker → Poll (Result (List Byte)) × R
  consume : R → ℕ → Option R

export AsyncBufRead (pollFillBuf consume)

/-- **A buffered reader that consumes what it has shown**, and nothing otherwise. -/
class LawfulBufRead (R : Type*) extends AsyncBufRead R where
  /-- All the bytes that were consumed, in order. -/
  consumed : R → List Byte
  consumed_fillBuf : ∀ r cx, consumed (pollFillBuf r cx).2 = consumed r
  consume_shown : ∀ r cx bytes r' k, pollFillBuf r cx = (.ready (.ok bytes), r') →
    k ≤ bytes.length →
    ∃ r'', consume r' k = some r'' ∧ consumed r'' = consumed r' ++ bytes.take k

/-! ### A slice -/

/-- `&[u8]`, as the part of a slice that is left. -/
structure Slice where
  whole : List Byte
  start : ℕ
  deriving DecidableEq, Repr

namespace Slice

/-- What is left. -/
def bytes (this : Slice) : List Byte := this.whole.drop this.start

instance : AsyncBufRead Slice where
  pollFillBuf this _ := (.ready (.ok this.bytes), this)
  consume this amount := some { this with start := this.start + min amount this.bytes.length }

instance : LawfulBufRead Slice where
  consumed this := this.whole.take this.start
  consumed_fillBuf _ _ := rfl
  consume_shown := by
    intro this cx bytes this' k hr hk
    obtain ⟨hbytes, rfl⟩ := Prod.mk.inj hr
    obtain rfl : this.bytes = bytes := by
      injection hbytes with hbytes
      injection hbytes
    refine ⟨_, rfl, ?_⟩
    show this.whole.take (this.start + min k this.bytes.length) = _
    rw [Nat.min_eq_left hk, List.take_add]
    rfl

end Slice

/-! ### A `BufReader` -/

namespace BufReader

variable {R : Type*} {c : Contents} {b b' : BufReader R}

theorem buffer_of_shown [AsyncRead R] {cx : Waker} {bytes : List Byte}
    (h : b.pollFillBuf cx = (.ready (.ok bytes), b')) : bytes = b'.buffer := by
  unfold BufReader.pollFillBuf at h
  generalize (if b.cap ≤ b.pos then b.refill cx else (.ready (.ok ()), b)) = q at h
  rcases q with ⟨_ | (e | _), b₁⟩
  · cases h
  · cases h
  · cases h
    rfl

theorem consume_eq {amount : ℕ} (hsize : b.buf.length ≤ usizeMax)
    (h : amount ≤ b.buffer.length) : b.consume amount = some (b.advance amount) := by
  have hcap := b.cap_le
  have hpos := b.pos_le
  rw [length_buffer] at h
  unfold BufReader.consume checkedAdd
  rw [if_pos (by omega)]
  rfl

variable [LawfulReader R]

theorem logical_fillBuf (h : Ahead c b) (cx : Waker) :
    (b.pollFillBuf cx).2.logical = b.logical := by
  have hf := (follows_pollFillBuf h cx).1.2
  generalize b.pollFillBuf cx = q at hf ⊢
  rcases q with ⟨_ | (e | bytes), b₁⟩
  · exact (some.inj hf).symm
  · exact (some.inj hf).symm
  · simp only [Poll.answer, follow] at hf
    split_ifs at hf
    exact (some.inj hf).symm

/-- A `BufReader` that is ahead of its caller in the stream `c`. -/
structure Buffered (R : Type*) [LawfulReader R] (c : Contents) where
  reader : BufReader R
  ahead : Ahead c reader
  size : reader.buf.length ≤ usizeMax

instance : AsyncBufRead (Buffered R c) where
  pollFillBuf this cx :=
    ((this.reader.pollFillBuf cx).1,
      { reader := (this.reader.pollFillBuf cx).2
        ahead := (follows_pollFillBuf this.ahead cx).1.1
        size := by
          rw [length_pollFillBuf]
          exact this.size })
  consume this amount :=
    if h : (this.reader.consume amount).isSome then
      some
        { reader := (this.reader.consume amount).get h
          ahead := (follows_consume this.ahead (Option.some_get h).symm).1
          size := by
            obtain ⟨_, -, ha⟩ := Option.map_eq_some_iff.mp (Option.some_get h).symm
            rw [← ha]
            exact this.size }
    else none

/-- **A `BufReader` is lawful**: it consumes the stream up to the caller's offset. -/
instance : LawfulBufRead (Buffered R c) where
  consumed this := slice c.byteAt 0 this.reader.logical
  consumed_fillBuf this cx := by
    show slice c.byteAt 0 (this.reader.pollFillBuf cx).2.logical = _
    rw [logical_fillBuf this.ahead]
  consume_shown := by
    intro this cx bytes this' k hr hk
    have hshown : this.reader.pollFillBuf cx = (.ready (.ok bytes), this'.reader) :=
      Prod.ext (show (AsyncBufRead.pollFillBuf this cx).1 = _ from congrArg Prod.fst hr)
        (show (AsyncBufRead.pollFillBuf this cx).2.reader = _ by rw [hr])
    obtain rfl := buffer_of_shown hshown
    have hc := consume_eq this'.size hk
    have hlen := this'.reader.length_buffer
    obtain ⟨-, hlogical, htake⟩ := this'.ahead.advance (Nat.le_trans hk (Nat.le_of_eq hlen))
    have hsome : (this'.reader.consume k).isSome = true := by
      rw [hc]
      rfl
    refine ⟨_, dif_pos hsome, ?_⟩
    simp only [hc, Option.get_some]
    rw [hlogical, htake, ← slice_append, Nat.zero_add]

end BufReader

end OhosFfrt.Io
