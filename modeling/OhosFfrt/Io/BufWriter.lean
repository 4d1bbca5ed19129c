import OhosFfrt.Io.Traits
import OhosFfrt.Lib.Runs

/-!
# `io::BufWriter`: the writer and its calls

An arithmetic underflow is `none`, which `capacity - buf.len()` would be if the buffer outgrew the
capacity.  The flush loop runs on fuel; `pollFlushBuf_eq` is the loop as it is written.
-/

namespace OhosFfrt.Io

open Basic Lib.Files Io.Traits

structure BufWriter (W : Type*) where
  inner : W
  buf : List Byte
  written : ℕ
  capacity : ℕ
  seek : Option SeekFrom
  deriving DecidableEq, Repr

namespace BufWriter

variable {W : Type*}

/-- `BufWriter::with_capacity`; `Vec::with_capacity` panics above `isize::MAX`. -/
def withCapacity (capacity : ℕ) (inner : W) : Option (BufWriter W) :=
  if capacity < 2 ^ 63 then
    some { inner := inner, buf := [], written := 0, capacity := capacity, seek := none }
  else none

/-- What is not written out yet. -/
def buffer (this : BufWriter W) : List Byte := this.buf.drop this.written

variable [AsyncWrite W]

/-! ## Flushing -/

/-- The loop of `poll_flush_buf`, and the `clear` after it. -/
def flushLoop (cx : Waker) : ℕ → BufWriter W → Poll (Result Unit) × BufWriter W
  | 0, this => (.ready (.ok ()), { this with buf := [], written := 0 })
  | fuel + 1, this =>
    if this.written < this.buf.length then
      match Traits.pollWrite this.inner cx this.buffer with
      | (.ready (.ok 0), inner) =>
        (.ready (.error ⟨.writeZero, "failed to flush buffered writer"⟩),
          { this with inner := inner })
      | (.ready (.ok amount), inner) =>
        flushLoop cx fuel { this with inner := inner, written := this.written + amount }
      | (.ready (.error e), inner) => (.ready (.error e), { this with inner := inner })
      | (.pending, inner) => (.pending, { this with inner := inner })
    else (.ready (.ok ()), { this with buf := [], written := 0 })

/-- `BufWriter::poll_flush_buf`. -/
def pollFlushBuf (this : BufWriter W) (cx : Waker) : Poll (Result Unit) × BufWriter W :=
  this.flushLoop cx (this.buf.length - this.written)

theorem flushLoop_fuel (cx : Waker) (n : ℕ) : ∀ (m : ℕ) (this : BufWriter W),
    this.buf.length - this.written ≤ n → this.buf.length - this.written ≤ m →
    this.flushLoop cx n = this.flushLoop cx m := by
  induction n with
  | zero =>
    intro m this hn _
    rcases m with _ | m
    · rfl
    · rw [flushLoop, flushLoop, if_neg (by omega)]
  | succ n ih =>
    intro m this hn hm
    rcases m with _ | m
    · rw [flushLoop, flushLoop, if_neg (by omega)]
    · rw [flushLoop, flushLoop]
      rcases Traits.pollWrite this.inner cx this.buffer with ⟨_ | (e | _ | amount), inner⟩
      · rfl
      · rfl
      · rfl
      · have := ih m { this with inner := inner, written := this.written + (amount + 1) }
          (by simp only; omega) (by simp only; omega)
        simp only [this]

theorem pollFlushBuf_eq (this : BufWriter W) (cx : Waker) : this.pollFlushBuf cx =
    if this.written < this.buf.length then
      match Traits.pollWrite this.inner cx this.buffer with
      | (.ready (.ok 0), inner) =>
        (.ready (.error ⟨.writeZero, "failed to flush buffered writer"⟩),
          { this with inner := inner })
      | (.ready (.ok amount), inner) =>
        pollFlushBuf { this with inner := inner, written := this.written + amount } cx
      | (.ready (.error e), inner) => (.ready (.error e), { this with inner := inner })
      | (.pending, inner) => (.pending, { this with inner := inner })
    else (.ready (.ok ()), { this with buf := [], written := 0 }) := by
  rw [pollFlushBuf, flushLoop_fuel cx _ (this.buf.length - this.written + 1) this (Nat.le_refl _)
    (by omega), flushLoop]
  rcases Traits.pollWrite this.inner cx this.buffer with ⟨_ | (e | _ | amount), inner⟩
  · rfl
  · rfl
  · rfl
  · have := flushLoop_fuel cx (this.buf.length - this.written) _
      { this with inner := inner, written := this.written + (amount + 1) }
      (by simp only; omega) (Nat.le_refl _)
    simp only [this, pollFlushBuf]

/-- **The rule for the flush loop**: `P` holds of a writer and what its flush comes to, if it does
where the loop ends, and of the writer before a turn whenever it does of the one after it. -/
theorem pollFlushBuf_rule {P : BufWriter W → Poll (Result Unit) × BufWriter W → Prop} (cx : Waker)
    (clear : ∀ this : BufWriter W, this.buf.length ≤ this.written →
      P this (.ready (.ok ()), { this with buf := [], written := 0 }))
    (pending : ∀ (this : BufWriter W) (inner : W), this.written < this.buf.length →
      Traits.pollWrite this.inner cx this.buffer = (.pending, inner) →
      P this (.pending, { this with inner := inner }))
    (failed : ∀ (this : BufWriter W) (inner : W) (e : Error), this.written < this.buf.length →
      Traits.pollWrite this.inner cx this.buffer = (.ready (.error e), inner) →
      P this (.ready (.error e), { this with inner := inner }))
    (zero : ∀ (this : BufWriter W) (inner : W), this.written < this.buf.length →
      Traits.pollWrite this.inner cx this.buffer = (.ready (.ok 0), inner) →
      P this (.ready (.error ⟨.writeZero, "failed to flush buffered writer"⟩),
        { this with inner := inner }))
    (turn : ∀ (this : BufWriter W) (inner : W) (amount : ℕ) (r : Poll (Result Unit) × BufWriter W),
      this.written < this.buf.length →
      Traits.pollWrite this.inner cx this.buffer = (.ready (.ok (amount + 1)), inner) →
      P { this with inner := inner, written := this.written + (amount + 1) } r → P this r)
    (this : BufWriter W) : P this (this.pollFlushBuf cx) := by
  -- on the number of bytes that are left, which every turn makes less
  generalize hn : this.buf.length - this.written = n
  induction n using Nat.strongRecOn generalizing this with
  | ind n ih =>
    rw [pollFlushBuf_eq]
    split_ifs with hlt
    · rcases hwrite : Traits.pollWrite this.inner cx this.buffer with ⟨_ | (e | _ | amount), inner⟩
      · exact pending this inner hlt hwrite
      · exact failed this inner e hlt hwrite
      · exact zero this inner hlt hwrite
      · refine turn this inner amount _ hlt hwrite ?_
        exact ih (this.buf.length - (this.written + (amount + 1))) (by omega) _ rfl
    · exact clear this (by omega)

/-! ## Writing -/

/-- `BufWriter::poll_write`. -/
def pollWrite (this : BufWriter W) (cx : Waker) (input : List Byte) :
    Option (Poll (Result ℕ) × BufWriter W) :=
  (if this.buf = [] then some false
    else (checkedSub this.capacity this.buf.length).map fun room => decide (room < input.length)
  ).bind fun full =>
    ready (if full then this.pollFlushBuf cx else (.ready (.ok ()), this)) some fun _ this =>
      if this.buf = [] ∧ this.capacity ≤ input.length then
        let (r, inner) := Traits.pollWrite this.inner cx input
        some (r, { this with inner := inner })
      else
        (checkedSub this.capacity this.buf.length).map fun room =>
          let amount := min input.length room
          (.ready (.ok amount), { this with buf := this.buf ++ input.take amount })

/-- The last loop of `poll_write_vectored`: the slices are taken while they fit. -/
def extendWhile (this : BufWriter W) (written : ℕ) :
    List (List Byte) → Option (Poll (Result ℕ) × BufWriter W)
  | [] => some (.ready (.ok written), this)
  | buf :: bufs =>
    (checkedSub this.capacity this.buf.length).bind fun room =>
      if room < buf.length then some (.ready (.ok written), this)
      else extendWhile { this with buf := this.buf ++ buf } (written + buf.length) bufs

/-- `BufWriter::poll_write_vectored`. -/
def pollWriteVectored (this : BufWriter W) (cx : Waker) (bufs : List (List Byte)) :
    Option (Poll (Result ℕ) × BufWriter W) :=
  if isWriteVectored this.inner then
    let total := bufs.foldl (fun sum buf => min (sum + buf.length) usizeMax) 0
    (checkedSub this.capacity this.buf.length).bind fun room =>
      ready (if room < total then this.pollFlushBuf cx else (.ready (.ok ()), this)) some
        fun _ this =>
          if this.capacity ≤ total then
            let (r, inner) := Traits.pollWriteVectored this.inner cx bufs
            some (r, { this with inner := inner })
          else some (.ready (.ok total), { this with buf := this.buf ++ bufs.flatten })
  else
    match bufs.dropWhile List.isEmpty with
    | [] => some (.ready (.ok 0), this)
    | first :: bufs =>
      (checkedSub this.capacity this.buf.length).bind fun room =>
        ready (if room < first.length then this.pollFlushBuf cx else (.ready (.ok ()), this)) some
          fun _ this =>
            if this.capacity ≤ first.length then
              let (r, inner) := Traits.pollWrite this.inner cx first
              some (r, { this with inner := inner })
            else extendWhile { this with buf := this.buf ++ first } first.length bufs

/-- `BufWriter::poll_flush`. -/
def pollFlush (this : BufWriter W) (cx : Waker) : Poll (Result Unit) × BufWriter W :=
  ready (this.pollFlushBuf cx) id fun _ this =>
    let (r, inner) := Traits.pollFlush this.inner cx
    (r, { this with inner := inner })

/-- `BufWriter::poll_shutdown`. -/
def pollShutdown (this : BufWriter W) (cx : Waker) : Poll (Result Unit) × BufWriter W :=
  ready (this.pollFlushBuf cx) id fun _ this =>
    let (r, inner) := Traits.pollShutdown this.inner cx
    (r, { this with inner := inner })

/-! ## Seeking -/

/-- `BufWriter::start_seek` and `BufWriter::poll_complete`. -/
instance [AsyncSeek W] : AsyncSeek (BufWriter W) where
  startSeek this position :=
    match this.seek with
    | some _ => (.error ⟨.other, "another seek is already in progress"⟩, this)
    | none => (.ok (), { this with seek := some position })
  pollComplete this cx :=
    ready (this.pollFlushBuf cx) id fun _ this =>
      match this.seek with
      | none =>
        let (r, inner) := pollComplete this.inner cx
        (r, { this with inner := inner })
      | some position =>
        match startSeek this.inner position with
        | (.error e, inner) => (.ready (.error e), { this with inner := inner, seek := none })
        | (.ok (), inner) =>
          let (r, inner) := pollComplete inner cx
          (r, { this with inner := inner, seek := none })

end BufWriter

end OhosFfrt.Io
