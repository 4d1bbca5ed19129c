import OhosFfrt.Io.Traits

/-!
# A stream that does what a script says

Its reads and writes are pending, fail, and give and take bytes in such portions as the script says.
When the script is over, a read finds the end of the file, and a write takes all that it is
offered.
-/

namespace OhosFfrt.Io

open Lib.Files Io.Traits List

/-- What a writer does that has taken `taken`, is offered `bytes` and is to answer `r`. -/
def offered (taken bytes : List Byte) : Poll (Result ℕ) → Poll (Result ℕ) × List Byte
  | .ready (.ok k) => (.ready (.ok (bytes.take k).length), taken ++ bytes.take k)
  | r => (r, taken)

theorem offered_spec (taken bytes : List Byte) (r : Poll (Result ℕ)) :
    (offered taken bytes r).1.amount ≤ bytes.length ∧
      (offered taken bytes r).2 = taken ++ bytes.take (offered taken bytes r).1.amount := by
  rcases r with _ | (e | k)
  · exact ⟨Nat.zero_le _, (append_nil _).symm⟩
  · exact ⟨Nat.zero_le _, (append_nil _).symm⟩
  · refine ⟨length_take_le' k bytes, ?_⟩
    simp only [offered, Poll.amount, length_take]
    rw [← take_eq_take_min]

/-- A stream with the script of its calls, and the bytes that it has taken. -/
structure Script where
  reads : List (Poll (Result (List Byte)))
  writes : List (Poll (Result ℕ))
  closes : List (Poll (Result Unit))
  taken : List Byte

namespace Script

instance : AsyncRead Script where
  pollRead this _ n :=
    match this.reads with
    | [] => (.ready (.ok ⟨[], Nat.zero_le _⟩), this)
    | .pending :: reads => (.pending, { this with reads := reads })
    | .ready (.error e) :: reads => (.ready (.error e), { this with reads := reads })
    | .ready (.ok bytes) :: reads =>
      (.ready (.ok ⟨bytes.take n, by rw [List.length_take]; omega⟩),
        { this with
          reads := match bytes.drop n with
            | [] => reads
            | b :: bs => .ready (.ok (b :: bs)) :: reads })

/-- It answers as scripted. -/
def write (this : Script) (bytes : List Byte) : Poll (Result ℕ) × Script :=
  let r := offered this.taken bytes (this.writes.headD (.ready (.ok bytes.length)))
  (r.1, { this with writes := this.writes.tail, taken := r.2 })

/-- A flush or a shutdown. -/
def close (this : Script) : Poll (Result Unit) × Script :=
  match this.closes with
  | [] => (.ready (.ok ()), this)
  | r :: closes => (r, { this with closes := closes })

instance : AsyncWrite Script where
  pollWrite this _ bytes := this.write bytes
  pollWriteVectored this _ bufs := this.write bufs.flatten
  isWriteVectored _ := true
  pollFlush this _ := this.close
  pollShutdown this _ := this.close

theorem taken_close (this : Script) : this.close.2.taken = this.taken := by
  unfold close
  split <;> rfl

instance : LawfulWriter Script where
  consumed := taken
  amount_write _ _ _ := (offered_spec ..).1
  consumed_write _ _ _ := (offered_spec ..).2
  amount_writeVectored _ _ _ := (offered_spec ..).1
  consumed_writeVectored _ _ _ := (offered_spec ..).2
  consumed_flush this _ := this.taken_close
  consumed_shutdown this _ := this.taken_close

end Script

end OhosFfrt.Io
