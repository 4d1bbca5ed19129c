import OhosFfrt.Io.BufRead

/-!
# `io`: readers of a stream that may end

A reader that honours the contract of `AsyncRead` gives the bytes of one stream, finite or not, in
order and in portions of any size, and when it gives none to a buffer with room, the stream has come
to its end and stays there (`LawfulSource`).  `Chunks` are all finite readers.
-/

namespace OhosFfrt.Io

open Lib.Files Io.Traits List Option
open Stream' (Seq)

/-- **A reader of a stream that may end.** -/
class LawfulSource (R : Type*) extends AsyncRead R where
  /-- The bytes that are still to be read. -/
  rest : R → Seq Byte
  rest_read : ∀ r cx n,
    rest r = Seq.append (Seq.ofList (pollRead r cx n).1.bytes) (rest (pollRead r cx n).2)
  rest_end : ∀ r cx n, 0 < n → (pollRead r cx n).1 = .ready (.ok ⟨[], Nat.zero_le _⟩) →
    rest r = Seq.nil

/-! ### Chunks -/

/-- A finite reader: what its calls give, one after the other; `none` is a pending call. -/
structure Chunks where
  script : List (Option (List Byte))
  nonempty : some [] ∉ script
  deriving DecidableEq, Repr

namespace Chunks

/-- All that is to come. -/
def bytes (this : Chunks) : List Byte := this.script.flatMap fun chunk => chunk.getD []

/-- The first chunk, without the first `n` of its bytes. -/
def dropChunk (n : ℕ) : List (Option (List Byte)) → List (Option (List Byte))
  | some chunk :: script =>
    if chunk.length ≤ n then script else some (chunk.drop n) :: script
  | script => script

/-- After the first chunk. -/
def tail (this : Chunks) : Chunks where
  script := this.script.tail
  nonempty h := this.nonempty (List.mem_of_mem_tail h)

variable {script : List (Option (List Byte))} {chunk : List Byte}

theorem dropChunk_nonempty {n : ℕ} (h : some [] ∉ script) :
    some [] ∉ dropChunk n script := by
  unfold dropChunk
  split
  · next chunk script =>
    split_ifs with hn
    · exact fun hmem => h (mem_cons_of_mem _ hmem)
    · intro hmem
      rcases mem_cons.mp hmem with he | hmem
      · have hlen := congrArg List.length (some.inj he)
        rw [length_nil, length_drop] at hlen
        omega
      · exact h (mem_cons_of_mem _ hmem)
  · exact h

/-- After `n` bytes of it. -/
def advance (this : Chunks) (n : ℕ) : Chunks where
  script := dropChunk n this.script
  nonempty := dropChunk_nonempty this.nonempty

instance : AsyncRead Chunks where
  pollRead this _ n :=
    match this.script with
    | [] => (.ready (.ok ⟨[], Nat.zero_le _⟩), this)
    | none :: _ => (.pending, this.tail)
    | some chunk :: _ =>
      (.ready (.ok ⟨chunk.take n, List.length_take_le n chunk⟩), this.advance n)

theorem script_tail {this : Chunks} {chunk : Option (List Byte)}
    (h : this.script = chunk :: script) :
    this.tail.script = script := by
  show this.script.tail = script
  rw [h]
  rfl

theorem bytes_tail (this : Chunks)
    (h : this.script = none :: script) : this.tail.bytes = this.bytes := by
  unfold bytes
  rw [script_tail h, h]
  rfl

theorem bytes_advance (this : Chunks) (h : this.script = some chunk :: script) (n : ℕ) :
    this.bytes = chunk.take n ++ (this.advance n).bytes := by
  have hscript : (this.advance n).script = dropChunk n (some chunk :: script) := by
    rw [← h]
    rfl
  unfold bytes
  rw [hscript, h, dropChunk, flatMap_cons, getD_some]
  split_ifs with hn
  · rw [take_of_length_le hn]
  · rw [flatMap_cons, getD_some, ← append_assoc, take_append_drop]

theorem chunk_ne {this : Chunks} (h : this.script = some chunk :: script) : chunk ≠ [] := by
  rintro rfl
  exact this.nonempty (by rw [h]; exact mem_cons_self)

instance : LawfulSource Chunks where
  rest this := Seq.ofList this.bytes
  rest_read this cx n := by
    simp only [pollRead]
    split
    · next h => rw [Poll.bytes, Seq.ofList_nil, Seq.nil_append]
    · next script h =>
      show Seq.ofList this.bytes = Seq.append (Seq.ofList []) (Seq.ofList this.tail.bytes)
      rw [Seq.ofList_nil, Seq.nil_append, this.bytes_tail h]
    · next chunk script h => rw [Poll.bytes, this.bytes_advance h n, Seq.ofList_append]
  rest_end this cx n hn hr := by
    simp only [pollRead] at hr
    split at hr
    · next h =>
      unfold bytes
      rw [h]
      rfl
    · cases hr
    · next chunk script h =>
      exfalso
      have hne := chunk_ne h
      have htake : chunk.take n = [] := by
        have := congrArg Poll.bytes hr
        exact this
      rcases chunk with _ | ⟨b, chunk⟩
      · exact hne rfl
      · obtain ⟨m, rfl⟩ := Nat.exists_eq_add_of_lt hn
        simp at htake

end Chunks

end OhosFfrt.Io
