import OhosFfrt.Basic
import OhosFfrt.Lib.Files
import OhosFfrt.Lib.Streams

/-!
# `io`: the traits of readers, writers and seekers

The traits are classes whose methods take the value and return it next to their result.  What the
adapters may rely on is stated by the lawful classes; nothing is asked of how much is taken or read
at a time, or of when a call is pending or fails.
-/

namespace OhosFfrt.Io.Traits

open Basic Lib.Files Lib.Streams List

/-- `io::ErrorKind`, the kinds that the adapters make. -/
inductive ErrorKind
  | invalidInput
  | writeZero
  | other
  deriving DecidableEq, Repr

/-- `io::Error`. -/
structure Error where
  kind : ErrorKind
  message : String
  deriving DecidableEq, Repr

/-- `io::Result`. -/
abbrev Result (α : Type*) := Except Error α

inductive Poll (α : Type*)
  | pending
  | ready (a : α)
  deriving DecidableEq, Repr

/-- What a reader has put into a `ReadBuf` with room for `n` bytes: `put_slice` and `advance` assert
that it fits. -/
abbrev Filled (n : ℕ) := { bytes : List Byte // bytes.length ≤ n }

/-- `AsyncRead`.  Only a read that is ready and `Ok` has put bytes into the buffer. -/
class AsyncRead (R : Type*) where
  pollRead : R → Waker → (n : ℕ) → Poll (Result (Filled n)) × R

class AsyncWrite (W : Type*) where
  pollWrite : W → Waker → List Byte → Poll (Result ℕ) × W
  pollWriteVectored : W → Waker → List (List Byte) → Poll (Result ℕ) × W
  isWriteVectored : W → Bool
  pollFlush : W → Waker → Poll (Result Unit) × W
  pollShutdown : W → Waker → Poll (Result Unit) × W

class AsyncSeek (S : Type*) where
  startSeek : S → SeekFrom → Result Unit × S
  pollComplete : S → Waker → Poll (Result ℕ) × S

export AsyncRead (pollRead)
export AsyncWrite (pollWrite pollWriteVectored isWriteVectored pollFlush pollShutdown)
export AsyncSeek (startSeek pollComplete)

variable {S α β γ : Type*}

/-- The event of a call that has returned this. -/
@[simp] def Poll.answer (pending : β) (failed : Error → β) (ok : α → β) : Poll (Result α) → β
  | .pending => pending
  | .ready (.error e) => failed e
  | .ready (.ok a) => ok a

/-- It is `Ready(Ok(_))`. -/
def Poll.isOk : Poll (Result α) → Bool
  | .ready (.ok _) => true
  | _ => false

/-- `ready!(..)?`: the caller returns, by `exit`, unless the result is ready and `Ok`. -/
def ready (r : Poll (Result α) × S) (exit : Poll (Result β) × S → γ) (next : α → S → γ) : γ :=
  match r with
  | (.pending, s) => exit (.pending, s)
  | (.ready (.error e), s) => exit (.ready (.error e), s)
  | (.ready (.ok a), s) => next a s

/-! ## Seeks -/

/-- `poll_complete` until it is ready, with these wakers at most. -/
def driveComplete [AsyncSeek S] : S → List Waker → Poll (Result ℕ) × S
  | s, [] => (.pending, s)
  | s, cx :: cxs =>
    match pollComplete s cx with
    | (.pending, s') => driveComplete s' cxs
    | (.ready x, s') => (.ready x, s')

/-- **A whole seek**: `start_seek`, and `poll_complete` until it is ready, or given up. -/
def driveSeek [AsyncSeek S] (s : S) (position : SeekFrom) (cxs : List Waker) :
    Poll (Result ℕ) × S :=
  match startSeek s position with
  | (.error e, s') => (.ready (.error e), s')
  | (.ok (), s') => driveComplete s' cxs

theorem driveComplete_snoc [AsyncSeek S] {s' : S} (cx : Waker) (cxs : List Waker) : ∀ s : S,
    driveComplete s cxs = (.pending, s') → driveComplete s (cxs ++ [cx]) = pollComplete s' cx := by
  induction cxs with
  | nil =>
    intro s h
    cases h
    rw [nil_append, driveComplete]
    rcases pollComplete s' cx with ⟨_ | x, s₁⟩ <;> rfl
  | cons cx' cxs ih =>
    intro s h
    rw [driveComplete] at h
    rw [cons_append, driveComplete]
    generalize pollComplete s cx' = q at h ⊢
    rcases q with ⟨_ | x, s₁⟩
    · exact ih s₁ h
    · cases h

theorem driveSeek_snoc [AsyncSeek S] {s s' : S} {position : SeekFrom} {cxs : List Waker}
    (h : driveSeek s position cxs = (.pending, s')) (cx : Waker) :
    driveSeek s position (cxs ++ [cx]) = pollComplete s' cx := by
  unfold driveSeek at h ⊢
  generalize startSeek s position = q at h ⊢
  rcases q with ⟨e | _, s₁⟩
  · cases h
  · exact driveComplete_snoc cx cxs s₁ h

/-- `Seek`, without the seeker: the future returned by `AsyncSeekExt::seek`. -/
structure Seek where
  position : Option SeekFrom
  deriving DecidableEq, Repr

/-- `Seek::poll`. -/
def Seek.poll [AsyncSeek S] (this : Seek) (seeker : S) (cx : Waker) :
    Poll (Result ℕ) × Seek × S :=
  match this.position with
  | none =>
    let (r, seeker') := pollComplete seeker cx
    (r, this, seeker')
  | some position =>
    match startSeek seeker position with
    | (.error e, seeker') => (.ready (.error e), ⟨none⟩, seeker')
    | (.ok (), seeker') =>
      let (r, seeker'') := pollComplete seeker' cx
      (r, ⟨none⟩, seeker'')

/-- Where a seek from an offset goes, in a stream of a size. -/
def target (size offset : ℕ) : SeekFrom → Int
  | .start n => n
  | .fromEnd d => size + d
  | .current d => offset + d

/-! ## What the adapters rely on -/

/-- The amount written. -/
def Poll.amount : Poll (Result ℕ) → ℕ
  | .ready (.ok k) => k
  | _ => 0

/-- The bytes read. -/
def Poll.bytes {n : ℕ} : Poll (Result (Filled n)) → List Byte
  | .ready (.ok bytes) => bytes.1
  | _ => []

/-- **A writer that takes what it says**: on `Ok(k)` the first `k` bytes it was offered, otherwise
nothing. -/
class LawfulWriter (W : Type*) extends AsyncWrite W where
  /-- All the bytes that were taken, in order. -/
  consumed : W → List Byte
  amount_write : ∀ w cx bytes, (pollWrite w cx bytes).1.amount ≤ bytes.length
  consumed_write : ∀ w cx bytes, consumed (pollWrite w cx bytes).2 =
    consumed w ++ bytes.take (pollWrite w cx bytes).1.amount
  amount_writeVectored : ∀ w cx bufs,
    (pollWriteVectored w cx bufs).1.amount ≤ bufs.flatten.length
  consumed_writeVectored : ∀ w cx bufs, consumed (pollWriteVectored w cx bufs).2 =
    consumed w ++ bufs.flatten.take (pollWriteVectored w cx bufs).1.amount
  consumed_flush : ∀ w cx, consumed (pollFlush w cx).2 = consumed w
  consumed_shutdown : ∀ w cx, consumed (pollShutdown w cx).2 = consumed w

/-- What a seekable source holds. -/
structure Contents where
  byteAt : ℕ → Byte
  /-- Where `SeekFrom::End` counts from. -/
  size : ℕ

/-- **A reader of one stream**: a read gives the bytes at the offset, in any number that fits, and
moves past them, and a seek that succeeds moves the offset as requested. -/
class LawfulReader (R : Type*) extends AsyncRead R, AsyncSeek R where
  contents : R → Contents
  offset : R → ℕ
  bytes_read : ∀ r cx n, (pollRead r cx n).1.bytes =
    slice (contents r).byteAt (offset r) (pollRead r cx n).1.bytes.length
  offset_read : ∀ r cx n,
    offset (pollRead r cx n).2 = offset r + (pollRead r cx n).1.bytes.length
  contents_read : ∀ r cx n, contents (pollRead r cx n).2 = contents r
  contents_startSeek : ∀ r position, contents (startSeek r position).2 = contents r
  contents_pollComplete : ∀ r cx, contents (pollComplete r cx).2 = contents r
  seek_ok : ∀ r position cxs p r', driveSeek r position cxs = (.ready (.ok p), r') →
    offset r' = p ∧ (p : Int) = target (contents r).size (offset r) position

end OhosFfrt.Io.Traits
