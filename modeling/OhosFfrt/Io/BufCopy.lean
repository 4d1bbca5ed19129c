import OhosFfrt.Io.Copy
import OhosFfrt.Io.Lossless

/-!
# `io::copy` into a `BufWriter`

Over a lawful writer a `BufWriter` is a lawful writer, which takes what goes into its queue; a copy
leaves nothing there (`copy_delivers`).
-/

namespace OhosFfrt.Io.BufCopy

open Basic Lib.Files Lib.Polling Lib.Runs Io.Traits Io.Transfer List Option
open BufWriter (Accepts AcceptsSome Fits Flushed fits_withCapacity flushed_then pollWrite_accepts
  pollWriteVectored_accepts withCapacity)

variable {R W : Type*} [LawfulWriter W]

/-- A `BufWriter` as its calls leave it. -/
abbrev Fitting (W : Type*) := { w : BufWriter W // Fits w }

theorem accepts_get {w : BufWriter W} {input : List Byte}
    {o : Option (Poll (Result ℕ) × BufWriter W)} (h : AcceptsSome w input o) :
    ∃ ho : o.isSome, Accepts w input (o.get ho).1 (o.get ho).2 := by
  obtain ⟨r, w', rfl, h⟩ := h
  exact ⟨rfl, h⟩

/-- A write, which does not underflow. -/
def taken {w : BufWriter W} {input : List Byte} {o : Option (Poll (Result ℕ) × BufWriter W)}
    (h : AcceptsSome w input o) : Poll (Result ℕ) × Fitting W :=
  ((o.get (accepts_get h).fst).1, ⟨_, (accepts_get h).snd.fits⟩)

theorem flush_flushed (w : Fitting W) (cx : Waker) :
    Flushed w.1 (w.1.pollFlush cx).1 (w.1.pollFlush cx).2 :=
  flushed_then w.2 cx _ fun inner => LawfulWriter.consumed_flush inner cx

theorem shutdown_flushed (w : Fitting W) (cx : Waker) :
    Flushed w.1 (w.1.pollShutdown cx).1 (w.1.pollShutdown cx).2 :=
  flushed_then w.2 cx _ fun inner => LawfulWriter.consumed_shutdown inner cx

/-- **`impl AsyncWrite for BufWriter`.** -/
instance : LawfulWriter (Fitting W) where
  pollWrite w cx bytes := taken (pollWrite_accepts w.2 cx bytes)
  pollWriteVectored w cx bufs := taken (pollWriteVectored_accepts w.2 cx bufs)
  isWriteVectored _ := true
  pollFlush w cx := ((w.1.pollFlush cx).1, ⟨_, (flush_flushed w cx).fits⟩)
  pollShutdown w cx := ((w.1.pollShutdown cx).1, ⟨_, (shutdown_flushed w cx).fits⟩)
  consumed w := w.1.through
  amount_write w cx bytes := (accepts_get (pollWrite_accepts w.2 cx bytes)).snd.amount
  consumed_write w cx bytes := (accepts_get (pollWrite_accepts w.2 cx bytes)).snd.through
  amount_writeVectored w cx bufs :=
    (accepts_get (pollWriteVectored_accepts w.2 cx bufs)).snd.amount
  consumed_writeVectored w cx bufs :=
    (accepts_get (pollWriteVectored_accepts w.2 cx bufs)).snd.through
  consumed_flush w cx := (flush_flushed w cx).through
  consumed_shutdown w cx := (shutdown_flushed w cx).through

variable [AsyncRead R]

theorem next_empty {c c' : Copy R (Fitting W)} {cx : Waker} {cs : List Call} {n : ℕ}
    (h : c.next cx = some (c', some (.ready (.ok n)), cs)) : c'.writer.1.buffer = [] := by
  obtain ⟨m, ht, he⟩ := map_eq_some_iff.mp h
  cases next_called ht with
  | closed _ _ hw =>
    have hf := flush_flushed c.writer cx
    cases he
    simp only [Prod.mk.injEq, pollFlush] at hw
    obtain ⟨h1, rfl⟩ := hw
    rw [BufWriter.buffer, hf.empty h1, drop_nil]
  | _ => simp at he

/-- **A copy leaves nothing in the buffer of its writer.**  Whatever the calls of the reader and of
the inner writer return, what the inner writer has taken, then the buffer of the `BufWriter`, and
then that of the `Copy`, are what was read; and when the `Copy` returns `Ok(n)`, the inner writer
has taken all `n` bytes up to the end of the reader, and the buffer is empty. -/
theorem copy_delivers {capacity : ℕ} {reader : R} {inner : W} {w₀ : BufWriter W}
    {tr : List (Ev Call (Poll (Result ℕ)))} {s : Polled (Copy R (Fitting W)) Waker}
    (h₀ : withCapacity capacity inner = some w₀)
    (h : Run (drive Copy.next) Any ⟨.copy reader ⟨w₀, (fits_withCapacity h₀).1⟩, none⟩ tr s) :
    LawfulWriter.consumed inner ++ readOf (callsOf tr) =
        LawfulWriter.consumed s.future.writer.1.inner ++ s.future.writer.1.buffer ++
          s.future.state.unwritten ∧
      ∀ op s' es n, drive Copy.next s op = some (s', es) → .returned (.ready (.ok n)) ∈ es →
        AtEnd (callsOf tr) ∧ n = (readOf (callsOf tr)).length ∧ s'.future.writer.1.buffer = [] ∧
          LawfulWriter.consumed s'.future.writer.1.inner =
            LawfulWriter.consumed inner ++ readOf (callsOf tr) := by
  have hexact : Copy.Exact (LawfulWriter.consumed inner) (callsOf tr) s.future := by
    rw [← (fits_withCapacity h₀).2.2]
    exact exact_run h
  refine ⟨hexact.bytes, fun op s' es n hs hr => ?_⟩
  rcases drive_step hs with ⟨-, rfl⟩ | ⟨cx, r, cs, hn, rfl⟩
  · simp at hr
  · rw [returned_mem] at hr
    subst hr
    obtain ⟨hend, -, hk, hbytes⟩ := (Copy.next_spec hexact hn).2.1 n rfl
    have hempty := next_empty hn
    change LawfulWriter.consumed s'.future.writer.1.inner ++ s'.future.writer.1.buffer = _ at hbytes
    rw [hempty, append_nil] at hbytes
    exact ⟨hend, hk, hempty, hbytes⟩

/-- A writer with four bytes of buffer. -/
def ofFour : BufWriter Script := ⟨⟨[], [], [], []⟩, [], 0, 4, none⟩

/-- A copy of two bytes into it. -/
def throughFour : Polled (Copy Script (Fitting Script)) Waker :=
  ⟨.copy ⟨[.ready (.ok [1, 2])], [], [], []⟩ ⟨ofFour, by decide, by decide, by decide⟩, none⟩

-- the buffer of a copy has 8192 bytes
set_option maxRecDepth 100000 in
/-- Two bytes wait in a buffer of four for the flush. -/
theorem copy_delivers_two : ∃ tr s s', withCapacity 4 ofFour.inner = some ofFour ∧
    Run (drive Copy.next) Any throughFour tr s ∧ s.future.writer.1.buffer = [1, 2] ∧
    drive Copy.next s .go =
      some (s', [.call (.close (.ready (.ok ()))), .returned (.ready (.ok 2))]) ∧
    LawfulWriter.consumed s'.future.writer.1.inner = [1, 2] := by
  have h₀ : withCapacity 4 ofFour.inner = some ofFour := rfl
  have h : Run (drive Copy.next) Any throughFour _ _ := run_exec [.poll 0, .go, .go, .go] rfl
  have hok := (copy_delivers h₀ h).2 .go _
    [.call (.close (.ready (.ok ()))), .returned (.ready (.ok 2))] 2 rfl (by simp)
  exact ⟨_, _, _, h₀, h, rfl, rfl, hok.2.2.2⟩

end OhosFfrt.Io.BufCopy
