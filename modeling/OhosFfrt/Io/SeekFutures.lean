import OhosFfrt.Fs.SeekFutures
import OhosFfrt.Io.WriterSeeks

/-!
# Futures of seeks do not poison a stream

A seek parks its request in the stream between `start_seek` and the poll that hands it on.  Here the
results on a `BufWriter` and on a `File` are put together, in `seeks_not_poisoned`.
-/

namespace OhosFfrt.Io.SeekFutures

open Lib.Files Lib.Runs Io.Traits List

/-- **When no seek poisons the stream.**  In a run, over any inner writer and with any errors of the
operating system, no `Seek` future is dropped while its request is parked, none is made for a `File`
while the seek of one that was dropped is under way, and none finds that what must come first fails:
the flush of a `BufWriter`, because the inner writer refuses what is buffered, or the operation that
is under way in a `File`.  Then in every state reached, whatever happens next,

* no seek is refused;
* a seek that is ready on a `BufWriter` is ready with the answer that the inner writer gave when it
  was asked, after the flush, for the very position that the future was made for;
* a seek that is ready on a `File` has left the file, as the caller sees it, where a seek to that
  position goes from the file as the caller saw it when the seek was started. -/
theorem seeks_not_poisoned {W : Type*} [AsyncWrite W] [AsyncSeek W] :
    (∀ (capacity : ℕ) (inner : W) (w₀ : BufWriter W) (tr es : List WriterSeeks.Ev)
      (op : WriterSeeks.Op) (s s' : WriterSeeks.Sys W),
      BufWriter.withCapacity capacity inner = some w₀ →
      Run WriterSeeks.step WriterSeeks.Careful (WriterSeeks.new w₀) tr s →
      WriterSeeks.step s op = some (s', es) →
      (∀ e, .rejected e ∉ es) ∧
      ∀ asked p, .sought asked p ∈ es → s'.writer.buf = [] ∧
        WriterSeeks.AskedFor (WriterSeeks.new w₀) tr asked (.ready (.ok p)) s'.writer.inner) ∧
    ∀ (os₀ : SeqFile) (tr es : List Fs.SeekFutures.Ev) (op : Fs.SeekFutures.Op)
      (s s' : Fs.SeekFutures.Seeker),
      Run Fs.SeekFutures.step Fs.SeekFutures.Careful (Fs.SeekFutures.fromStd os₀) tr s →
      Fs.SeekFutures.step s op = some (s', es) →
      (∀ e, .rejected e ∉ es) ∧
      ∀ asked p, .sought asked p ∈ es →
        ∃ g, Fs.SeekFutures.StartedOn (Fs.SeekFutures.fromStd os₀) tr asked g ∧
          g.seek asked = some (Fs.Seeks.logical s'.sys) ∧ p = (Fs.Seeks.logical s'.sys).offset := by
  refine ⟨?_, ?_⟩
  · intro capacity inner w₀ tr es op s s' h₀ hrun hs
    have hseek : w₀.seek = none := by
      unfold BufWriter.withCapacity at h₀
      split_ifs at h₀
      cases h₀
      rfl
    exact WriterSeeks.step_spec (WriterSeeks.inv_run hseek hrun) hrun hs
  · intro os₀ tr es op s s' hrun hs
    obtain ⟨hsteps, -⟩ := Fs.SeekFutures.inv_steps (Fs.SeekFutures.inv_run hrun) hs
    exact ⟨hsteps.accepted, hsteps.reached⟩

/-- **A seek that ends poisons the stream.**  A seek on a `BufWriter` over a slice of one byte
fails, because the slice has no room for what is buffered, and a seek on a `File` is dropped while
it waits for a write; neither stream takes another seek. -/
theorem seek_poisons :
    (∃ (w₀ : BufWriter Cursor) (s : WriterSeeks.Sys Cursor),
      BufWriter.withCapacity 4 (⟨[0], 0⟩ : Cursor) = some w₀ ∧
      Run WriterSeeks.step Any (WriterSeeks.new w₀) [.called (.wrote [1, 2] 2),
        .failed ⟨.writeZero, "failed to flush buffered writer"⟩,
        .rejected ⟨.other, "another seek is already in progress"⟩] s) ∧
    ∃ s : Fs.SeekFutures.Seeker,
      Run Fs.SeekFutures.step Any (Fs.SeekFutures.fromStd ⟨[1, 2, 3], 0⟩)
        [.file (.wrote [9]), .file .pending,
          .rejected (.other "another file seek is already in progress")] s := by
  refine ⟨⟨_, _, rfl, run_exec [.call (.write 0 [1, 2]), .seek (.start 0), .poll 0,
    .seek (.start 0), .poll 0] rfl⟩, ?_⟩
  exact ⟨_, run_exec [.file (.begin (.write [9])), .file .turn, .seek (.start 0), .poll,
    .file .turn, .drop, .file (.execute (.ok 0)), .file .finish, .seek (.start 2), .poll] rfl⟩

/-- Seeks that are over: the first on a `BufWriter` flushes what is buffered, and the one on a
`File` waits for a write. -/
theorem seeks_not_poisoned_over :
    (∃ (w₀ : BufWriter Cursor) (s s' : WriterSeeks.Sys Cursor),
      BufWriter.withCapacity 4 (⟨[0, 0, 0], 0⟩ : Cursor) = some w₀ ∧
      Run WriterSeeks.step WriterSeeks.Careful (WriterSeeks.new w₀)
        [.called (.wrote [1, 2] 2), .sought (.start 1) 1] s ∧
      WriterSeeks.step s (.poll 0) = some (s', [.sought (.current 1) 2]) ∧
      WriterSeeks.AskedFor (WriterSeeks.new w₀) [.called (.wrote [1, 2] 2), .sought (.start 1) 1]
        (.current 1) (.ready (.ok 2)) s'.writer.inner) ∧
    ∃ s s' : Fs.SeekFutures.Seeker,
      Run Fs.SeekFutures.step Fs.SeekFutures.Careful (Fs.SeekFutures.fromStd ⟨[1, 2, 3], 0⟩)
        [.file (.wrote [9]), .file .pending, .file (.seeking (.current 1))] s ∧
      Fs.SeekFutures.step s (.file .turn) = some (s', [.sought (.current 1) 2]) ∧
      ∃ g, Fs.SeekFutures.StartedOn (Fs.SeekFutures.fromStd ⟨[1, 2, 3], 0⟩)
          [.file (.wrote [9]), .file .pending, .file (.seeking (.current 1))] (.current 1) g ∧
        g.seek (.current 1) = some (Fs.Seeks.logical s'.sys) := by
  obtain ⟨hwriter, hfile⟩ := seeks_not_poisoned (W := Cursor)
  refine ⟨?_, ?_⟩
  · obtain ⟨w₀, h₀⟩ : ∃ w₀, BufWriter.withCapacity 4 (⟨[0, 0, 0], 0⟩ : Cursor) = some w₀ :=
      ⟨_, rfl⟩
    obtain ⟨s, s', hrun, hs⟩ : ∃ s s', Run WriterSeeks.step WriterSeeks.Careful
        (WriterSeeks.new w₀) [.called (.wrote [1, 2] 2), .sought (.start 1) 1] s ∧
        WriterSeeks.step s (.poll 0) = some (s', [.sought (.current 1) 2]) := by
      cases h₀
      exact ⟨_, _, run_execIf [.call (.write 0 [1, 2]), .seek (.start 1), .poll 0,
        .seek (.current 1)] .nil rfl, rfl⟩
    obtain ⟨-, hreached⟩ := hwriter _ _ _ _ _ _ _ _ h₀ hrun hs
    exact ⟨w₀, s, s', h₀, hrun, hs, (hreached _ _ (mem_singleton_self _)).2⟩
  · obtain ⟨s, s', hrun, hs⟩ : ∃ s s', Run Fs.SeekFutures.step Fs.SeekFutures.Careful
        (Fs.SeekFutures.fromStd ⟨[1, 2, 3], 0⟩)
        [.file (.wrote [9]), .file .pending, .file (.seeking (.current 1))] s ∧
        Fs.SeekFutures.step s (.file .turn) = some (s', [.sought (.current 1) 2]) :=
      ⟨_, _, run_execIf [.file (.begin (.write [9])), .file .turn, .seek (.current 1), .poll,
        .file .turn, .file (.execute (.ok 0)), .file .finish, .poll, .file .turn, .file .turn,
        .file (.execute (.ok 0)), .file .finish] .nil rfl, rfl⟩
    obtain ⟨-, hreached⟩ := hfile _ _ _ _ _ _ hrun hs
    obtain ⟨g, hg, hseek, -⟩ := hreached _ _ (mem_singleton_self _)
    exact ⟨s, s', hrun, hs, g, hg, hseek⟩

end OhosFfrt.Io.SeekFutures
