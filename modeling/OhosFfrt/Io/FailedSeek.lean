import OhosFfrt.Fs.Seeks
import OhosFfrt.Io.Transparent

/-!
# Seeks that fail

`BufReader` and `File` both drop the bytes that they have read ahead before they hand a seek on, and
the offset below is ahead by these bytes.  `failed_seek_iff`: a failure changes nothing just if
there were none.
-/

namespace OhosFfrt.Io.FailedSeek

open Basic Lib.Files Lib.Runs Io.Traits List
open Fs.State Fs.System Fs.Seeks

/-! ## `BufReader` -/

section
variable {R : Type*} [LawfulReader R] {b b' : BufReader R} {c : Contents}

/-- **A seek of the inner reader that fails where it is**: the caller's offset is that of the inner
reader afterwards. -/
theorem logical_failed {position p : SeekFrom} {cxs : List Waker} {r : Poll (Traits.Result ℕ)}
    (hp : compensate position b.buffer.length = some p) (hs : driveSeek b position cxs = (r, b'))
    (hoffset : LawfulReader.offset b'.inner = LawfulReader.offset b.inner) :
    b'.logical = LawfulReader.offset b.inner := by
  rw [BufReader.driveSeek_eq b cxs hp, Prod.mk.injEq] at hs
  have hnil : b'.buffer = [] := by
    rw [← hs.2]
    rfl
  rw [BufReader.logical_of_empty hnil, hoffset]

theorem offset_eq_logical_iff (h : BufReader.Ahead c b) :
    LawfulReader.offset b.inner = b.logical ↔ b.buffer = [] := by
  have hle := h.le
  unfold BufReader.logical
  rw [← length_eq_zero_iff]
  omega

end

/-! ## `File` -/

theorem logical_failed_file {s s' : Sys} (h : Within s.os s.file) (hop : s.file.operation = none)
    (hf : Failed s s') : logical s' = logical s ↔ s.file.bufferedRead = [] := by
  have hle := h.le
  rw [unread_idle hop] at hle
  have hnil : s'.file.bufferedRead = [] := by
    rw [hf.2]
    rfl
  unfold logical SeqFile.back
  rw [hf.1, hnil, ← length_eq_zero_iff]
  simp only [SeqFile.mk.injEq, true_and, length_nil]
  omega

/-! ## Both -/

/-- **When a seek that fails changes nothing.**  The seek that is handed on fails, and does not move
the offset below.

* In every state of a `BufReader` over a reader of a stream, the caller's offset is the same
  afterwards just if nothing was buffered; and then later reads are those of a direct reader at the
  offset at which the caller was.
* In every state of a `File` without an operation, from which a seek is polled until it fails, the
  file as the caller sees it is the same afterwards just if nothing was buffered; and then all is as
  if there had been no request. -/
theorem failed_seek_iff {R : Type*} [LawfulReader R] :
    (∀ (capacity : ℕ) (inner : R) (b₀ b b' : BufReader R) (tr : List BufReader.Ev)
      (position p : SeekFrom) (cxs : List Waker) (e : Error),
      BufReader.withCapacity capacity inner = some b₀ → Run BufReader.step Any b₀ tr b →
      compensate position b.buffer.length = some p →
      driveSeek b position cxs = (.ready (.error e), b') →
      LawfulReader.offset b'.inner = LawfulReader.offset b.inner →
      (b'.logical = b.logical ↔ b.buffer = []) ∧
      (b.buffer = [] → ∀ (tr' : List BufReader.Ev) (b'' : BufReader R),
        Run BufReader.step BufReader.SeeksSucceed b' tr' b'' →
        BufReader.replay (LawfulReader.contents inner) b.logical tr' = some b''.logical)) ∧
    ∀ (os₀ : SeqFile) (tr es l : List Ev) (s s' : Sys),
      Run step Any (fromStd os₀) tr s → s.file.operation = none →
      Run step Polling s es s' → es = l ++ [.failed .os] → Quiet l →
      (logical s' = logical s ↔ s.file.bufferedRead = []) ∧
      (s.file.bufferedRead = [] →
        s'.os = s.os ∧ s'.file = { s.file with pendingSeek := none }) := by
  refine ⟨?_, ?_⟩
  · intro capacity inner b₀ b b' tr position p cxs e h₀ hrun hp hs hoffset
    have hahead := BufReader.ahead_run (BufReader.ahead_withCapacity h₀).1 hrun
    have hlogical := logical_failed hp hs hoffset
    have hiff := offset_eq_logical_iff hahead
    rw [← hlogical] at hiff
    refine ⟨hiff, fun hnil tr' b'' hrun' => ?_⟩
    have hahead' := BufReader.ahead_driveSeek hahead position cxs
    rw [hs] at hahead'
    rw [← hiff.mpr hnil]
    exact BufReader.replay_run hahead' hrun'
  · intro os₀ tr es l s s' hrun hop hpoll hes hquiet
    have hfailed := failed_run hop hpoll hes hquiet
    refine ⟨logical_failed_file (within_run hrun) hop hfailed, fun hnil => ⟨hfailed.1, ?_⟩⟩
    rw [hfailed.2, taken, ← hnil]

/-- **A seek before the start loses what was buffered.**  After one byte of four was read, the
caller seeks two bytes back, which fails, and is at the end: the next read finds nothing.  This is
so over a slice, and of a `File`, of which an abandoned read has read the four bytes. -/
theorem failed_seek_skips :
    (∃ (b₀ b b' b'' : BufReader Cursor),
      BufReader.withCapacity 4 (⟨[1, 2, 3, 4], 0⟩ : Cursor) = some b₀ ∧
      Run BufReader.step Any b₀ [.read 1 [1]] b ∧ b.logical = 1 ∧
      driveSeek b (.current (-2)) [0] =
        (.ready (.error ⟨.invalidInput, "invalid seek to a negative or overflowing position"⟩),
          b') ∧
      LawfulReader.offset b'.inner = LawfulReader.offset b.inner ∧ b'.logical = 4 ∧
      BufReader.step b' (.read 0 1) = some (b'', [.read 1 []])) ∧
    ∃ s s' s'' : Sys,
      Run step Any (fromStd ⟨[1, 2, 3, 4], 0⟩) [.pending, .read 1 [1]] s ∧
      logical s = ⟨[1, 2, 3, 4], 1⟩ ∧
      Run step Polling s [.seeking (.current (-2)), .failed .os] s' ∧ s'.os = s.os ∧
      logical s' = ⟨[1, 2, 3, 4], 4⟩ ∧ Run step Any s' [.read 1 []] s'' := by
  refine ⟨⟨_, _, _, _, rfl, run_exec [.read 0 1] rfl, rfl, rfl, rfl, rfl, rfl⟩, ?_⟩
  refine ⟨⟨⟨[1, 2, 3, 4], 4⟩, { File.fromInner with
      pendingSeek := some (.current (-2)), bufferedRead := [2, 3, 4] }, none⟩,
    ⟨⟨[1, 2, 3, 4], 4⟩, .fromInner, none⟩, _, run_exec [.begin (.read 4), .turn, .turn,
      .execute (.ok 4), .finish, .begin (.read 1), .turn, .turn, .startSeek (.current (-2))] rfl,
    rfl, run_execIf [.begin .complete, .turn, .execute (.ok 0), .finish, .turn] .nil rfl, rfl, rfl,
    run_exec [.begin (.read 1), .turn, .execute (.ok 0), .finish, .turn] rfl⟩

/-- The same seeks when all four bytes were read: nothing changes, and the caller can go back. -/
theorem failed_seek_at_end :
    (∃ (b b' : BufReader Cursor), b.buffer = [] ∧
      driveSeek b (.current (-5)) [0] =
        (.ready (.error ⟨.invalidInput, "invalid seek to a negative or overflowing position"⟩),
          b') ∧ b'.logical = b.logical) ∧
    ∃ s s' : Sys, s.file.bufferedRead = [] ∧
      Run step Polling s [.seeking (.current (-5)), .failed .os] s' ∧ logical s' = logical s := by
  obtain ⟨hreader, hfile⟩ := failed_seek_iff (R := Cursor)
  refine ⟨?_, ?_⟩
  · obtain ⟨b₀, h₀⟩ : ∃ b₀, BufReader.withCapacity 4 (⟨[1, 2, 3, 4], 0⟩ : Cursor) = some b₀ :=
      ⟨_, rfl⟩
    obtain ⟨b, b', hrun, hnil, hs, hoffset⟩ : ∃ b b',
        Run BufReader.step Any b₀ [.read 4 [1, 2, 3, 4]] b ∧
        b.buffer = [] ∧ driveSeek b (.current (-5)) [0] =
          (.ready (.error ⟨.invalidInput, "invalid seek to a negative or overflowing position"⟩),
            b') ∧ LawfulReader.offset b'.inner = LawfulReader.offset b.inner := by
      cases h₀
      exact ⟨_, _, run_exec [.read 0 4] rfl, rfl, rfl, rfl⟩
    have hp : compensate (.current (-5)) b.buffer.length = some (.current (-5)) := by
      rw [hnil]
      rfl
    exact ⟨b, b', hnil, hs, (hreader _ _ _ _ _ _ _ _ _ _ h₀ hrun hp hs hoffset).1.mpr hnil⟩
  · obtain ⟨s, s', hrun, hop, hnil, hpoll⟩ : ∃ s s' : Sys,
        Run step Any (fromStd ⟨[1, 2, 3, 4], 4⟩) [] s ∧ s.file.operation = none ∧
        s.file.bufferedRead = [] ∧ Run step Polling s [.seeking (.current (-5)), .failed .os] s' :=
      ⟨⟨⟨[1, 2, 3, 4], 4⟩, { File.fromInner with pendingSeek := some (.current (-5)) }, none⟩, _,
        run_exec [.startSeek (.current (-5))] rfl, rfl, rfl,
        run_execIf [.begin .complete, .turn, .execute (.ok 0), .finish, .turn] .nil rfl⟩
    have hquiet : Quiet [.seeking (.current (-5))] := by
      simp [Quiet]
    exact ⟨s, s', hnil, hpoll, (hfile _ _ _ _ _ _ hrun hop hpoll rfl hquiet).1.mpr hnil⟩

end OhosFfrt.Io.FailedSeek
