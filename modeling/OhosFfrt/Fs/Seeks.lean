import OhosFfrt.Fs.Refinement

/-!
# `fs::File`: seeks

A seek is requested by `start_seek`, which leaves the request in `pending_seek`; `poll_complete`
waits for the operation under way, drops the bytes that are buffered and starts the seek of the
operating system.  Operations may fail here; `failed_run` says what is left then.
-/

namespace OhosFfrt.Fs.Seeks

open Lib.Files Lib.Runs Fs.State Fs.System List Option
open Fs.Moves Fs.Refinement

variable {os os' os₀ : SeqFile} {f : File} {s s' s₁ s₂ : Sys} {op : Op} {es tr : List Ev}
  {operation operation' : FileOperation} {position : SeekFrom}

/-! ## A turn of a loop -/

/-- The error of an operation. -/
def error : CompletedOperation → Option IoError
  | .read (.error e) | .write (.error e) | .seek (.error e) => some e
  | _ => none

/-- **What a turn of a loop can come to.** -/
inductive Turned (f : File) (idle : Turn) (ret : CompletedOperation → Option Ev) : Turn → Prop
  | idle (hop : f.operation = none) : Turned f idle ret idle
  | pending (operation : FileOperation) (hop : f.operation = some operation)
      (hpoll : operation.poll = none) : Turned f idle ret (.returns f [.pending])
  | failed (operation : FileOperation) (c : CompletedOperation) (e : IoError)
      (hop : f.operation = some operation) (hpoll : operation.poll = some c)
      (he : error c = some e) :
      Turned f idle ret (.returns { f with operation := none } [.failed e])
  /-- The operation has succeeded; a read leaves its bytes in the buffer. -/
  | finished (operation : FileOperation) (c : CompletedOperation) (es : List Ev)
      (returned : Bool) (hop : f.operation = some operation) (hpoll : operation.poll = some c)
      (he : error c = none) (hes : es = (ret c).toList) :
      Turned f idle ret
        ⟨{ f with operation := none, bufferedRead := unread f }, es, returned⟩

theorem finishOperation_eq {c : CompletedOperation} (hop : f.operation = some operation)
    (hpoll : operation.poll = some c) :
    File.finishOperation { f with operation := none } c =
      match error c with
      | some e => .error e
      | none => .ok { f with operation := none, bufferedRead := unread f } := by
  unfold unread
  rw [hop]
  rcases operation with ⟨cap, _ | r | r⟩ | ⟨u, bs, _ | r | r⟩ | ⟨pos, _ | r | r⟩ <;>
    simp only [FileOperation.poll, some.injEq, reduceCtorEq] at hpoll <;> subst hpoll <;>
    rcases r with e | x <;> rfl

theorem turn_turned (f : File) (idle : Turn) (ret : CompletedOperation → Option Ev) :
    Turned f idle ret (f.turn idle ret) := by
  rcases hop : f.operation with _ | operation
  · have hturn : f.turn idle ret = idle := by
      simp only [File.turn, File.pollOperation, hop]
    rw [hturn]
    exact .idle hop
  · rcases hpoll : operation.poll with _ | c
    · have hturn : f.turn idle ret = .returns f [.pending] := by
        simp only [File.turn, File.pollOperation, hop, hpoll, map_none]
      rw [hturn]
      exact .pending operation hop hpoll
    · have hfinish := finishOperation_eq hop hpoll
      rcases he : error c with _ | e
      · rw [he] at hfinish
        rcases hret : ret c with _ | x
        · have hturn : f.turn idle ret =
              ⟨{ f with operation := none, bufferedRead := unread f }, [], false⟩ := by
            simp only [File.turn, File.pollOperation, hop, hpoll, map_some, hfinish, hret]
            rfl
          rw [hturn]
          exact .finished operation c [] false hop hpoll he (by rw [hret]; rfl)
        · have hturn : f.turn idle ret =
              ⟨{ f with operation := none, bufferedRead := unread f }, [x], true⟩ := by
            simp only [File.turn, File.pollOperation, hop, hpoll, map_some, hfinish, hret]
            rfl
          rw [hturn]
          exact .finished operation c [x] true hop hpoll he (by rw [hret]; rfl)
      · rw [he] at hfinish
        have hturn : f.turn idle ret = .returns { f with operation := none } [.failed e] := by
          simp only [File.turn, File.pollOperation, hop, hpoll, map_some, hfinish]
        rw [hturn]
        exact .failed operation c e hop hpoll he

/-! ## What was read ahead -/

/-- **No more was read ahead than the offset is**, and nothing is buffered while an operation is
under way. -/
structure Within (os : SeqFile) (f : File) : Prop where
  busy : f.operation ≠ none → f.bufferedRead = []
  le : (unread f).length ≤ os.offset

theorem unread_idle (hop : f.operation = none) : unread f = f.bufferedRead := by
  unfold unread
  rw [hop]

theorem Within.turn (h : Within os f) {idle : Turn} {ret : CompletedOperation → Option Ev}
    (hidle : f.operation = none → Within os idle.file) : Within os (f.turn idle ret).file := by
  have hle := h.le
  have hturned := turn_turned f idle ret
  generalize f.turn idle ret = t at hturned ⊢
  cases hturned with
  | idle hop => exact hidle hop
  | pending => exact h
  | failed operation c e hop =>
    have hnil := h.busy (by rw [hop]; exact fun h => nomatch h)
    refine ⟨fun hno => absurd rfl hno, ?_⟩
    show f.bufferedRead.length ≤ _
    rw [hnil]
    exact Nat.zero_le _
  | finished =>
    exact ⟨fun hno => absurd rfl hno, hle⟩

theorem within_idle (hop : f.operation = none) (hle : f.bufferedRead.length ≤ os.offset) :
    Within os f where
  busy := fun hno => absurd hop hno
  le := by rw [unread_idle hop]; exact hle

theorem within_nil (hbuf : f.bufferedRead = []) (hunread : unread f = []) : Within os f where
  busy := fun _ => hbuf
  le := by rw [hunread]; exact Nat.zero_le _

theorem within_call (h : Within os f) (c : Call) : Within os (c.turn f).file := by
  have hle := h.le
  rcases c with n | buf | _ | _
  · simp only [Call.turn, File.pollRead]
    split_ifs with hn hbuf
    · exact h
    · -- only without an operation is there something in the buffer
      have hop : f.operation = none := by
        by_contra hno
        exact hbuf (h.busy hno)
      rw [unread_idle hop] at hle
      refine within_idle hop ?_
      simp only [Turn.returns, length_drop]
      omega
    · refine h.turn fun hop => within_nil (not_not.mp hbuf) ?_
      simp only [Turn.again, unread, got, not_not.mp hbuf, append_nil]
  · refine h.turn fun hop => ?_
    split_ifs
    · exact h
    · exact within_nil rfl rfl
  · exact h.turn fun _ => h
  · refine h.turn fun hop => ?_
    rw [unread_idle hop] at hle
    split
    · exact within_idle hop hle
    · exact within_nil rfl rfl

theorem within_execute {o : Outcome} (hop : f.operation = some operation) (h : Within os f)
    (he : execute os o operation = some (os', operation')) :
    Within os' { f with operation := some operation' } := by
  have hbuf : f.bufferedRead = [] := h.busy (by rw [hop]; exact fun h => nomatch h)
  rcases operation with ⟨cap, _ | r | r⟩ | ⟨u, bs, _ | r | r⟩ | ⟨pos, _ | r | r⟩ <;>
    simp only [execute, map_eq_some_iff, some.injEq, Prod.mk.injEq,
      reduceCtorEq] at he
  · obtain ⟨⟨os1, r⟩, hr, rfl, rfl⟩ := he
    refine ⟨fun _ => hbuf, ?_⟩
    simp only [unread, hbuf, nil_append]
    rcases o with k | k
    · obtain ⟨⟨bytes, os2⟩, hread, ⟨⟩⟩ := map_eq_some_iff.mp hr
      exact (behind_read hread).1.1
    · cases hr
      exact Nat.zero_le _
  iterate 2
    · obtain ⟨rfl, rfl⟩ := he
      exact within_nil hbuf hbuf

theorem within_finish (hop : f.operation = some operation)
    (h : Within os f) (hf : finish operation = some operation') :
    Within os { f with operation := some operation' } := by
  have hbuf : f.bufferedRead = [] := h.busy (by rw [hop]; exact fun h => nomatch h)
  have hle := h.le
  unfold unread at hle
  rw [hop] at hle
  rcases operation with ⟨cap, _ | r | r⟩ | ⟨u, bs, _ | r | r⟩ | ⟨pos, _ | r | r⟩ <;>
    simp only [finish, some.injEq, reduceCtorEq] at hf <;> subst hf
  · refine ⟨fun _ => hbuf, ?_⟩
    rcases r with e | bytes <;> exact hle
  · exact within_nil hbuf hbuf
  · exact within_nil hbuf hbuf

theorem within_step (h : Within s.os s.file) (hs : step s op = some (s', es)) :
    Within s'.os s'.file := by
  have hle := h.le
  cases step_moved hs with
  | begin => exact h
  | @turn c => exact within_call h c
  | refused => exact h
  | startSeek | setMaxBufSize => exact ⟨h.busy, hle⟩
  | execute hop he => exact within_execute hop h he
  | finish hop hf => exact within_finish hop h hf
  | readOwned _ hr =>
    obtain ⟨-, -, -, rfl, -⟩ := read_some hr
    refine ⟨h.busy, ?_⟩
    simp only
    omega
  | readToEndOwned =>
    refine ⟨h.busy, ?_⟩
    simp only [SeqFile.readToEnd]
    omega
  | writeAllOwned =>
    refine ⟨h.busy, ?_⟩
    simp only [SeqFile.writeAll]
    split_ifs
    · exact hle
    · simp only
      omega

theorem within_run {C : List Ev → Sys → Op → Prop} (h : Run step C (fromStd os₀) tr s) :
    Within s.os s.file :=
  h.inv (within_nil rfl rfl)
    fun _ _ _ _ _ hI _ hs => within_step hI hs

/-! ## A seek that fails -/

/-- **The file as the caller sees it**, when no operation is under way. -/
def logical (s : Sys) : SeqFile := s.os.back s.file.bufferedRead.length

/-- Only a seek is polled, and the operations of the system go on. -/
def Polling (_ : List Ev) (s : Sys) : Op → Prop
  | .begin c => c = .complete
  | .turn => s.call = some .complete
  | .execute _ | .finish => True
  | _ => False

instance (tr : List Ev) (s : Sys) (op : Op) : Decidable (Polling tr s op) := by
  unfold Polling
  split <;> infer_instance

theorem polling_step (hC : Polling tr s op) (hs : step s op = some (s', es)) :
    (s'.os = s.os ∧ s'.file = s.file ∧ es = []) ∨
      (s'.os = s.os ∧ s'.file = s.file.pollComplete.file ∧ es = s.file.pollComplete.events) ∨
      (∃ o operation operation', s.file.operation = some operation ∧
        execute s.os o operation = some (s'.os, operation') ∧
        s'.file = { s.file with operation := some operation' } ∧ es = []) ∨
      ∃ operation operation', s.file.operation = some operation ∧
        finish operation = some operation' ∧ s'.os = s.os ∧
        s'.file = { s.file with operation := some operation' } ∧ es = [] := by
  rcases op with c | _ | pos | n | o | _ | ⟨len, k⟩ | _ | data
  · obtain ⟨-, ⟨⟩⟩ := ite_none_right_eq_some.mp hs
    exact .inl ⟨rfl, rfl, rfl⟩
  · simp only [Polling] at hC
    simp only [step, hC, map_some, some.injEq, Prod.mk.injEq] at hs
    obtain ⟨rfl, rfl⟩ := hs
    exact .inr (.inl ⟨rfl, rfl, rfl⟩)
  · exact hC.elim
  · exact hC.elim
  · simp only [step, bind_eq_some_iff, map_eq_some_iff, Prod.mk.injEq] at hs
    obtain ⟨operation, hop, ⟨os, operation'⟩, he, rfl, rfl⟩ := hs
    exact .inr (.inr (.inl ⟨o, operation, operation', hop, he, rfl, rfl⟩))
  · simp only [step, bind_eq_some_iff, map_eq_some_iff, Prod.mk.injEq] at hs
    obtain ⟨operation, hop, operation', hf, rfl, rfl⟩ := hs
    exact .inr (.inr (.inr ⟨operation, operation', hop, hf, rfl, rfl, rfl⟩))
  · exact hC.elim
  · exact hC.elim
  · exact hC.elim

theorem pollComplete_idle (hop : f.operation = none) : f.pollComplete =
    match compensate (f.pendingSeek.getD (.current 0)) f.bufferedRead.length with
    | none =>
      .returns { f with pendingSeek := none } [.failed (.invalidInput "seek offset overflow")]
    | some p =>
      .again { f with pendingSeek := none, bufferedRead := [], operation := some (.seek p .queued) }
        [.seeking (f.pendingSeek.getD (.current 0))] := by
  rcases hp : compensate (f.pendingSeek.getD (.current 0)) f.bufferedRead.length with _ | p <;>
    simp [File.pollComplete, File.turn, File.pollOperation, hop, hp]

/-- What `poll_complete` comes to, with the handle of a seek. -/
def seekTurn (f : File) : Handle ℕ → Turn
  | .finished (.ok q) => .returns { f with operation := none } [.sought q]
  | .finished (.error e) => .returns { f with operation := none } [.failed e]
  | _ => .returns f [.pending]

theorem pollComplete_seeking {p : SeekFrom} {h : Handle ℕ}
    (hop : f.operation = some (.seek p h)) : f.pollComplete = seekTurn f h := by
  simp only [File.pollComplete, File.turn, File.pollOperation, hop]
  rcases h with _ | r | (e | q) <;> rfl

theorem executeSeek_cases (os : SeqFile) (p : SeekFrom) (o : Outcome) :
    (∃ os', os.seek p = some os' ∧ executeSeek os p o = (os', .ok os'.offset)) ∨
      executeSeek os p o = (os, .error .os) := by
  unfold executeSeek
  rcases os.seek p with _ | os'
  · exact .inr rfl
  · rcases o with k | k
    · exact .inl ⟨os', rfl, rfl⟩
    · exact .inr rfl

/-- The file `f` when its request was taken. -/
def taken (f : File) : File := { f with pendingSeek := none, bufferedRead := [] }

/-- **Where a seek is** that is polled from the state `s` on and has not returned: it is not
started, or it has not moved the offset, or it has succeeded. -/
inductive Sought (s s₁ : Sys) : Prop
  | idle (hos : s₁.os = s.os) (hf : s₁.file = s.file)
  | still (p : SeekFrom) (h : Handle ℕ) (hos : s₁.os = s.os)
      (hf : s₁.file = { taken s.file with operation := some (.seek p h) })
      (hh : h = .queued ∨ h = .ran (.error .os) ∨ h = .finished (.error .os))
  | moved (p : SeekFrom) (h : Handle ℕ) (q : ℕ) (hf : s₁.file.operation = some (.seek p h))
      (hh : h = .ran (.ok q) ∨ h = .finished (.ok q))

/-- **Where a seek is that has failed**: what was buffered is dropped. -/
def Failed (s s₁ : Sys) : Prop := s₁.os = s.os ∧ s₁.file = taken s.file

/-- Only `Pending` and seeks started. -/
def Quiet (es : List Ev) : Prop := ∀ x ∈ es, x = .pending ∨ ∃ p, x = .seeking p

/-- **A turn of `poll_complete`** goes on with the seek, or returns what has become of it. -/
theorem Sought.turn (hop : s.file.operation = none) (h : Sought s s₁)
    (hos : s₂.os = s₁.os) (hf : s₂.file = s₁.file.pollComplete.file) :
    (Quiet s₁.file.pollComplete.events → Sought s s₂) ∧
      (.failed .os ∈ s₁.file.pollComplete.events →
        s₁.file.pollComplete.events = [.failed .os] ∧ Failed s s₂) := by
  cases h with
  | idle hos₁ hf₁ =>
    rw [hf₁, pollComplete_idle hop] at hf ⊢
    generalize compensate (s.file.pendingSeek.getD (.current 0)) s.file.bufferedRead.length = o
      at hf ⊢
    rcases o with _ | p
    · -- the offset would overflow
      refine ⟨fun hquiet => ?_, fun hmem => ?_⟩
      · simpa using hquiet _ (mem_singleton_self _)
      · simp [Turn.returns] at hmem
    · refine ⟨fun _ => .still p .queued (hos.trans hos₁) hf (.inl rfl), fun hmem => ?_⟩
      simp [Turn.again] at hmem
  | still p h hos₁ hf₁ hh =>
    have hop₁ : s₁.file.operation = some (.seek p h) := by rw [hf₁]
    rw [pollComplete_seeking hop₁] at hf ⊢
    rcases hh with rfl | rfl | rfl
    · refine ⟨fun _ => .still p _ (hos.trans hos₁) (hf.trans hf₁) (.inl rfl), fun hmem => ?_⟩
      simp [seekTurn, Turn.returns] at hmem
    · refine ⟨fun _ => .still p _ (hos.trans hos₁) (hf.trans hf₁) (.inr (.inl rfl)),
        fun hmem => ?_⟩
      simp [seekTurn, Turn.returns] at hmem
    · -- the error is returned
      refine ⟨fun hquiet => ?_, fun _ => ⟨rfl, hos.trans hos₁, ?_⟩⟩
      · simpa using hquiet _ (mem_singleton_self _)
      · rw [hf, hf₁]
        simp only [seekTurn, Turn.returns, taken, hop]
  | moved p h q hf₁ hh =>
    rw [pollComplete_seeking hf₁] at hf ⊢
    rcases hh with rfl | rfl
    · refine ⟨fun _ => .moved p _ q (by rw [hf]; exact hf₁) (.inl rfl), fun hmem => ?_⟩
      simp [seekTurn, Turn.returns] at hmem
    · refine ⟨fun hquiet => ?_, fun hmem => ?_⟩
      · simpa using hquiet _ (mem_singleton_self _)
      · simp [seekTurn, Turn.returns] at hmem

theorem Sought.executes {o : Outcome}
    (hop : s.file.operation = none) (h : Sought s s₁) (hop₁ : s₁.file.operation = some operation)
    (he : execute s₁.os o operation = some (s₂.os, operation'))
    (hf : s₂.file = { s₁.file with operation := some operation' }) : Sought s s₂ := by
  cases h with
  | idle hos₁ hf₁ =>
    rw [hf₁, hop] at hop₁
    cases hop₁
  | still p h hos₁ hf₁ hh =>
    rw [hf₁] at hop₁
    cases hop₁
    rcases hh with rfl | rfl | rfl
    · simp only [execute, some.injEq, Prod.mk.injEq] at he
      obtain ⟨hos, rfl⟩ := he
      rcases executeSeek_cases s₁.os p o with ⟨os, -, hseek⟩ | hseek
      · exact .moved p _ os.offset (by rw [hf, hseek]) (.inl rfl)
      · rw [hseek] at hos hf
        rw [hf₁] at hf
        exact .still p _ (hos.symm.trans hos₁) hf (.inr (.inl rfl))
    · cases he
    · cases he
  | moved p h q hf₁ hh =>
    rw [hf₁] at hop₁
    cases hop₁
    rcases hh with rfl | rfl <;> cases he

theorem Sought.finishes (hop : s.file.operation = none)
    (h : Sought s s₁) (hop₁ : s₁.file.operation = some operation)
    (hfin : finish operation = some operation') (hos : s₂.os = s₁.os)
    (hf : s₂.file = { s₁.file with operation := some operation' }) : Sought s s₂ := by
  cases h with
  | idle hos₁ hf₁ =>
    rw [hf₁, hop] at hop₁
    cases hop₁
  | still p h hos₁ hf₁ hh =>
    rw [hf₁] at hop₁
    cases hop₁
    rw [hf₁] at hf
    rcases hh with rfl | rfl | rfl
    · cases hfin
    · cases hfin
      exact .still p _ (hos.trans hos₁) hf (.inr (.inr rfl))
    · cases hfin
  | moved p h q hf₁ hh =>
    rw [hf₁] at hop₁
    cases hop₁
    rcases hh with rfl | rfl
    · cases hfin
      exact .moved p _ q (by rw [hf]) (.inr rfl)
    · cases hfin

theorem sought_step (hop : s.file.operation = none) (h : Sought s s₁)
    (hC : Polling tr s₁ op) (hs : step s₁ op = some (s₂, es)) :
    (Quiet es → Sought s s₂) ∧ (.failed .os ∈ es → es = [.failed .os] ∧ Failed s s₂) := by
  rcases polling_step hC hs with ⟨hos, hf, rfl⟩ | ⟨hos, hf, rfl⟩ |
    ⟨o, operation, operation', hop', he, hf, rfl⟩ |
    ⟨operation, operation', hop', hfin, hos, hf, rfl⟩
  · refine ⟨fun _ => ?_, nofun⟩
    cases h with
    | idle hos₁ hf₁ => exact .idle (hos.trans hos₁) (hf.trans hf₁)
    | still p h hos₁ hf₁ hh => exact .still p h (hos.trans hos₁) (hf.trans hf₁) hh
    | moved p h q hf₁ hh => exact .moved p h q (by rw [hf]; exact hf₁) hh
  · exact h.turn hop hos hf
  · exact ⟨fun _ => h.executes hop hop' he hf, nofun⟩
  · exact ⟨fun _ => h.finishes hop hop' hfin hos hf, nofun⟩

theorem failed_step (hop : s.file.operation = none) (h : Failed s s₁)
    (hC : Polling tr s₁ op) (hs : step s₁ op = some (s₂, [])) : Failed s s₂ := by
  have hop₁ : s₁.file.operation = none := by
    rw [h.2]
    exact hop
  rcases polling_step hC hs with ⟨hos, hf, -⟩ | ⟨hos, hf, hes⟩ |
    ⟨o, operation, operation', hop', -⟩ | ⟨operation, operation', hop', -⟩
  · exact ⟨hos.trans h.1, hf.trans h.2⟩
  · rw [pollComplete_idle hop₁] at hes
    generalize compensate _ _ = o at hes
    rcases o with _ | p <;> cases hes
  · rw [hop₁] at hop'
    cases hop'
  · rw [hop₁] at hop'
    cases hop'

/-- **A seek of the system that fails** leaves the file of the system as it was, but what was
buffered is gone. -/
theorem failed_run {l : List Ev} (hop : s.file.operation = none) (h : Run step Polling s es s')
    (hes : es = l ++ [.failed .os]) (hl : Quiet l) : Failed s s' := by
  have hinv : (Quiet es → Sought s s') ∧ ∀ l, es = l ++ [.failed .os] → Quiet l → Failed s s' := by
    refine h.inv (I := fun es s' => (Quiet es → Sought s s') ∧
      ∀ l, es = l ++ [.failed .os] → Quiet l → Failed s s') ?_ ?_
    · exact ⟨fun _ => .idle rfl rfl, fun l hl => by simp at hl⟩
    · rintro es₁ s₁ op s₂ es₂ ⟨hsought, hfailed⟩ hC hs
      refine ⟨fun hquiet => ?_, fun l hl hquiet => ?_⟩
      · have hsought₁ := hsought fun x hx => hquiet x (mem_append_left _ hx)
        exact (sought_step hop hsought₁ hC hs).1 fun x hx => hquiet x (mem_append_right _ hx)
      · rcases eq_nil_or_concat es₂ with rfl | ⟨es₃, x, rfl⟩
        · rw [append_nil] at hl
          exact failed_step hop (hfailed l hl hquiet) hC hs
        · -- the step returns the error, and nothing has returned before
          rw [concat_eq_append, ← append_assoc] at hl
          obtain ⟨rfl, hx⟩ := append_inj' hl rfl
          obtain rfl : x = .failed .os := singleton_inj.mp hx
          have hsought₁ := hsought fun y hy => hquiet y (mem_append_left _ hy)
          exact ((sought_step hop hsought₁ hC hs).2 (by simp)).2
  exact hinv.2 l hes hl

end OhosFfrt.Fs.Seeks
