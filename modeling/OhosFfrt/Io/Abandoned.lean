import OhosFfrt.Io.Standard
import OhosFfrt.Lib.Runs

/-!
# Standard streams: abandoned operations

A call reports the result of the operation that it finds as its own, and refuses one of the other
kind; a read panics on one that has read more than the call has room for.  Otherwise nothing is lost
(`standard_streams`).
-/

namespace OhosFfrt.Io.Standard

open Lib.Files Lib.Runs Fs.State List Option

/-! ## Writers -/

section Writers

variable {s s' : Writer} {op : Op} {es tr : List Ev} {stderr : Bool}
  {operation operation' : StandardWriteOperation}

/-- **The operation suits the call** that goes on with it: it is of its kind, and a write that is
finished has written bytes that the call's slice begins with. -/
def Suits : Call → StandardWriteOperation → Prop
  | .write bytes, .write _ copy (.finished (.ok n)) => n ≤ bytes.length ∧ bytes.take n = copy.take n
  | .write _, .write _ _ _ | .flush, .flush _ _ => True
  | .write _, .flush _ _ | .flush, .write _ _ _ => False

/-- **The condition on a step**: a call goes on with an operation that suits it. -/
def Careful (_ : List Ev) (s : Writer) : Op → Prop
  | .poll => ∀ c ∈ s.call, ∀ operation ∈ s.operation, Suits c operation
  | _ => True

instance (c : Call) (operation : StandardWriteOperation) : Decidable (Suits c operation) := by
  unfold Suits
  split <;> infer_instance

instance (tr : List Ev) (s : Writer) (op : Op) : Decidable (Careful tr s op) := by
  unfold Careful
  split <;> infer_instance

/-- What reached the two streams. -/
def outputs (tr : List Ev) : List (Bool × List Byte) :=
  tr.filterMap fun | .output stderr bytes => some (stderr, bytes) | _ => none

/-- **What the calls have reported**: of a slice, so many bytes. -/
def reports (stderr : Bool) (tr : List Ev) : List (Bool × List Byte) :=
  tr.filterMap fun | .wrote buf n => some (stderr, buf.take n) | _ => none

/-- What the operation has put out. -/
def held : StandardWriteOperation → List (Bool × List Byte)
  | .write stderr bytes (.ran (.ok n)) | .write stderr bytes (.finished (.ok n)) =>
    [(stderr, bytes.take n)]
  | _ => []

/-- Whether it is for `Stderr`. -/
def StandardWriteOperation.target : StandardWriteOperation → Bool
  | .write stderr _ _ | .flush stderr _ => stderr

/-- The error it ended with. -/
def StandardWriteOperation.error : StandardWriteOperation → Option IoError
  | .write _ _ (.ran (.error e)) | .write _ _ (.finished (.error e)) => some e
  | .flush _ (.ran (.error e)) | .flush _ (.finished (.error e)) => some e
  | _ => none

theorem outputs_append (tr es : List Ev) : outputs (tr ++ es) = outputs tr ++ outputs es :=
  filterMap_append

theorem reports_append (stderr : Bool) (tr es : List Ev) :
    reports stderr (tr ++ es) = reports stderr tr ++ reports stderr es := filterMap_append

/-- **What is known of an operation under way.** -/
structure Known (stderr : Bool) (operation : StandardWriteOperation) : Prop where
  target : operation.target = stderr
  error : ∀ e, operation.error = some e → e = .os

/-- **What a call reports**: the operation is as it was, or it is over, and the report is of what it
has written. -/
theorem poll_spec {c : Call} (hsuits : Suits c operation) (hk : Known stderr operation) :
    ((c.poll operation) = (some operation, .pending)) ∨
      ((c.poll operation).1 = none ∧ outputs [(c.poll operation).2] = [] ∧
        reports stderr [(c.poll operation).2] = held operation ∧
        (∀ buf n, (c.poll operation).2 = .wrote buf n → n ≤ buf.length) ∧
        ∀ e, (c.poll operation).2 = .failed e → e = .os) := by
  obtain ⟨rfl, herror⟩ := hk
  rcases c with bytes | _ <;> rcases operation with ⟨b, copy, handle⟩ | ⟨b, handle⟩
  · rcases handle with _ | r | (e | n)
    · exact .inl rfl
    · exact .inl rfl
    · refine .inr ⟨rfl, rfl, rfl, nofun, fun e' h => ?_⟩
      cases h
      exact herror e rfl
    · obtain ⟨hle, htake⟩ := hsuits
      refine .inr ⟨rfl, rfl, ?_, fun buf m h => ?_, nofun⟩
      · exact congrArg (fun l => [(b, l)]) htake
      · cases h
        exact hle
  · exact hsuits.elim
  · exact hsuits.elim
  · rcases handle with _ | r | (e | n)
    · exact .inl rfl
    · exact .inl rfl
    · refine .inr ⟨rfl, rfl, rfl, nofun, fun e' h => ?_⟩
      cases h
      exact herror e rfl
    · exact .inr ⟨rfl, rfl, rfl, nofun, nofun⟩

/-- **The state after a trace.** -/
structure Kept (stderr : Bool) (tr : List Ev) (s : Writer) : Prop where
  stream : s.stderr = stderr
  known : ∀ operation, s.operation = some operation → Known stderr operation
  log : outputs tr = reports stderr tr ++ (s.operation.map held).getD []
  amount : ∀ buf n, .wrote buf n ∈ tr → n ≤ buf.length
  error : ∀ e, .failed e ∈ tr → e = .os

theorem kept_new (stderr : Bool) : Kept stderr [] (.new stderr) :=
  ⟨rfl, nofun, rfl, nofun, nofun⟩

theorem Kept.runs (h : Kept stderr tr s) (hop : s.operation = some operation)
    (htarget : operation'.target = operation.target)
    (herror : ∀ e, operation'.error = some e → e = .os ∨ operation.error = some e)
    (hes : reports stderr es = []) (hheld : held operation ++ outputs es = held operation')
    (hcalls : (∀ buf n, .wrote buf n ∉ es) ∧ ∀ e, .failed e ∉ es) :
    Kept stderr (tr ++ es) { s with operation := some operation' } := by
  have hknown := h.known operation hop
  refine ⟨h.stream, fun o ho => ?_, ?_, fun buf n hmem => ?_, fun e hmem => ?_⟩
  · cases ho
    refine ⟨htarget.trans hknown.target, fun e he => ?_⟩
    rcases herror e he with rfl | he
    · rfl
    · exact hknown.error e he
  · have hlog := h.log
    rw [hop] at hlog
    rw [outputs_append, reports_append, hlog, hes, append_nil, append_assoc]
    exact congrArg _ hheld
  · exact h.amount buf n ((mem_append.mp hmem).resolve_right (hcalls.1 buf n))
  · exact h.error e ((mem_append.mp hmem).resolve_right (hcalls.2 e))

theorem Kept.executes {amount : ℕ} (h : Kept stderr tr s) (hop : s.operation = some operation)
    (he : execute amount operation = some (operation', es)) :
    Kept stderr (tr ++ es) { s with operation := some operation' } := by
  rcases operation with ⟨b, bytes, _ | r | r⟩ | ⟨b, _ | r | r⟩
  · obtain ⟨-, ⟨⟩⟩ := ite_none_right_eq_some.mp he
    exact h.runs hop rfl nofun rfl rfl (by simp)
  · cases he
  · cases he
  · cases he
    exact h.runs hop rfl nofun rfl rfl (by simp)
  · cases he
  · cases he

theorem Kept.fails (h : Kept stderr tr s) (hop : s.operation = some operation)
    (he : fail operation = some operation') :
    Kept stderr (tr ++ []) { s with operation := some operation' } := by
  have hos : ∀ e, (some .os : Option IoError) = some e → e = .os ∨ operation.error = some e :=
    fun e he => .inl (some.inj he).symm
  rcases operation with ⟨b, bytes, _ | r | r⟩ | ⟨b, _ | r | r⟩
  · cases he
    exact h.runs hop rfl hos rfl rfl (by simp)
  · cases he
  · cases he
  · cases he
    exact h.runs hop rfl hos rfl rfl (by simp)
  · cases he
  · cases he

theorem Kept.finishes (h : Kept stderr tr s) (hop : s.operation = some operation)
    (he : finish operation = some operation') :
    Kept stderr (tr ++ []) { s with operation := some operation' } := by
  rcases operation with ⟨b, bytes, _ | (e | n) | r⟩ | ⟨b, _ | (e | n) | r⟩
  all_goals
    cases he
    try exact h.runs hop rfl (fun _ h => .inr h) rfl rfl (by simp)

theorem kept_step (h : Kept stderr tr s) (hC : Careful tr s op)
    (hs : step s op = some (s', es)) : Kept stderr (tr ++ es) s' := by
  cases op with
  | begin c =>
    obtain ⟨-, ⟨⟩⟩ := ite_none_right_eq_some.mp hs
    rw [append_nil]
    rcases hop : s.operation with _ | operation
    · have hlog := h.log
      rw [hop] at hlog
      rcases c with bytes | _
      all_goals
        refine ⟨h.stream, fun o ho => ?_, hlog, h.amount, h.error⟩
        cases ho
        exact ⟨h.stream, nofun⟩
    · -- the operation of an earlier call is found
      have hstart : c.start (some operation) s.stderr = operation := by cases c <;> rfl
      rw [hstart]
      refine ⟨h.stream, fun o ho => ?_, ?_, h.amount, h.error⟩
      · cases ho
        exact h.known operation hop
      · rw [← hop]
        exact h.log
  | poll =>
    simp only [step, bind_eq_some_iff, map_eq_some_iff, Prod.mk.injEq] at hs
    obtain ⟨c, hc, operation, hop, rfl, rfl⟩ := hs
    have hlog := h.log
    rw [hop] at hlog
    rcases poll_spec (hC c hc operation hop) (h.known operation hop) with
      heq | ⟨hnone, hout, hrep, hamount, herror⟩
    · rw [heq]
      refine ⟨h.stream, fun o ho => ?_, ?_, fun buf n hmem => ?_, fun e hmem => ?_⟩
      · cases ho
        exact h.known operation hop
      · rw [outputs_append, reports_append, hlog]
        simp [outputs, reports]
      · exact h.amount buf n (by simpa using hmem)
      · exact h.error e (by simpa using hmem)
    · rw [hnone]
      refine ⟨h.stream, nofun, ?_, fun buf n hmem => ?_, fun e hmem => ?_⟩
      · rw [outputs_append, reports_append, hlog, hout, hrep]
        rfl
      · rcases mem_append.mp hmem with hmem | hmem
        · exact h.amount buf n hmem
        · exact hamount buf n (mem_singleton.mp hmem).symm
      · rcases mem_append.mp hmem with hmem | hmem
        · exact h.error e hmem
        · exact herror e (mem_singleton.mp hmem).symm
  | execute =>
    simp only [step, bind_eq_some_iff, map_eq_some_iff, Prod.mk.injEq] at hs
    obtain ⟨operation, hop, ⟨operation', es'⟩, he, rfl, rfl⟩ := hs
    exact h.executes hop he
  | fail =>
    simp only [step, bind_eq_some_iff, map_eq_some_iff, Prod.mk.injEq] at hs
    obtain ⟨operation, hop, operation', he, rfl, rfl⟩ := hs
    exact h.fails hop he
  | finish =>
    simp only [step, bind_eq_some_iff, map_eq_some_iff, Prod.mk.injEq] at hs
    obtain ⟨operation, hop, operation', he, rfl, rfl⟩ := hs
    exact h.finishes hop he

theorem kept_run (h : Run step Careful (.new stderr) tr s) : Kept stderr tr s :=
  h.inv (kept_new stderr) fun _ _ _ _ _ hI hC hs => kept_step hI hC hs

end Writers

/-! ## Readers -/

section Readers

variable {s s' : Stdin} {op : ReadOp} {es tr : List ReadEv} {operation : ReadOperation} {n : ℕ}
  {input : List Byte}

/-- **The operation fits the call** that goes on with it: what it has read is not more than there is
room for. -/
def Fits (n : ℕ) (operation : ReadOperation) : Prop :=
  ∀ bytes, operation.handle = .finished (.ok bytes) → bytes.length ≤ n

/-- **The condition on a step**: a call goes on with an operation that fits it. -/
def ReadCareful (_ : List ReadEv) (s : Stdin) : ReadOp → Prop
  | .poll => ∀ n ∈ s.call, ∀ operation ∈ s.operation, Fits n operation
  | _ => True

instance (n : ℕ) : (operation : ReadOperation) → Decidable (Fits n operation)
  | ⟨_, .finished (.ok bytes)⟩ =>
    if h : bytes.length ≤ n then isTrue fun _ he => by cases he; exact h
    else isFalse fun hfits => h (hfits bytes rfl)
  | ⟨_, .finished (.error _)⟩ | ⟨_, .queued⟩ | ⟨_, .ran _⟩ => isTrue nofun

instance (tr : List ReadEv) (s : Stdin) (op : ReadOp) : Decidable (ReadCareful tr s op) := by
  unfold ReadCareful
  split <;> infer_instance

/-- The bytes taken from the input. -/
def consumed (tr : List ReadEv) : List Byte :=
  tr.flatMap fun | .consumed bytes => bytes | _ => []

/-- The bytes returned. -/
def received (tr : List ReadEv) : List Byte :=
  tr.flatMap fun | .read _ bytes => bytes | _ => []

/-- The bytes the task has read. -/
def ReadOperation.bytes (operation : ReadOperation) : List Byte :=
  match operation.handle with
  | .ran (.ok bytes) | .finished (.ok bytes) => bytes
  | _ => []

/-- The bytes read and not returned. -/
def Stdin.held (s : Stdin) : List Byte := (s.operation.map ReadOperation.bytes).getD []

theorem consumed_append (tr es : List ReadEv) : consumed (tr ++ es) = consumed tr ++ consumed es :=
  flatMap_append

theorem received_append (tr es : List ReadEv) : received (tr ++ es) = received tr ++ received es :=
  flatMap_append

theorem pollRead_spec (hfits : Fits n operation) :
    pollRead n operation = (some operation, .pending) ∨
      ((pollRead n operation).1 = none ∧ received [(pollRead n operation).2] = operation.bytes ∧
        ∀ m, (pollRead n operation).2 ≠ .panicked m) := by
  rcases operation with ⟨capacity, _ | r | (e | bytes)⟩
  · exact .inl rfl
  · exact .inl rfl
  · exact .inr ⟨rfl, rfl, nofun⟩
  · have hle : bytes.length ≤ n := hfits bytes rfl
    right
    simp only [pollRead, if_pos hle]
    refine ⟨trivial, ?_, nofun⟩
    exact append_nil bytes

theorem consumed_pollRead (n : ℕ) (operation : ReadOperation) :
    consumed [(pollRead n operation).2] = [] := by
  rcases operation with ⟨capacity, _ | r | (e | bytes)⟩
  · rfl
  · rfl
  · rfl
  · by_cases hle : bytes.length ≤ n <;> simp [pollRead, hle, consumed]

/-- **A step takes what it reads from the input**; a careful one delivers what it takes from the
operation, and does not panic. -/
theorem readStep_spec (hs : readStep s op = some (s', es)) :
    consumed es ++ s'.input = s.input ∧ ∀ tr, ReadCareful tr s op →
      received es ++ s'.held = s.held ++ consumed es ∧ ∀ m, .panicked m ∉ es := by
  cases op with
  | begin n =>
    simp only [readStep, ite_none_right_eq_some] at hs
    obtain ⟨-, hs⟩ := hs
    by_cases hn : n = 0
    · rw [if_pos hn] at hs
      cases hs
      exact ⟨rfl, fun _ _ => ⟨(append_nil _).symm, by simp⟩⟩
    · rw [if_neg hn] at hs
      cases hs
      refine ⟨rfl, fun _ _ => ⟨?_, by simp⟩⟩
      rcases hop : s.operation with _ | operation <;> simp [Stdin.held, hop, startRead, received,
        consumed, ReadOperation.bytes]
  | poll =>
    simp only [readStep, bind_eq_some_iff, map_eq_some_iff, Prod.mk.injEq] at hs
    obtain ⟨n, hn, operation, hop, rfl, rfl⟩ := hs
    rw [consumed_pollRead]
    refine ⟨rfl, fun tr hC => ?_⟩
    rcases pollRead_spec (hC n hn operation hop) with heq | ⟨hnone, hrec, hpanic⟩
    · rw [heq]
      simp [Stdin.held, hop, received]
    · refine ⟨?_, fun m hmem => hpanic m (mem_singleton.mp hmem).symm⟩
      rw [hrec]
      simp [Stdin.held, hop, hnone]
  | execute =>
    simp only [readStep, bind_eq_some_iff, map_eq_some_iff, Prod.mk.injEq] at hs
    obtain ⟨⟨capacity, handle⟩, hop, operation', he, rfl, rfl⟩ := hs
    refine ⟨by simp [consumed], fun _ _ => ⟨?_, by simp⟩⟩
    rcases handle with _ | r | r
    · simp only [executeRead, ite_none_right_eq_some, some.injEq] at he
      obtain ⟨-, rfl⟩ := he
      simp [Stdin.held, hop, received, consumed, ReadOperation.bytes]
    · cases he
    · cases he
  | fail =>
    simp only [readStep, bind_eq_some_iff, map_eq_some_iff, Prod.mk.injEq] at hs
    obtain ⟨⟨capacity, handle⟩, hop, operation', he, rfl, rfl⟩ := hs
    refine ⟨rfl, fun _ _ => ⟨?_, by simp⟩⟩
    rcases handle with _ | r | r
    · cases he
      simp [Stdin.held, hop, received, consumed, ReadOperation.bytes]
    · cases he
    · cases he
  | finish =>
    simp only [readStep, bind_eq_some_iff, map_eq_some_iff, Prod.mk.injEq] at hs
    obtain ⟨⟨capacity, handle⟩, hop, operation', he, rfl, rfl⟩ := hs
    refine ⟨rfl, fun _ _ => ⟨?_, by simp⟩⟩
    rcases handle with _ | (e | bytes) | r
    · cases he
    iterate 2
      · cases he
        simp [Stdin.held, hop, received, consumed, ReadOperation.bytes]
    · cases he

theorem input_run {C : List ReadEv → Stdin → ReadOp → Prop}
    (h : Run readStep C (stdin input) tr s) : consumed tr ++ s.input = input := by
  refine h.inv (I := fun tr s => consumed tr ++ s.input = input) rfl ?_
  intro tr s op s' es hI _ hs
  rw [consumed_append, append_assoc, (readStep_spec hs).1, hI]

/-- Nothing that was read is lost. -/
theorem read_run (h : Run readStep ReadCareful (stdin input) tr s) :
    received tr ++ s.held = consumed tr ∧ ∀ m, .panicked m ∉ tr := by
  refine h.inv (I := fun tr s => received tr ++ s.held = consumed tr ∧ ∀ m, .panicked m ∉ tr)
    ⟨rfl, nofun⟩ ?_
  rintro tr s op s' es ⟨hlog, hno⟩ hC hs
  obtain ⟨hflow, hno'⟩ := (readStep_spec hs).2 tr hC
  refine ⟨?_, fun m hmem => ?_⟩
  · rw [received_append, consumed_append, append_assoc, hflow, ← append_assoc, hlog]
  · rcases mem_append.mp hmem with hmem | hmem
    · exact hno m hmem
    · exact hno' m hmem

end Readers

/-- **Standard streams survive abandoned operations that suit the next call.**

* On `Stdout` and `Stderr`, if every call goes on with an operation that suits it: what was written
  to the stream is, report by report, the first `n` bytes of the slice of a call that was ready with
  `n`, and last what the operation under way has written; no such `n` is larger than the slice, and
  no call fails but with an error of the standard library.
* On `Stdin`, if every call goes on with an operation that fits it: no call panics, and what was
  delivered and what the operation under way has read is what was read from standard input, which
  is its first bytes. -/
theorem standard_streams (stderr : Bool) (input : List Byte) :
    (∀ (tr : List Ev) (s : Writer), Run step Careful (.new stderr) tr s →
      outputs tr = reports stderr tr ++ (s.operation.map held).getD [] ∧
      (∀ buf n, .wrote buf n ∈ tr → n ≤ buf.length) ∧ ∀ e, .failed e ∈ tr → e = .os) ∧
    ∀ (tr : List ReadEv) (s : Stdin), Run readStep ReadCareful (stdin input) tr s →
      (∀ m, .panicked m ∉ tr) ∧ received tr ++ s.held = consumed tr ∧
        consumed tr ++ s.input = input := by
  refine ⟨fun tr s h => ?_, fun tr s h => ?_⟩
  · have hkept := kept_run h
    exact ⟨hkept.log, hkept.amount, hkept.error⟩
  · obtain ⟨hlog, hno⟩ := read_run h
    exact ⟨hno, hlog, input_run h⟩

/-- A write that is abandoned and made again with a longer slice, and a read that is abandoned and
made again with more room. -/
theorem standard_streams_again :
    (∃ s tr, Run step Careful (.new false) tr s ∧
      tr = [.pending, .output false [1, 2], .wrote [1, 2, 3] 2] ∧
      outputs tr = reports false tr) ∧
    ∃ s tr, Run readStep ReadCareful (stdin [1, 2, 3]) tr s ∧
      tr = [.pending, .consumed [1, 2], .read 8 [1, 2]] ∧ received tr = consumed tr := by
  refine ⟨?_, ?_⟩
  · obtain ⟨s, hrun, hop⟩ : ∃ s, Run step Careful (.new false)
        [.pending, .output false [1, 2], .wrote [1, 2, 3] 2] s ∧ s.operation = none :=
      ⟨_, run_execIf [.begin (.write [1, 2]), .poll, .execute 2, .finish,
        .begin (.write [1, 2, 3]), .poll] .nil rfl, rfl⟩
    have hlog := ((standard_streams false []).1 _ s hrun).1
    rw [hop] at hlog
    exact ⟨s, _, hrun, rfl, hlog⟩
  · obtain ⟨s, hrun, hheld⟩ : ∃ s, Run readStep ReadCareful (stdin [1, 2, 3])
        [.pending, .consumed [1, 2], .read 8 [1, 2]] s ∧ s.held = [] :=
      ⟨_, run_execIf [.begin 2, .poll, .execute 2, .finish, .begin 8, .poll] .nil rfl, rfl⟩
    have hlog := ((standard_streams false [1, 2, 3]).2 _ s hrun).2.1
    rw [hheld] at hlog
    exact ⟨s, _, hrun, rfl, hlog⟩

/-- **Abandoned operations are not survived.**  A write of three bytes is abandoned, and the next
call, with a slice of one byte, is ready with three; a write is abandoned, and a flush fails because
of it; a read of four bytes is abandoned, and the next call, with room for one, panics, and the
bytes are lost. -/
theorem standard_streams_confused :
    (∃ s, Run step Any (.new false) [.pending, .output false [1, 2, 3], .wrote [9] 3] s) ∧
    (∃ s, Run step Any (.new false)
      [.pending, .failed (.other "standard stream write is already in progress")] s) ∧
    ∃ s, Run readStep Any (stdin [1, 2, 3, 4])
        [.pending, .consumed [1, 2, 3, 4], .panicked "source does not fit in ReadBuf"] s ∧
      s.held = [] := by
  refine ⟨⟨_, run_exec [.begin (.write [1, 2, 3]), .poll, .execute 3, .finish,
    .begin (.write [9]), .poll] rfl⟩, ⟨_, run_exec [.begin (.write [1]), .poll,
    .begin .flush, .poll] rfl⟩, ?_⟩
  exact ⟨_, run_exec [.begin 4, .poll, .execute 4, .finish, .begin 1, .poll] rfl, rfl⟩

end OhosFfrt.Io.Standard
