import OhosFfrt.Lib.Traces
import OhosFfrt.Fs.Moves

/-!
# `fs::File` refines a plain file

The operating system's offset runs ahead of the one that the callers of a `File` see, by the bytes
that are buffered or that an operation has read, and it lags behind while a write or a seek is
queued.  `Sim` relates the plain file on which the accepted calls run in order (`replay`) to that of
the operating system, for each state of the operation under way; `file_refines` follows.
-/

namespace OhosFfrt.Fs.Refinement

open Lib.Files Lib.Runs Fs.State Fs.System List Option
open Fs.Moves

variable {a os os' os₀ : SeqFile} {q n : ℕ} {f : File} {s s' : Sys} {op : Op} {es tr : List Ev}
  {operation operation' : FileOperation} {ret : CompletedOperation → Option Ev}

/-! ## The plain file -/

/-- What a call does to the plain file; the number is where the last seek went.  `none` if the call
should not have returned this. -/
def follow (a : SeqFile × ℕ) : Ev → Option (SeqFile × ℕ)
  | .read n bytes | .readOwned n bytes =>
    (a.1.read n bytes.length).bind fun r => if r.1 = bytes then some (r.2, a.2) else none
  | .readToEndOwned bytes =>
    if a.1.readToEnd.1 = bytes then some (a.1.readToEnd.2, a.2) else none
  | .wrote bytes | .wroteOwned bytes => some (a.1.writeAll bytes, a.2)
  | .seeking position => some (((a.1.seek position).map fun g => (g, g.offset)).getD a)
  | .sought p => if p = a.2 then some a else none
  | .flushed | .pending | .failed _ => some a

/-- **The calls of a trace, in order, on a plain file.** -/
def replay (a : SeqFile × ℕ) (tr : List Ev) : Option (SeqFile × ℕ) := tr.foldlM follow a

theorem replay_singleton (a : SeqFile × ℕ) (x : Ev) : replay a [x] = follow a x :=
  foldlM_singleton follow a x

/-! ## The condition on the steps -/

/-- The bytes a task has read. -/
def got : Handle (List Byte) → List Byte
  | .ran (.ok bytes) | .finished (.ok bytes) => bytes
  | _ => []

/-- The bytes that were read ahead: those that are buffered and those of a read operation. -/
def unread (f : File) : List Byte :=
  match f.operation with
  | some (.read _ handle) => f.bufferedRead ++ got handle
  | _ => f.bufferedRead

/-- The operation has not failed. -/
def succeeded : FileOperation → Bool
  | .read _ (.ran (.error _)) | .write _ _ (.ran (.error _)) | .seek _ (.ran (.error _)) => false
  | _ => true

/-- No operation of the system fails in the step, and an owned operation finds nothing that was read
ahead. -/
def fine (s : Sys) : Op → Bool
  | .execute o => (s.file.operation.bind (execute s.os o)).all fun r => succeeded r.2
  | .readOwned _ _ | .readToEndOwned | .writeAllOwned _ => unread s.file = []
  | _ => true

/-- **The condition on a step.** -/
def NoErrors (_ : List Ev) (s : Sys) (op : Op) : Prop := fine s op = true

instance (tr : List Ev) (s : Sys) (op : Op) : Decidable (NoErrors tr s op) :=
  inferInstanceAs (Decidable (_ = true))

/-! ## The simulation -/

/-- **The plain file and that of the system**, while an operation is under way. -/
def Sound (a : SeqFile) (q : ℕ) (os : SeqFile) : FileOperation → Prop
  | .read capacity .queued => a = os ∧ 0 < capacity
  | .read _ (.ran r) | .read _ (.finished r) =>
    ∃ bytes, r = .ok bytes ∧ Behind os bytes ∧ a = os.back bytes.length ∧
      (bytes = [] → os.rest = [])
  | .write unread bytes .queued => unread ≤ os.offset ∧ a = (os.back unread).writeAll bytes
  | .write _ _ (.ran r) | .write _ _ (.finished r) => a = os ∧ ∃ n, r = .ok n
  | .seek position .queued =>
    a.contents = os.contents ∧ ∀ g, os.seek position = some g → a = g ∧ q = g.offset
  | .seek _ (.ran r) | .seek _ (.finished r) => a = os ∧ r = .ok q

/-- **The plain file and the `File` with that of the system.** -/
structure Sim (a : SeqFile) (q : ℕ) (os : SeqFile) (f : File) : Prop where
  size : 0 < f.maxBufSize
  idle : f.operation = none → Behind os f.bufferedRead ∧ a = os.back f.bufferedRead.length
  busy : ∀ operation, f.operation = some operation →
    f.bufferedRead = [] ∧ Sound a q os operation

/-- The events replay, and the file still matches. -/
def Follows (a : SeqFile) (q : ℕ) (os : SeqFile) (t : Turn) : Prop :=
  ∃ a' q', replay (a, q) t.events = some (a', q') ∧ Sim a' q' os t.file

theorem follows_one {a' : SeqFile} {q' : ℕ} {x : Ev} {returned : Bool}
    (hx : follow (a, q) x = some (a', q')) (h : Sim a' q' os f) :
    Follows a q os ⟨f, [x], returned⟩ :=
  ⟨a', q', (replay_singleton _ _).trans hx, h⟩

/-- What a completed operation says of the plain file. -/
structure Completed (a : SeqFile) (q : ℕ) (c : CompletedOperation) : Prop where
  eof : c = .read (.ok []) → a.rest = []
  sought : ∀ p, c = .seek (.ok p) → p = q

theorem finish_sim {f' : File} {c : CompletedOperation} (h : Sim a q os f)
    (hp : f.pollOperation = some (some c, f')) :
    ∃ f'', f'.finishOperation c = .ok f'' ∧ Sim a q os f'' ∧ Completed a q c := by
  unfold File.pollOperation at hp
  rcases hop : f.operation with _ | operation
  · rw [hop] at hp
    cases hp
  · rw [hop] at hp
    obtain ⟨c', hpoll, ⟨⟩⟩ := map_eq_some_iff.mp hp
    obtain ⟨hbuf, hsound⟩ := h.busy operation hop
    rcases operation with ⟨cap, _ | r | r⟩ | ⟨u, bs, _ | r | r⟩ | ⟨pos, _ | r | r⟩ <;>
      simp only [FileOperation.poll, some.injEq, reduceCtorEq] at hpoll <;> subst hpoll
    · obtain ⟨bytes, rfl, hbehind, rfl, heof⟩ := hsound
      refine ⟨_, rfl, ⟨h.size, fun _ => ?_, nofun⟩, fun hc => ?_,
        nofun⟩
      · rw [hbuf, nil_append]
        exact ⟨hbehind, rfl⟩
      · cases hc
        exact heof rfl
    · obtain ⟨rfl, n, rfl⟩ := hsound
      refine ⟨_, rfl, ⟨h.size, fun _ => ?_, nofun⟩, nofun,
        nofun⟩
      rw [hbuf]
      exact ⟨behind_nil _, rfl⟩
    · obtain ⟨rfl, rfl⟩ := hsound
      refine ⟨_, rfl, ⟨h.size, fun _ => ?_, nofun⟩, nofun,
        fun p hc => ?_⟩
      · rw [hbuf]
        exact ⟨behind_nil _, rfl⟩
      · cases hc
        rfl

/-- **A turn of a loop**: what it does when there is no operation, and what it returns once one is
finished. -/
theorem follows_turn {idle : Turn} (h : Sim a q os f)
    (hidle : f.operation = none → Follows a q os idle)
    (hret : ∀ c x, ret c = some x → Completed a q c → follow (a, q) x = some (a, q)) :
    Follows a q os (f.turn idle ret) := by
  unfold File.turn
  rcases hp : f.pollOperation with _ | ⟨_ | c, f'⟩
  · exact ⟨a, q, rfl, h⟩
  · refine hidle ?_
    unfold File.pollOperation at hp
    rcases hop : f.operation with _ | operation
    · rfl
    · rw [hop] at hp
      simp [map_eq_some_iff] at hp
  · obtain ⟨f'', hfin, hsim, hc⟩ := finish_sim h hp
    simp only [hfin]
    rcases hr : ret c with _ | x
    · exact ⟨a, q, rfl, hsim⟩
    · exact follows_one (hret c x hr hc) hsim

/-! ## The calls -/

theorem follow_read_nil (h : n = 0 ∨ a.rest = []) :
    follow (a, q) (.read n []) = some (a, q) := by
  have hread : a.read n 0 = some ([], a) := by
    unfold SeqFile.read
    rw [if_pos ⟨Nat.zero_le _, Nat.zero_le _, fun _ => h⟩]
    rfl
  simp only [follow, length_nil, hread, bind_some, if_true]

theorem follows_pollRead (h : Sim a q os f) (n : ℕ) : Follows a q os (f.pollRead n) := by
  unfold File.pollRead
  by_cases hn : n = 0
  · rw [if_pos hn]
    exact follows_one (follow_read_nil (.inl rfl)) h
  · rw [if_neg hn]
    by_cases hbuf : f.bufferedRead = []
    · rw [if_neg (not_not.mpr hbuf)]
      refine follows_turn h (fun hop => ⟨a, q, rfl, h.size, fun hno => ?_, ?_⟩) ?_
      · cases hno
      · rintro operation ⟨⟩
        have ha := (h.idle hop).2
        rw [hbuf] at ha
        have hsize := h.size
        exact ⟨hbuf, ha, by omega⟩
      · intro c x hx hc
        unfold eof at hx
        split at hx <;> simp only [some.injEq, reduceCtorEq] at hx
        subst hx
        exact follow_read_nil (.inr (hc.eof rfl))
    · rw [if_pos hbuf]
      -- the buffered bytes are behind the system's offset
      have hop : f.operation = none := by
        rcases hop : f.operation with _ | operation
        · rfl
        · exact absurd (h.busy operation hop).1 hbuf
      obtain ⟨hbehind, rfl⟩ := h.idle hop
      have hpos := length_pos_iff.mpr hbuf
      obtain ⟨hread, hrest⟩ := hbehind.read (k := min n f.bufferedRead.length) n (by omega)
        (by omega) (by omega)
      have hfollow : follow (os.back f.bufferedRead.length, q)
          (.read n (f.bufferedRead.take (min n f.bufferedRead.length))) =
          some (os.back (f.bufferedRead.drop (min n f.bufferedRead.length)).length, q) := by
        simp only [follow, length_take, Nat.min_assoc, Nat.min_self, hread, bind_some,
          if_true]
      refine follows_one hfollow ⟨h.size, fun _ => ⟨hrest, rfl⟩, fun operation ho => ?_⟩
      rw [hop] at ho
      cases ho

theorem follows_pollWrite (h : Sim a q os f) (buf : List Byte) :
    Follows a q os (f.pollWrite buf) := by
  unfold File.pollWrite
  refine follows_turn h (fun hop => ?_) fun c x hx _ => (nomatch hx)
  obtain ⟨hbehind, ha⟩ := h.idle hop
  by_cases hbuf : buf = []
  · rw [if_pos hbuf]
    exact follows_one rfl h
  · rw [if_neg hbuf]
    refine follows_one rfl ⟨h.size, nofun, ?_⟩
    rintro operation ⟨⟩
    exact ⟨rfl, hbehind.1, by rw [ha]⟩

theorem follows_pollFlush (h : Sim a q os f) : Follows a q os f.pollFlush :=
  follows_turn h (fun _ => follows_one rfl h)
    fun _ _ hx _ => (nomatch hx)

theorem compensate_seek {position p : SeekFrom} (hn : n ≤ os.offset)
    (hp : compensate position n = some p) : os.seek p = (os.back n).seek position := by
  refine seek_back hn p (fun d hd => ?_) fun hother => ?_
  · subst hd
    simp only [compensate, checkedSub, map_eq_some_iff] at hp
    obtain ⟨d', hd', rfl⟩ := hp
    split_ifs at hd'
    rw [some.injEq] at hd'
    rw [hd']
  · rcases position with m | d | d
    · exact (some.inj hp).symm
    · exact (some.inj hp).symm
    · exact absurd rfl (hother d)

theorem follows_pollComplete (h : Sim a q os f) : Follows a q os f.pollComplete := by
  unfold File.pollComplete
  refine follows_turn h (fun hop => ?_) fun c x hx hc => ?_
  · obtain ⟨hbehind, ha⟩ := h.idle hop
    rcases hp : compensate (f.pendingSeek.getD (.current 0)) f.bufferedRead.length with _ | p
    · exact follows_one rfl ⟨h.size, h.idle, h.busy⟩
    · have hseek := compensate_seek hbehind.1 hp
      rw [← ha] at hseek
      refine follows_one rfl ⟨h.size, nofun, ?_⟩
      rintro operation ⟨⟩
      refine ⟨rfl, ?_, ?_⟩
      · rcases hs : a.seek (f.pendingSeek.getD (.current 0)) with _ | g
        · rw [ha]
          rfl
        · unfold SeqFile.seek at hs
          split_ifs at hs
          cases hs
          rw [ha]
          rfl
      · intro g hg
        rw [hseek] at hg
        rw [hg]
        exact ⟨rfl, rfl⟩
  · unfold soughtBy at hx
    split at hx <;> simp only [some.injEq, reduceCtorEq] at hx
    subst hx
    simp only [follow, hc.sought _ rfl, if_true]

theorem follows_call (h : Sim a q os f) (c : Call) : Follows a q os (c.turn f) := by
  rcases c with n | buf | _ | _
  · exact follows_pollRead h n
  · exact follows_pollWrite h buf
  · exact follows_pollFlush h
  · exact follows_pollComplete h

/-! ## The operations of the system -/

theorem step_back (hn : n ≤ os.offset) :
    (if n ≠ 0 then os.seek (.current (-n)) else some os) = some (os.back n) := by
  by_cases h0 : n = 0
  · subst h0
    rfl
  · have htarget : os.target (.current (-n)) = (os.offset - n : ℕ) := by
      simp only [SeqFile.target]
      omega
    rw [if_pos h0]
    unfold SeqFile.seek
    rw [htarget, if_pos (by omega), Int.toNat_natCast]
    rfl

theorem execute_sound {o : Outcome} (h : Sound a q os operation)
    (he : execute os o operation = some (os', operation')) (hok : succeeded operation' = true) :
    Sound a q os' operation' := by
  rcases operation with ⟨cap, _ | r | r⟩ | ⟨u, bs, _ | r | r⟩ | ⟨pos, _ | r | r⟩ <;>
    simp only [execute, map_eq_some_iff, some.injEq, Prod.mk.injEq,
      reduceCtorEq] at he
  · obtain ⟨rfl, hcap⟩ := h
    obtain ⟨⟨os1, r⟩, hr, rfl, rfl⟩ := he
    rcases o with k | k
    · obtain ⟨⟨bytes, os2⟩, hread, ⟨⟩⟩ := map_eq_some_iff.mp hr
      obtain ⟨hbehind, hback⟩ := behind_read hread
      obtain ⟨-, hlen, -, rfl, hzero⟩ := read_some hread
      refine ⟨bytes, rfl, hbehind, hback.symm, fun hnil => ?_⟩
      rw [hnil, length_nil] at hlen
      subst hlen
      exact (hzero rfl).resolve_left (by omega)
    · cases hr
      cases hok
  · obtain ⟨hu, rfl⟩ := h
    obtain ⟨rfl, rfl⟩ := he
    unfold executeWrite at hok ⊢
    rw [step_back hu] at hok ⊢
    rcases o with k | k
    · exact ⟨rfl, _, rfl⟩
    · cases hok
  · obtain ⟨-, hseek⟩ := h
    obtain ⟨rfl, rfl⟩ := he
    unfold executeSeek at hok ⊢
    rcases hs : os.seek pos with _ | g
    · rw [hs] at hok
      cases hok
    · rw [hs] at hok
      rcases o with k | k
      · obtain ⟨rfl, rfl⟩ := hseek g hs
        exact ⟨rfl, rfl⟩
      · cases hok

theorem finish_sound (h : Sound a q os operation)
    (hf : finish operation = some operation') : Sound a q os operation' := by
  rcases operation with ⟨cap, _ | r | r⟩ | ⟨u, bs, _ | r | r⟩ | ⟨pos, _ | r | r⟩ <;>
    simp only [finish, some.injEq, reduceCtorEq] at hf <;> subst hf <;> exact h

theorem Sim.advance (h : Sim a q os f) (hop : f.operation = some operation)
    (hsound : Sound a q os operation → Sound a q os' operation') :
    Sim a q os' { f with operation := some operation' } := by
  obtain ⟨hbuf, hs⟩ := h.busy operation hop
  refine ⟨h.size, nofun, ?_⟩
  rintro _ ⟨⟩
  exact ⟨hbuf, hsound hs⟩

/-! ## Owned operations -/

theorem waited_cases (hw : f.waited = true) (hop : f.operation = some operation) :
    (∃ capacity r, operation = .read capacity (.finished r)) ∨
    (∃ u bytes r, operation = .write u bytes (.finished r)) ∨
      ∃ position r, operation = .seek position (.finished r) := by
  unfold File.waited at hw
  rw [hop] at hw
  rcases operation with ⟨cap, _ | _ | r⟩ | ⟨u, bs, _ | _ | r⟩ | ⟨pos, _ | _ | r⟩ <;> try cases hw
  · exact .inl ⟨cap, r, rfl⟩
  · exact .inr (.inl ⟨u, bs, r, rfl⟩)
  · exact .inr (.inr ⟨pos, r, rfl⟩)

/-- **What was read ahead** is what the system's offset is ahead by, once the operation is over. -/
theorem Sim.ahead (h : Sim a q os f) (hw : f.waited = true) :
    Behind os (unread f) ∧ a = os.back (unread f).length := by
  unfold unread
  rcases hop : f.operation with _ | operation
  · exact h.idle hop
  · obtain ⟨hbuf, hs⟩ := h.busy operation hop
    rcases waited_cases hw hop with ⟨cap, r, rfl⟩ | ⟨u, bs, r, rfl⟩ | ⟨pos, r, rfl⟩
    · obtain ⟨bytes, rfl, hbehind, ha, -⟩ := hs
      simp only [hbuf, got, nil_append]
      exact ⟨hbehind, ha⟩
    · simp only [hbuf]
      exact ⟨behind_nil _, hs.1⟩
    · simp only [hbuf]
      exact ⟨behind_nil _, hs.1⟩

theorem Sim.owned (h : Sim a q os f) (hw : f.waited = true) (hu : unread f = [])
    (hrest : os.rest = [] → os'.rest = []) : a = os ∧ Sim os' q os' f := by
  obtain ⟨-, ha⟩ := h.ahead hw
  rw [hu] at ha
  have hbuf : f.bufferedRead = [] := by
    unfold unread at hu
    split at hu
    · exact (append_eq_nil_iff.mp hu).1
    · exact hu
  refine ⟨ha, h.size, fun _ => ?_, fun operation hop => ⟨hbuf, ?_⟩⟩
  · rw [hbuf]
    exact ⟨behind_nil _, rfl⟩
  · obtain ⟨-, hs⟩ := h.busy operation hop
    unfold unread at hu
    rw [hop] at hu
    rcases waited_cases hw hop with ⟨cap, r, rfl⟩ | ⟨u, bs, r, rfl⟩ | ⟨pos, r, rfl⟩
    · obtain ⟨bytes, rfl, -, -, heof⟩ := hs
      simp only [hbuf, got, nil_append] at hu
      subst hu
      exact ⟨[], rfl, behind_nil _, rfl, fun _ => hrest (heof rfl)⟩
    · exact ⟨rfl, hs.2⟩
    · exact ⟨rfl, hs.2⟩

/-! ## Steps and runs -/

theorem sim_step (h : Sim a q s.os s.file) (hC : NoErrors tr s op)
    (hs : step s op = some (s', es)) :
    ∃ a' q', replay (a, q) es = some (a', q') ∧ Sim a' q' s'.os s'.file := by
  have hfurther : ∀ k, s.os.rest = [] →
      ({ s.os with offset := s.os.offset + k } : SeqFile).rest = [] := fun k hrest =>
    drop_eq_nil_iff.mpr
      (Nat.le_trans (drop_eq_nil_iff.mp hrest) (Nat.le_add_right _ _))
  cases step_moved hs with
  | begin => exact ⟨a, q, rfl, h⟩
  | turn => exact follows_call h _
  | refused => exact ⟨a, q, replay_singleton _ _, h⟩
  | startSeek => exact ⟨a, q, rfl, h.size, h.idle, h.busy⟩
  | @setMaxBufSize n =>
    refine ⟨a, q, rfl, ?_, h.idle, h.busy⟩
    show 0 < max n 1
    omega
  | execute hop he =>
    simp only [NoErrors, fine, hop, bind_some, he, all_some] at hC
    exact ⟨a, q, rfl, h.advance hop fun hsound => execute_sound hsound he hC⟩
  | finish hop hf => exact ⟨a, q, rfl, h.advance hop fun hsound => finish_sound hsound hf⟩
  | @readOwned len k bytes os hw hr =>
    simp only [NoErrors, fine, decide_eq_true_eq] at hC
    obtain ⟨-, hlen, -, hos, -⟩ := read_some hr
    have hrest : s.os.rest = [] → os.rest = [] := by
      rw [hos]
      exact hfurther k
    obtain ⟨rfl, hsim⟩ := h.owned hw hC hrest
    refine ⟨os, q, ?_, hsim⟩
    rw [replay_singleton]
    simp only [follow, hlen, hr, bind_some, if_true]
  | readToEndOwned hw =>
    simp only [NoErrors, fine, decide_eq_true_eq] at hC
    obtain ⟨rfl, hsim⟩ := h.owned hw hC (hfurther s.os.rest.length)
    refine ⟨_, q, ?_, hsim⟩
    rw [replay_singleton]
    simp only [follow, SeqFile.readToEnd, if_true]
  | @writeAllOwned data hw =>
    simp only [NoErrors, fine, decide_eq_true_eq] at hC
    obtain ⟨rfl, hsim⟩ := h.owned hw hC fun hrest => rest_writeAll hrest data
    exact ⟨_, q, replay_singleton _ _, hsim⟩

/-- **The simulation**, along a run. -/
theorem sim_run {s₀ : Sys} (h0 : Sim a q s₀.os s₀.file) (h : Run step NoErrors s₀ tr s) :
    ∃ a' q', replay (a, q) tr = some (a', q') ∧ Sim a' q' s.os s.file := by
  obtain ⟨⟨a', q'⟩, hreplay, hsim⟩ :=
    h.simulate (R := fun b s => Sim b.1 b.2 s.os s.file) (a := (a, q)) h0
      fun tr b s op s' es hsim hC hs => by
        obtain ⟨a₁, q₁, hes, hsim'⟩ := sim_step hsim hC hs
        exact ⟨(a₁, q₁), hes, hsim'⟩
  exact ⟨a', q', hreplay, hsim⟩

theorem sim_fromStd (os : SeqFile) : Sim os 0 os File.fromInner :=
  ⟨by decide, fun _ => ⟨behind_nil _, rfl⟩, nofun⟩

/-! ## Flushed files -/

/-- No write is queued. -/
def Settled (f : File) : Prop := ∀ u bytes, f.operation ≠ some (.write u bytes .queued)

theorem Sim.contents (h : Sim a q os f) (hf : Settled f) : os.contents = a.contents := by
  rcases hop : f.operation with _ | operation
  · rw [(h.idle hop).2]
    rfl
  · obtain ⟨-, hs⟩ := h.busy operation hop
    rcases operation with ⟨cap, _ | r | r⟩ | ⟨u, bs, _ | r | r⟩ | ⟨pos, _ | r | r⟩
    · rw [hs.1]
    · obtain ⟨bytes, -, -, rfl, -⟩ := hs
      rfl
    · obtain ⟨bytes, -, -, rfl, -⟩ := hs
      rfl
    · exact absurd hop (hf u bs)
    · rw [hs.1]
    · rw [hs.1]
    · exact hs.1.symm
    · rw [hs.1]
    · rw [hs.1]

theorem settled_of_none (h : f.operation = none) : Settled f := by
  intro u bytes hop
  rw [h] at hop
  cases hop

theorem settled_loop {idle : Turn} (hidle : f.operation = none → Settled idle.file)
    (hf : Settled f ∨ .flushed ∈ (f.turn idle ret).events) : Settled (f.turn idle ret).file := by
  rcases hop : f.operation with _ | operation
  · simp only [File.turn, File.pollOperation, hop]
    exact hidle hop
  · rcases hpoll : operation.poll with _ | c
    · simp only [File.turn, File.pollOperation, hop, hpoll, map_none] at hf ⊢
      exact hf.resolve_right (by simp [Turn.returns])
    · refine settled_of_none ?_
      simp only [File.turn, File.pollOperation, hop, hpoll, map_some]
      rcases hfin : ({ f with operation := none } : File).finishOperation c with e | f'
      · rfl
      · have hnone : f'.operation = none := by
          rcases c with (_ | _) | (_ | _) | (_ | _) <;> cases hfin <;> rfl
        rcases hret : ret c with _ | x
        · exact hnone
        · exact hnone

theorem settled_turn (c : Call) (hf : (Settled f ∧ ∀ bytes, .wrote bytes ∉ (c.turn f).events) ∨
    .flushed ∈ (c.turn f).events) : Settled (c.turn f).file := by
  have hf' := hf.imp_left And.left
  rcases c with n | buf | _ | _
  · simp only [Call.turn, File.pollRead] at hf' ⊢
    by_cases hn : n = 0
    · rw [if_pos hn] at hf' ⊢
      exact hf'.resolve_right (by simp [Turn.returns])
    · rw [if_neg hn] at hf' ⊢
      by_cases hbuf : f.bufferedRead = []
      · rw [if_neg (not_not.mpr hbuf)] at hf' ⊢
        exact settled_loop nofun hf'
      · rw [if_pos hbuf] at hf' ⊢
        exact hf'.resolve_right (by simp [Turn.returns])
  · refine settled_loop (fun hop => ?_) hf'
    -- without an operation the write is accepted
    have hwrote : (Call.turn f (.write buf)).events =
        [.wrote (buf.take (min buf.length f.maxBufSize))] := by
      simp only [Call.turn, File.pollWrite, File.turn, File.pollOperation, hop]
      by_cases hbuf : buf = []
      · rw [if_pos hbuf, hbuf]
        rfl
      · rw [if_neg hbuf]
        rfl
    rw [hwrote] at hf
    rcases hf with ⟨-, hno⟩ | hflushed
    · exact absurd (mem_singleton_self _) (hno _)
    · simp at hflushed
  · exact settled_loop (fun hop => settled_of_none hop) hf'
  · refine settled_loop (fun hop => ?_) hf'
    rcases compensate (f.pendingSeek.getD (.current 0)) f.bufferedRead.length with _ | p
    · exact settled_of_none hop
    · intro u bytes hop
      cases hop

theorem settled_step (hs : step s op = some (s', es))
    (hf : (Settled s.file ∧ ∀ bytes, .wrote bytes ∉ es) ∨ .flushed ∈ es) : Settled s'.file := by
  cases step_moved hs with
  | turn => exact settled_turn _ hf
  | @execute o operation operation' os hop he =>
    rintro u bytes ⟨⟩
    -- an operation that was executed is not queued
    rcases operation with ⟨cap, _ | r | r⟩ | ⟨u, bs, _ | r | r⟩ | ⟨pos, _ | r | r⟩ <;>
      simp [execute] at he
  | @finish operation operation' hop hfin =>
    rintro u bytes ⟨⟩
    rcases operation with ⟨cap, _ | r | r⟩ | ⟨u, bs, _ | r | r⟩ | ⟨pos, _ | r | r⟩ <;>
      simp [System.finish] at hfin
  | _ => exact (hf.resolve_right (by simp)).1

/-- **A `File` refines a plain file.**  In every run of its calls, in which a call may be abandoned
when it has returned `Pending` and the operations of the system are executed at any time but
without errors, reads return the bytes and seeks the positions that the accepted calls would, run
in order on a plain file with one offset; and when a flush was completed and no write accepted
since, the file of the system has the contents of the plain file. -/
theorem file_refines (h : Run step NoErrors (fromStd os₀) tr s) :
    ∃ a q, replay (os₀, 0) tr = some (a, q) ∧
      (Since (· = .flushed) (fun y => ∃ bytes, y = .wrote bytes) tr →
        s.os.contents = a.contents) := by
  obtain ⟨a, q, hreplay, hsim⟩ := sim_run (sim_fromStd os₀) h
  refine ⟨a, q, hreplay, fun hsince => hsim.contents ?_⟩
  refine h.since (K := fun s => Settled s.file) ?_ ?_ hsince
  · rintro tr s op s' es x - hs hx rfl
    exact settled_step hs (.inr hx)
  · intro tr s op s' es _ hs hK hno
    exact settled_step hs (.inl ⟨hK, fun bytes hx => hno _ hx ⟨bytes, rfl⟩⟩)

/-- A read is abandoned when it has read four bytes; then two of them are read, a write goes over
the third, and a flush brings it to the file. -/
theorem file_refines_abandoned : ∃ s tr,
    execIf step NoErrors [] (fromStd ⟨[1, 2, 3, 4, 5], 0⟩) [.begin (.read 4), .turn, .turn,
      .execute (.ok 4), .finish, .begin (.read 2), .turn, .turn, .begin (.write [9]), .turn,
      .execute (.ok 0), .finish, .begin .flush, .turn, .turn] = some (s, tr) ∧
    tr = [.pending, .read 2 [1, 2], .wrote [9], .flushed] ∧
    ∃ a q, replay (⟨[1, 2, 3, 4, 5], 0⟩, 0) tr = some (a, q) ∧ s.os.contents = a.contents ∧
      a = ⟨[1, 2, 9, 4, 5], 3⟩ := by
  have hall : ∀ s, Run step NoErrors (fromStd ⟨[1, 2, 3, 4, 5], 0⟩)
      [.pending, .read 2 [1, 2], .wrote [9], .flushed] s → ∃ a q,
      replay (⟨[1, 2, 3, 4, 5], 0⟩, 0) [.pending, .read 2 [1, 2], .wrote [9], .flushed] =
        some (a, q) ∧ s.os.contents = a.contents ∧ a = ⟨[1, 2, 9, 4, 5], 3⟩ := by
    intro s h
    obtain ⟨a, q, hreplay, hflushed⟩ := file_refines h
    have ha : replay (⟨[1, 2, 3, 4, 5], 0⟩, 0) [.pending, .read 2 [1, 2], .wrote [9], .flushed] =
      some (⟨[1, 2, 9, 4, 5], 3⟩, 0) := rfl
    refine ⟨a, q, hreplay, hflushed ?_, ?_⟩
    · exact ⟨[.pending, .read 2 [1, 2], .wrote [9]], .flushed, [], rfl, rfl, by simp⟩
    · exact (Prod.mk.inj (some.inj (hreplay.symm.trans ha))).1
  exact ⟨_, _, rfl, rfl, hall _ (run_execIf [.begin (.read 4), .turn, .turn, .execute (.ok 4),
    .finish, .begin (.read 2), .turn, .turn, .begin (.write [9]), .turn, .execute (.ok 0), .finish,
    .begin .flush, .turn, .turn] .nil rfl)⟩

end OhosFfrt.Fs.Refinement
