import OhosFfrt.Io.Lossless

/-!
# Futures of seeks on a `BufWriter`

A `Seek` future borrows the writer until it is over or dropped.  Its first poll leaves the request
in `seek`, and the poll that has flushed the buffer takes it from there and hands it to the inner
writer (`inv_run`).
-/

namespace OhosFfrt.Io.WriterSeeks

open Basic Lib.Files Lib.Runs Io.Traits Io.BufWriter List Option

/-- A writer, and the `Seek` future that borrows it, next to the position that it was made for. -/
structure Sys (W : Type*) where
  writer : BufWriter W
  future : Option (SeekFrom × Seek)

inductive Op
  | call (op : BufWriter.Op)
  | seek (position : SeekFrom)
  | poll (cx : Waker)
  | drop
  deriving DecidableEq, Repr

inductive Ev
  | called (ev : BufWriter.Ev)
  | rejected (error : Error)
  | pending
  | failed (error : Error)
  | sought (asked : SeekFrom) (p : ℕ)
  deriving DecidableEq, Repr

variable {W : Type*} [AsyncWrite W] [AsyncSeek W]

/-- What a poll of a future comes to. -/
def answer (asked : SeekFrom) (future : Seek) (writer : BufWriter W) (r : Poll (Result ℕ)) : Ev :=
  match future.position.map fun position => (startSeek writer position).1, r with
  | some (.error e), _ => .rejected e
  | _, .pending => .pending
  | _, .ready (.ok p) => .sought asked p
  | _, .ready (.error e) => .failed e

def step (s : Sys W) : Op → Option (Sys W × List Ev)
  | .call op =>
    if s.future.isNone then
      (BufWriter.step s.writer op).map fun r => ({ s with writer := r.1 }, r.2.map .called)
    else none
  | .seek position =>
    if s.future.isNone then
      some ({ s with future := some (position, { position := some position }) }, [])
    else none
  | .poll cx =>
    s.future.map fun (asked, future) =>
      let (r, future', writer') := future.poll s.writer cx
      (⟨writer', if r = .pending then some (asked, future') else none⟩,
        [answer asked future s.writer r])
  | .drop => if s.future.isSome then some ({ s with future := none }, []) else none

/-- The inner writer fails, or takes nothing, when it is offered bytes, again those that it has not
taken, until it has taken all or is pending. -/
def refuses (cx : Waker) : ℕ → W → List Byte → Bool
  | 0, _, _ => false
  | fuel + 1, writer, bytes =>
    if bytes = [] then false
    else
      match Traits.pollWrite writer cx bytes with
      | (.pending, _) => false
      | (.ready (.error _), _) | (.ready (.ok 0), _) => true
      | (.ready (.ok amount), writer') => refuses cx fuel writer' (bytes.drop amount)

/-- **The condition on a step**: no future is dropped while its request is in the writer, and none
is polled when the inner writer refuses what is buffered. -/
def Careful (_ : List Ev) (s : Sys W) : Op → Prop
  | .drop => s.writer.seek = none
  | .poll cx => refuses cx s.writer.buffer.length s.writer.inner s.writer.buffer = false
  | _ => True

instance (tr : List Ev) (s : Sys W) (op : Op) : Decidable (Careful tr s op) := by
  unfold Careful
  split <;> infer_instance

/-! ## What keeps the request -/

section
variable {w w' w₁ : BufWriter W} {cx : Waker} {r : Poll (Result ℕ)}

omit [AsyncSeek W]

theorem pollFlushBuf_seek (w : BufWriter W) (cx : Waker) (seek : Option SeekFrom) :
    pollFlushBuf { w with seek := seek } cx =
      ((w.pollFlushBuf cx).1, { (w.pollFlushBuf cx).2 with seek := seek }) := by
  refine pollFlushBuf_rule (P := fun w r => pollFlushBuf { w with seek := seek } cx =
    (r.1, { r.2 with seek := seek })) cx ?_ ?_ ?_ ?_ ?_ w
  · intro w hle
    rw [pollFlushBuf_eq, if_neg (Nat.not_lt.mpr hle)]
  · intro w inner hlt hwrite
    rw [pollFlushBuf_eq, if_pos hlt]
    simp only [buffer] at hwrite ⊢
    simp only [hwrite]
  · intro w inner e hlt hwrite
    rw [pollFlushBuf_eq, if_pos hlt]
    simp only [buffer] at hwrite ⊢
    simp only [hwrite]
  · intro w inner hlt hwrite
    rw [pollFlushBuf_eq, if_pos hlt]
    simp only [buffer] at hwrite ⊢
    simp only [hwrite]
  · intro w inner amount r hlt hwrite hrest
    rw [pollFlushBuf_eq, if_pos hlt]
    simp only [buffer] at hwrite ⊢
    simp only [hwrite]
    exact hrest

theorem seek_pollFlushBuf (w : BufWriter W) (cx : Waker) : (w.pollFlushBuf cx).2.seek = w.seek :=
  congrArg (fun r => r.2.seek) (pollFlushBuf_seek w cx w.seek)

theorem buf_pollFlushBuf (w : BufWriter W) (cx : Waker) :
    (w.pollFlushBuf cx).1 = .ready (.ok ()) → (w.pollFlushBuf cx).2.buf = [] := by
  refine pollFlushBuf_rule (P := fun _ r => r.1 = .ready (.ok ()) → r.2.buf = []) cx ?_ ?_ ?_ ?_ ?_
    w
  · exact fun _ _ _ => rfl
  · exact nofun
  · exact nofun
  · exact nofun
  · exact fun _ _ _ _ _ _ h => h

theorem refuses_of_failed (w : BufWriter W) (cx : Waker) :
    ∀ e, (w.pollFlushBuf cx).1 = .ready (.error e) → ∀ fuel, w.buffer.length ≤ fuel →
      refuses cx fuel w.inner w.buffer = true := by
  have hlen : ∀ w : BufWriter W, w.buffer.length = w.buf.length - w.written :=
    fun _ => length_drop
  -- there is a turn, and fuel for it
  have hmore : ∀ w : BufWriter W, w.written < w.buf.length → ∀ fuel, w.buffer.length ≤ fuel →
      ∃ fuel', fuel = fuel' + 1 := by
    intro w hlt fuel hfuel
    rw [hlen] at hfuel
    exact ⟨fuel - 1, by omega⟩
  have hne : ∀ w : BufWriter W, w.written < w.buf.length → w.buffer ≠ [] := by
    intro w hlt hnil
    have := hlen w
    rw [hnil, length_nil] at this
    omega
  refine pollFlushBuf_rule (P := fun w r => ∀ e, r.1 = .ready (.error e) → ∀ fuel,
    w.buffer.length ≤ fuel → refuses cx fuel w.inner w.buffer = true) cx ?_ ?_ ?_ ?_ ?_ w
  · exact nofun
  · exact nofun
  · intro w inner e hlt hwrite _ _ fuel hfuel
    obtain ⟨fuel, rfl⟩ := hmore w hlt fuel hfuel
    simp only [refuses, if_neg (hne w hlt), hwrite]
  · intro w inner hlt hwrite _ _ fuel hfuel
    obtain ⟨fuel, rfl⟩ := hmore w hlt fuel hfuel
    simp only [refuses, if_neg (hne w hlt), hwrite]
  · intro w inner amount r hlt hwrite hrest e he fuel hfuel
    obtain ⟨fuel, rfl⟩ := hmore w hlt fuel hfuel
    simp only [refuses, if_neg (hne w hlt), hwrite]
    have hdrop : w.buffer.drop (amount + 1) = w.buf.drop (w.written + (amount + 1)) := by
      unfold buffer
      rw [drop_drop]
    rw [hdrop]
    refine hrest e he fuel ?_
    rw [hlen] at hfuel
    simp only [buffer, length_drop]
    omega

theorem seek_ready {full : Prop} [Decidable full]
    {next : Unit → BufWriter W → Option (Poll (Result ℕ) × BufWriter W)}
    (hnext : ∀ w₁ r w', next () w₁ = some (r, w') → w'.seek = w₁.seek)
    (h : ready (if full then w.pollFlushBuf cx else (.ready (.ok ()), w)) some next =
      some (r, w')) : w'.seek = w.seek := by
  have hflush := seek_pollFlushBuf w cx
  split_ifs at h
  · generalize w.pollFlushBuf cx = q at hflush h
    rcases q with ⟨_ | (e | _), w₁⟩
    · cases h
      exact hflush
    · cases h
      exact hflush
    · exact (hnext _ _ _ h).trans hflush
  · exact hnext _ _ _ h

theorem seek_pollWrite {input : List Byte}
    (h : w.pollWrite cx input = some (r, w')) : w'.seek = w.seek := by
  unfold BufWriter.pollWrite at h
  rw [bind_eq_some_iff] at h
  obtain ⟨full, -, h⟩ := h
  refine seek_ready (fun w₁ r w' hnext => ?_) h
  split_ifs at hnext
  · cases hnext
    rfl
  · rw [map_eq_some_iff] at hnext
    obtain ⟨room, -, hnext⟩ := hnext
    cases hnext
    rfl

omit [AsyncWrite W] in
theorem seek_extendWhile (bufs : List (List Byte)) : ∀ (w : BufWriter W) (written : ℕ)
    {r : Poll (Result ℕ)}, w.extendWhile written bufs = some (r, w') → w'.seek = w.seek := by
  induction bufs with
  | nil =>
    intro w written r h
    cases h
    rfl
  | cons buf bufs ih =>
    intro w written r h
    unfold extendWhile at h
    rw [bind_eq_some_iff] at h
    obtain ⟨room, -, h⟩ := h
    split_ifs at h
    · cases h
      rfl
    · have hrest := ih _ _ h
      exact hrest

theorem seek_pollWriteVectored {bufs : List (List Byte)}
    (h : w.pollWriteVectored cx bufs = some (r, w')) : w'.seek = w.seek := by
  unfold BufWriter.pollWriteVectored at h
  split at h
  · rw [bind_eq_some_iff] at h
    obtain ⟨room, -, h⟩ := h
    refine seek_ready (fun w₁ r w' hnext => ?_) h
    split_ifs at hnext
    · cases hnext
      rfl
    · cases hnext
      rfl
  · split at h
    · cases h
      rfl
    · rw [bind_eq_some_iff] at h
      obtain ⟨room, -, h⟩ := h
      refine seek_ready (fun w₁ r w' hnext => ?_) h
      split_ifs at hnext
      · cases hnext
        rfl
      · have hrest := seek_extendWhile _ _ _ hnext
        exact hrest

theorem seek_flush (f : W → Poll (Result Unit) × W) :
    (ready (w.pollFlushBuf cx) id fun _ w =>
      ((f w.inner).1, { w with inner := (f w.inner).2 })).2.seek = w.seek := by
  have hflush := seek_pollFlushBuf w cx
  generalize w.pollFlushBuf cx = q at hflush ⊢
  rcases q with ⟨_ | (e | _), w₁⟩ <;> exact hflush

theorem seek_step {op : BufWriter.Op} {es : List BufWriter.Ev}
    (h : BufWriter.step w op = some (w', es)) : w'.seek = w.seek := by
  rcases op with ⟨cx, input⟩ | ⟨cx, bufs⟩ | cx | cx
  · simp only [BufWriter.step, map_eq_some_iff, Prod.mk.injEq] at h
    obtain ⟨⟨r, w₁⟩, h, rfl, -⟩ := h
    exact seek_pollWrite h
  · simp only [BufWriter.step, map_eq_some_iff, Prod.mk.injEq] at h
    obtain ⟨⟨r, w₁⟩, h, rfl, -⟩ := h
    exact seek_pollWriteVectored h
  · simp only [BufWriter.step, some.injEq, Prod.mk.injEq] at h
    rw [← h.1]
    exact seek_flush fun inner => Traits.pollFlush inner cx
  · simp only [BufWriter.step, some.injEq, Prod.mk.injEq] at h
    rw [← h.1]
    exact seek_flush fun inner => Traits.pollShutdown inner cx

end

/-! ## Polls -/

section
variable {w w' : BufWriter W} {cx : Waker} {asked : SeekFrom} {x : Poll (Result ℕ)}

/-- **A poll while the request is in the writer**: the flush is pending, or fails because the inner
writer refuses, or the request is handed on, as a seek of the inner writer. -/
theorem pollComplete_parked (hw : w.seek = some asked) (h : pollComplete w cx = (x, w')) :
    (x = .pending ∧ w'.seek = some asked) ∨
      ((∃ e, x = .ready (.error e)) ∧ refuses cx w.buffer.length w.inner w.buffer = true) ∨
      (w'.seek = none ∧ w'.buf = [] ∧
        driveSeek (w.pollFlushBuf cx).2.inner asked [cx] = (x, w'.inner)) := by
  have hrefuses := refuses_of_failed w cx
  have hseek := seek_pollFlushBuf w cx
  have hbuf := buf_pollFlushBuf w cx
  simp only [pollComplete] at h
  generalize w.pollFlushBuf cx = q at hrefuses hseek hbuf h ⊢
  rcases q with ⟨_ | (e | _), w₁⟩
  · cases h
    exact .inl ⟨rfl, hseek.trans hw⟩
  · cases h
    exact .inr (.inl ⟨⟨e, rfl⟩, hrefuses e rfl _ (Nat.le_refl _)⟩)
  · refine .inr (.inr ?_)
    have hseek₁ : w₁.seek = some asked := hseek.trans hw
    have hbuf₁ : w₁.buf = [] := hbuf rfl
    simp only [ready, hseek₁] at h
    unfold driveSeek
    generalize startSeek w₁.inner asked = y at h ⊢
    rcases y with ⟨e | _, inner₁⟩
    · cases h
      exact ⟨rfl, hbuf₁, rfl⟩
    · cases h
      refine ⟨rfl, hbuf₁, ?_⟩
      simp only [driveComplete]
      rcases pollComplete inner₁ cx with ⟨_ | y, inner₂⟩ <;> rfl

theorem pollComplete_handed (hw : w.seek = none) (hbuf : w.buf = [])
    (h : pollComplete w cx = (x, w')) :
    w'.seek = none ∧ w'.buf = [] ∧ pollComplete w.inner cx = (x, w'.inner) := by
  have hflush : w.pollFlushBuf cx = (.ready (.ok ()), { w with buf := [], written := 0 }) := by
    rw [pollFlushBuf_eq, if_neg (by rw [hbuf]; exact Nat.not_lt_zero _)]
  simp only [pollComplete, hflush, ready, hw] at h
  cases h
  exact ⟨rfl, rfl, rfl⟩

end

/-! ## Runs -/

variable {s₀ s s' : Sys W} {tr es : List Ev} {asked : SeekFrom} {future : Seek}

/-- **The inner writer was asked for `asked`**, with the result `x` so far: by a poll of this future
in a state of the run, after its flush, and since then nothing but polls of it has happened. -/
def AskedFor (s₀ : Sys W) (tr : List Ev) (asked : SeekFrom) (x : Poll (Result ℕ)) (inner : W) :
    Prop :=
  ∃ l r s₁ cx cxs, Run step Careful s₀ l s₁ ∧ tr = l ++ r ∧ (∀ y ∈ r, y = .pending) ∧
    (∃ future, s₁.future = some (asked, future)) ∧
    driveSeek (s₁.writer.pollFlushBuf cx).2.inner asked (cx :: cxs) = (x, inner)

/-- **What holds in every state of a careful run.** -/
def Inv (s₀ : Sys W) (tr : List Ev) (s : Sys W) : Prop :=
  match s.future with
  | none => s.writer.seek = none
  | some (asked, ⟨some position⟩) => position = asked ∧ s.writer.seek = none
  | some (asked, ⟨none⟩) =>
    s.writer.seek = some asked ∨
      (s.writer.seek = none ∧ s.writer.buf = [] ∧ AskedFor s₀ tr asked .pending s.writer.inner)

/-- What is known after a poll of a future for `asked` with the result `x`. -/
structure Polled (s₀ : Sys W) (tr : List Ev) (asked : SeekFrom) (x : Poll (Result ℕ))
    (w : BufWriter W) : Prop where
  reached : ∀ p, x = .ready (.ok p) → w.buf = [] ∧ AskedFor s₀ tr asked x w.inner
  pending : x = .pending → w.seek = some asked ∨
    (w.seek = none ∧ w.buf = [] ∧ AskedFor s₀ tr asked x w.inner)

theorem polled_parked {w w' : BufWriter W} {cx : Waker} {x : Poll (Result ℕ)}
    (hrun : Run step Careful s₀ tr s) (hfuture : s.future = some (asked, future))
    (hsame : { s.writer with seek := some asked } = w) (hx : pollComplete w cx = (x, w')) :
    Polled s₀ tr asked x w' ∧ (Careful tr s (.poll cx) → x ≠ .pending → w'.seek = none) := by
  have hw : w.seek = some asked := by rw [← hsame]
  have hflush := pollFlushBuf_seek s.writer cx (some asked)
  rw [hsame] at hflush
  rcases pollComplete_parked hw hx with ⟨rfl, hseek⟩ | ⟨⟨e, rfl⟩, hrefuses⟩ | ⟨hseek, hbuf, hdrive⟩
  · exact ⟨⟨nofun, fun _ => .inl hseek⟩, fun _ h => absurd rfl h⟩
  · refine ⟨⟨nofun, nofun⟩, fun hC _ => ?_⟩
    rw [← hsame] at hrefuses
    exact absurd (hrefuses.symm.trans hC) (by decide)
  · rw [hflush] at hdrive
    have hasked : AskedFor s₀ tr asked x w'.inner :=
      ⟨tr, [], s, cx, [], hrun, (append_nil _).symm, nofun, ⟨_, hfuture⟩,
        hdrive⟩
    exact ⟨⟨fun p _ => ⟨hbuf, hasked⟩, fun _ => .inr ⟨hseek, hbuf, hasked⟩⟩, fun _ _ => hseek⟩

theorem polled_handed {w' : BufWriter W} {cx : Waker} {x : Poll (Result ℕ)}
    (hseek : s.writer.seek = none) (hbuf : s.writer.buf = [])
    (hasked : AskedFor s₀ tr asked .pending s.writer.inner)
    (hx : pollComplete s.writer cx = (x, w')) :
    Polled s₀ tr asked x w' ∧ w'.seek = none := by
  obtain ⟨hseek', hbuf', hinner⟩ := pollComplete_handed hseek hbuf hx
  obtain ⟨l, r, s₁, cx₁, cxs, hrun, htr, hr, hfuture, hdrive⟩ := hasked
  have hdrive' := driveSeek_snoc hdrive cx
  rw [hinner] at hdrive'
  have hasked' : AskedFor s₀ tr asked x w'.inner :=
    ⟨l, r, s₁, cx₁, cxs ++ [cx], hrun, htr, hr, hfuture, hdrive'⟩
  exact ⟨⟨fun _ _ => ⟨hbuf', hasked'⟩, fun _ => .inr ⟨hseek', hbuf', hasked'⟩⟩, hseek'⟩

/-- **What a poll does**: it is not refused, whatever happens in it. -/
theorem poll_polled {cx : Waker} (h : Inv s₀ tr s)
    (hrun : Run step Careful s₀ tr s) (hfuture : s.future = some (asked, future))
    {x : Poll (Result ℕ)} {future' : Seek} {w' : BufWriter W}
    (hpoll : future.poll s.writer cx = (x, future', w')) :
    Polled s₀ tr asked x w' ∧ (Careful tr s (.poll cx) → x ≠ .pending → w'.seek = none) ∧
      future' = ⟨none⟩ ∧
      ∀ position, future.position = some position → (startSeek s.writer position).1 = .ok () := by
  unfold Inv at h
  rw [hfuture] at h
  rcases future with ⟨_ | position⟩
  · have hx : pollComplete s.writer cx = (x, w') := by
      simp only [Seek.poll, Prod.mk.injEq] at hpoll
      exact Prod.ext hpoll.1 hpoll.2.2
    have hfuture' : future' = ⟨none⟩ := by
      simp only [Seek.poll, Prod.mk.injEq] at hpoll
      exact hpoll.2.1.symm
    rcases h with hseek | ⟨hseek, hbuf, hasked⟩
    · have hsame : { s.writer with seek := some asked } = s.writer := by rw [← hseek]
      obtain ⟨hpolled, hnone⟩ := polled_parked hrun hfuture hsame hx
      exact ⟨hpolled, hnone, hfuture', nofun⟩
    · obtain ⟨hpolled, hnone⟩ := polled_handed hseek hbuf hasked hx
      exact ⟨hpolled, fun _ _ => hnone, hfuture', nofun⟩
  · obtain ⟨rfl, hseek⟩ := h
    have hstart : startSeek s.writer position =
        (.ok (), { s.writer with seek := some position }) := by
      simp only [startSeek, hseek]
    simp only [Seek.poll, hstart, Prod.mk.injEq] at hpoll
    obtain ⟨hx, rfl, hw'⟩ := hpoll
    obtain ⟨hpolled, hnone⟩ := polled_parked hrun hfuture rfl (Prod.ext hx hw')
    refine ⟨hpolled, hnone, rfl, ?_⟩
    rintro _ ⟨⟩
    rw [hstart]

theorem AskedFor.pending {inner : W} (h : AskedFor s₀ tr asked .pending inner) :
    AskedFor s₀ (tr ++ [.pending]) asked .pending inner := by
  obtain ⟨l, r, s₁, cx, cxs, hrun, rfl, hr, hfuture, hdrive⟩ := h
  refine ⟨l, r ++ [.pending], s₁, cx, cxs, hrun, append_assoc _ _ _, ?_, hfuture, hdrive⟩
  intro y hy
  rcases mem_append.mp hy with hy | hy
  · exact hr y hy
  · exact mem_singleton.mp hy

theorem answer_eq {w : BufWriter W} (x : Poll (Result ℕ))
    (h : ∀ position, future.position = some position → (startSeek w position).1 = .ok ()) :
    answer asked future w x =
      match x with
      | .pending => .pending
      | .ready (.ok p) => .sought asked p
      | .ready (.error e) => .failed e := by
  unfold answer
  rcases hposition : future.position with _ | position
  · rcases x with _ | (e | p) <;> rfl
  · rw [map_some, h position hposition]
    rcases x with _ | (e | p) <;> rfl

theorem poll_spec {cx : Waker} (h : Inv s₀ tr s) (hrun : Run step Careful s₀ tr s)
    (hs : step s (.poll cx) = some (s', es)) :
    (∀ e, .rejected e ∉ es) ∧
      (∀ asked p, .sought asked p ∈ es →
        s'.writer.buf = [] ∧ AskedFor s₀ tr asked (.ready (.ok p)) s'.writer.inner) ∧
      (Careful tr s (.poll cx) → Inv s₀ (tr ++ es) s') := by
  simp only [step, map_eq_some_iff] at hs
  obtain ⟨⟨asked, future⟩, hfuture, hs⟩ := hs
  rcases hpoll : future.poll s.writer cx with ⟨x, future', w'⟩
  obtain ⟨hpolled, hnone, rfl, hstart⟩ := poll_polled h hrun hfuture hpoll
  simp only [hpoll, answer_eq x hstart] at hs
  cases hs
  rcases x with _ | (e | p)
  · refine ⟨by simp, by simp, fun _ => ?_⟩
    rw [if_pos rfl]
    rcases hpolled.pending rfl with hseek | ⟨hseek, hbuf, hasked⟩
    · exact .inl hseek
    · exact .inr ⟨hseek, hbuf, hasked.pending⟩
  · refine ⟨by simp, by simp, fun hC => ?_⟩
    rw [if_neg nofun]
    exact hnone hC nofun
  · refine ⟨by simp, ?_, fun hC => ?_⟩
    · intro asked' p' hmem
      simp only [mem_singleton, Ev.sought.injEq] at hmem
      obtain ⟨rfl, rfl⟩ := hmem
      exact hpolled.reached _ rfl
    · rw [if_neg nofun]
      exact hnone hC nofun

theorem inv_step {op : Op} (h : Inv s₀ tr s) (hrun : Run step Careful s₀ tr s)
    (hC : Careful tr s op) (hs : step s op = some (s', es)) : Inv s₀ (tr ++ es) s' := by
  rcases op with op | position | cx | _
  · simp only [step, ite_none_right_eq_some, map_eq_some_iff, Prod.mk.injEq,
      isNone_iff_eq_none] at hs
    obtain ⟨hnone, ⟨w', es'⟩, hw', rfl, rfl⟩ := hs
    unfold Inv at h ⊢
    rw [hnone] at h
    simp only [hnone]
    exact (seek_step hw').trans h
  · simp only [step, ite_none_right_eq_some, some.injEq, Prod.mk.injEq,
      isNone_iff_eq_none] at hs
    obtain ⟨hnone, rfl, rfl⟩ := hs
    unfold Inv at h
    rw [hnone] at h
    exact ⟨rfl, h⟩
  · exact (poll_spec h hrun hs).2.2 hC
  · obtain ⟨-, ⟨⟩⟩ := ite_none_right_eq_some.mp hs
    exact hC

theorem step_spec {op : Op} (h : Inv s₀ tr s) (hrun : Run step Careful s₀ tr s)
    (hs : step s op = some (s', es)) :
    (∀ e, .rejected e ∉ es) ∧ ∀ asked p, .sought asked p ∈ es →
      s'.writer.buf = [] ∧ AskedFor s₀ tr asked (.ready (.ok p)) s'.writer.inner := by
  rcases op with op | position | cx | _
  · simp only [step, ite_none_right_eq_some, map_eq_some_iff, Prod.mk.injEq] at hs
    obtain ⟨-, ⟨w', es'⟩, -, rfl, rfl⟩ := hs
    simp
  · obtain ⟨-, ⟨⟩⟩ := ite_none_right_eq_some.mp hs
    simp
  · obtain ⟨haccepted, hreached, -⟩ := poll_spec h hrun hs
    exact ⟨haccepted, hreached⟩
  · obtain ⟨-, ⟨⟩⟩ := ite_none_right_eq_some.mp hs
    simp

/-- No seek yet. -/
def new (writer : BufWriter W) : Sys W := ⟨writer, none⟩

theorem inv_run {w₀ : BufWriter W} (hw₀ : w₀.seek = none)
    (h : Run step Careful (new w₀) tr s) : Inv (new w₀) tr s := by
  have hboth := h.inv (I := fun tr s => Inv (new w₀) tr s ∧ Run step Careful (new w₀) tr s)
    ⟨hw₀, .nil⟩ fun tr s op s' es hI hC hs => ⟨inv_step hI.1 hI.2 hC hs, hI.2.snoc hC hs⟩
  exact hboth.1

end OhosFfrt.Io.WriterSeeks
