import OhosFfrt.Io.BufReader
import OhosFfrt.Io.Cursor
import OhosFfrt.Lib.Runs

/-!
# `BufReader` is transparent

The offset of the inner reader is ahead of the caller's by the bytes that are buffered, and these
are the bytes of the stream between the two (`Ahead`).  So the caller sees a direct reader
(`bufReader_transparent`).
-/

namespace OhosFfrt.Io.BufReader

open Basic Lib.Files Lib.Runs Lib.Streams Io.Traits List Option

/-! ## Calls on a reader -/

/-- The calls.  A seek is a whole one, with the wakers it is polled with. -/
inductive Op
  | read (cx : Waker) (n : ℕ)
  | fillBuf (cx : Waker)
  | consume (amount : ℕ)
  | seek (position : SeekFrom) (cxs : List Waker)
  deriving DecidableEq, Repr

inductive Ev
  /-- These bytes, into a buffer with room for `n`. -/
  | read (n : ℕ) (bytes : List Byte)
  | filled (bytes : List Byte)
  | consumed (amount : ℕ)
  | sought (position : SeekFrom) (p : ℕ)
  | pending
  | failed (error : Error)
  /-- A seek has failed, or was given up. -/
  | notSought
  deriving DecidableEq, Repr

/-- The event of a call, which is `ok` if it has succeeded. -/
abbrev answer {α : Type*} (ok : α → Ev) : Poll (Result α) → Ev := Poll.answer .pending .failed ok

variable {R : Type*}

/-- **One call.** -/
def step [AsyncRead R] [AsyncSeek R] (this : BufReader R) : Op → Option (BufReader R × List Ev)
  | .read cx n =>
    let (r, this') := pollRead this cx n
    some (this', [answer (fun bytes => .read n bytes.1) r])
  | .fillBuf cx =>
    let (r, this') := this.pollFillBuf cx
    some (this', [answer .filled r])
  | .consume amount =>
    (this.consume amount).map fun this' => (this', [.consumed (min amount this.buffer.length)])
  | .seek position cxs =>
    match driveSeek this position cxs with
    | (.ready (.ok p), this') => some (this', [.sought position p])
    | (_, this') => some (this', [.notSought])

/-- No seek fails. -/
def SeeksSucceed [AsyncSeek R] (_ : List Ev) (this : BufReader R) : Op → Prop
  | .seek position cxs => (driveSeek this position cxs).1.isOk
  | _ => True

instance [AsyncSeek R] (tr : List Ev) (this : BufReader R) (op : Op) :
    Decidable (SeeksSucceed tr this op) := by
  unfold SeeksSucceed
  split <;> infer_instance

/-- **A direct reader** of the stream at the offset `p`: whether it could have returned this, and
the offset that it is at then. -/
def follow (c : Contents) (p : ℕ) : Ev → Option ℕ
  | .read n bytes =>
    if bytes.length ≤ n ∧ bytes = slice c.byteAt p bytes.length then some (p + bytes.length)
    else none
  | .filled bytes => if bytes = slice c.byteAt p bytes.length then some p else none
  | .consumed amount => some (p + amount)
  | .sought position q => if (q : Int) = target c.size p position then some q else none
  | .pending | .failed _ => some p
  | .notSought => none

/-- The calls of a trace, in order, on a direct reader. -/
def replay (c : Contents) (p : ℕ) (tr : List Ev) : Option ℕ := tr.foldlM (follow c) p

theorem replay_singleton (c : Contents) (p : ℕ) (ev : Ev) : replay c p [ev] = follow c p ev :=
  foldlM_singleton (follow c) p ev

/-! ## The bytes that are buffered -/

theorem length_buffer (this : BufReader R) : this.buffer.length = this.cap - this.pos := by
  have hpos := this.pos_le
  have hcap := this.cap_le
  unfold buffer
  rw [length_take, length_drop]
  omega

theorem take_buffer (this : BufReader R) {k : ℕ} (h : k ≤ this.cap - this.pos) :
    (this.buf.drop this.pos).take k = this.buffer.take k := by
  unfold buffer
  rw [take_take, Nat.min_eq_left h]

theorem buffer_advance (this : BufReader R) {amount : ℕ} (h : amount ≤ this.cap - this.pos) :
    (this.advance amount).buffer = this.buffer.drop amount := by
  have hpos := this.pos_le
  have hmin : min (this.pos + amount) this.cap = this.pos + amount := by omega
  unfold buffer advance
  simp only [hmin]
  rw [drop_take, drop_drop, Nat.sub_sub]

theorem advance_min (this : BufReader R) (amount : ℕ) :
    this.advance amount = this.advance (min amount (this.cap - this.pos)) := by
  have hpos := this.pos_le
  have hmin : min (this.pos + amount) this.cap =
      min (this.pos + min amount (this.cap - this.pos)) this.cap := by omega
  unfold advance
  simp only [hmin]

section
variable [AsyncRead R]

theorem length_refill (b : BufReader R) (cx : Waker) :
    (b.refill cx).2.buf.length = b.buf.length := by
  unfold refill
  rcases pollRead b.inner cx b.buf.length with ⟨_ | (e | bytes), inner⟩
  · rfl
  · rfl
  · have hfits := bytes.2
    simp only [length_append, length_drop]
    omega

theorem length_pollFillBuf (b : BufReader R) (cx : Waker) :
    (b.pollFillBuf cx).2.buf.length = b.buf.length := by
  have hrefill := length_refill b cx
  unfold pollFillBuf
  split_ifs
  · generalize b.refill cx = q at hrefill ⊢
    rcases q with ⟨_ | (e | _), b₁⟩ <;> exact hrefill
  · rfl

end

variable [LawfulReader R] {b b' : BufReader R} {cx : Waker} {n : ℕ}

/-- **The caller's offset**: that of the inner reader, less the unread bytes of the buffer. -/
def logical (this : BufReader R) : ℕ := LawfulReader.offset this.inner - this.buffer.length

/-- **The buffer is the stream from the caller's offset on**, up to the offset of the inner reader.
-/
structure Ahead (c : Contents) (this : BufReader R) : Prop where
  contents : LawfulReader.contents this.inner = c
  le : this.buffer.length ≤ LawfulReader.offset this.inner
  buffer : this.buffer = slice c.byteAt this.logical this.buffer.length

variable {c : Contents} {position : SeekFrom} {tr es : List Ev} {op : Op}

theorem ahead_of_empty (hc : LawfulReader.contents b.inner = c) (hb : b.buffer = []) :
    Ahead c b where
  contents := hc
  le := by rw [hb]; exact Nat.zero_le _
  buffer := by rw [hb]; rfl

theorem logical_of_empty (hb : b.buffer = []) : b.logical = LawfulReader.offset b.inner := by
  unfold logical
  rw [hb]
  rfl

/-- **Bytes of the buffer are given out**: they are those at the caller's offset, which moves past
them. -/
theorem Ahead.advance (h : Ahead c b) {k : ℕ} (hk : k ≤ b.cap - b.pos) :
    Ahead c (b.advance k) ∧ (b.advance k).logical = b.logical + k ∧
      b.buffer.take k = slice c.byteAt b.logical k := by
  have hlen := b.length_buffer
  have hle := h.le
  have hrest := b.buffer_advance hk
  have hlogical : (b.advance k).logical = b.logical + k := by
    unfold logical
    rw [hrest, length_drop]
    show LawfulReader.offset b.inner - _ = _
    omega
  refine ⟨⟨h.contents, ?_, ?_⟩, hlogical, ?_⟩
  · rw [hrest, length_drop]
    show _ ≤ LawfulReader.offset b.inner
    omega
  · rw [hlogical, hrest, length_drop]
    have hdrop := congrArg (List.drop k) h.buffer
    rw [drop_slice (by omega)] at hdrop
    exact hdrop
  · have htake := congrArg (List.take k) h.buffer
    rw [take_slice (by omega)] at htake
    exact htake

/-! ## Filling the buffer -/

/-- **The buffer is filled**: it was empty, and holds what the inner reader has read, if that is
ready. -/
theorem ahead_refill (h : Ahead c b) (hb : b.cap ≤ b.pos) (cx : Waker) :
    Ahead c (b.refill cx).2 ∧ (b.refill cx).2.logical = b.logical ∧
      ((b.refill cx).1 = .ready (.ok ()) → (b.refill cx).2.buffer = [] →
        (pollRead b.inner cx b.buf.length).1 = .ready (.ok ⟨[], Nat.zero_le _⟩)) := by
  have hnil : b.buffer = [] := length_eq_zero_iff.mp (by rw [length_buffer]; omega)
  have hbytes := LawfulReader.bytes_read b.inner cx b.buf.length
  have hoffset := LawfulReader.offset_read b.inner cx b.buf.length
  have hcontents := LawfulReader.contents_read b.inner cx b.buf.length
  rw [h.contents] at hbytes hcontents
  rw [logical_of_empty hnil]
  unfold refill
  generalize pollRead b.inner cx b.buf.length = p at hbytes hoffset hcontents ⊢
  rcases p with ⟨_ | (e | bytes), inner⟩
  iterate 2
    · have hnil' : (b.setInner inner).buffer = [] := hnil
      exact ⟨ahead_of_empty hcontents hnil', (logical_of_empty hnil').trans hoffset,
        nofun⟩
  · simp only
    generalize hb' : BufReader.mk inner (bytes.1 ++ b.buf.drop bytes.1.length) 0 bytes.1.length
      _ _ = b'
    have hbuffer : b'.buffer = bytes.1 := by
      rw [← hb']
      exact take_left' rfl
    have hinner : b'.inner = inner := by rw [← hb']
    have hlogical : b'.logical = LawfulReader.offset b.inner := by
      unfold logical
      rw [hinner, hbuffer, hoffset]
      exact Nat.add_sub_cancel _ _
    refine ⟨⟨?_, ?_, ?_⟩, hlogical, ?_⟩
    · rw [hinner]
      exact hcontents
    · rw [hinner, hbuffer, hoffset]
      exact Nat.le_add_left _ _
    · rw [hlogical, hbuffer]
      exact hbytes
    · intro _ hempty
      have hbytes' : bytes = ⟨[], Nat.zero_le _⟩ := Subtype.ext (hbuffer.symm.trans hempty)
      rw [hbytes']

theorem ahead_fill (h : Ahead c b) (full : Prop) [Decidable full] (hfull : full ↔ b.cap ≤ b.pos)
    (cx : Waker) {r : Poll (Result Unit)}
    (hr : (if full then b.refill cx else (.ready (.ok ()), b)) = (r, b')) :
    Ahead c b' ∧ b'.logical = b.logical ∧ (r = .ready (.ok ()) → b'.buffer = [] →
      (pollRead b.inner cx b.buf.length).1 = .ready (.ok ⟨[], Nat.zero_le _⟩)) := by
  split_ifs at hr with hempty
  · have hrefill := ahead_refill h (hfull.mp hempty) cx
    rw [hr] at hrefill
    exact hrefill
  · cases hr
    refine ⟨h, rfl, fun _ hnil => ?_⟩
    have hlen := b.length_buffer
    rw [hnil, length_nil] at hlen
    have := hfull.not.mp hempty
    omega

/-! ## Steps -/

/-- The inner reader has reported the end of the file, to a read of this poll. -/
def Eof (this : BufReader R) (cx : Waker) : Prop :=
  ∃ m, 0 < m ∧ (pollRead this.inner cx m).1 = .ready (.ok ⟨[], Nat.zero_le _⟩)

/-- What a call does that returns `ev`: it is what a direct reader at the caller's offset could have
returned, and moves the offset as that would. -/
def Follows (c : Contents) (b : BufReader R) (ev : Ev) (b' : BufReader R) : Prop :=
  Ahead c b' ∧ follow c b.logical ev = some b'.logical

theorem follow_read {p : ℕ} (r : Poll (Result (Filled n)))
    (h : r.bytes = slice c.byteAt p r.bytes.length) :
    follow c p (answer (fun bytes => .read n bytes.1) r) = some (p + r.bytes.length) := by
  rcases r with _ | (e | bytes)
  · rfl
  · rfl
  · exact if_pos ⟨bytes.2, h⟩

/-- **`poll_read`** gives what a direct reader gives, and nothing only at the end of the file. -/
theorem follows_pollRead (h : Ahead c b) (cx : Waker) (n : ℕ) :
    Follows c b (answer (fun bytes => .read n bytes.1) (pollRead b cx n).1) (pollRead b cx n).2 ∧
      (0 < n → (pollRead b cx n).1 = .ready (.ok ⟨[], Nat.zero_le _⟩) → Eof b cx) := by
  simp only [pollRead]
  by_cases hn : n = 0
  · rw [if_pos hn]
    exact ⟨⟨h, follow_read _ rfl⟩, fun hpos => absurd hn (Nat.ne_of_gt hpos)⟩
  rw [if_neg hn]
  by_cases hpast : b.pos = b.cap ∧ b.buf.length ≤ n
  · -- past the buffer, which is empty
    rw [if_pos hpast]
    have hnil : b.buffer = [] := length_eq_zero_iff.mp (by rw [length_buffer]; omega)
    have hcontents := LawfulReader.contents_read b.inner cx n
    have hoffset := LawfulReader.offset_read b.inner cx n
    have hbytes := LawfulReader.bytes_read b.inner cx n
    rw [h.contents] at hcontents hbytes
    have hnil' : (b.setInner (pollRead b.inner cx n).2).buffer = [] := hnil
    refine ⟨⟨ahead_of_empty hcontents hnil', ?_⟩, fun hn heof => ⟨n, hn, heof⟩⟩
    rw [logical_of_empty hnil, logical_of_empty hnil']
    exact (follow_read _ hbytes).trans (congrArg some hoffset.symm)
  · rw [if_neg hpast]
    have hpos := b.pos_le
    rcases hr : (if b.pos = b.cap then b.refill cx else (.ready (.ok ()), b)) with
      ⟨_ | (e | _), b₁⟩
    iterate 2
      · obtain ⟨hahead, hlogical, -⟩ := ahead_fill h _ (by omega) cx hr
        exact ⟨⟨hahead, congrArg some hlogical.symm⟩, nofun⟩
    · obtain ⟨hahead, hlogical, heof⟩ := ahead_fill h _ (by omega) cx hr
      have hamount : min n (b₁.cap - b₁.pos) ≤ b₁.cap - b₁.pos := Nat.min_le_right _ _
      have hlen := b₁.length_buffer
      have htaken : (b₁.buffer.take (min n (b₁.cap - b₁.pos))).length =
          min n (b₁.cap - b₁.pos) := by
        rw [length_take]
        omega
      obtain ⟨hahead', hlogical', htake⟩ := hahead.advance hamount
      simp only [ready, b₁.take_buffer hamount]
      refine ⟨⟨hahead', ?_⟩, fun _ hnil => ?_⟩
      · refine (follow_read _ ?_).trans ?_
        · simp only [Poll.bytes]
          rw [htaken, ← hlogical]
          exact htake
        · simp only [Poll.bytes]
          rw [htaken, hlogical', hlogical]
      · -- the buffer is as empty after it was filled as the inner reader has left it
        have hempty : b₁.buffer.take (min n (b₁.cap - b₁.pos)) = [] :=
          congrArg Poll.bytes hnil
        rw [hempty, length_nil] at htaken
        have hcap := b.cap_le
        exact ⟨b.buf.length, by omega, heof rfl (length_eq_zero_iff.mp (by omega))⟩

/-- **`poll_fill_buf`** shows what a direct reader would give, and nothing only at the end of the
file. -/
theorem follows_pollFillBuf (h : Ahead c b) (cx : Waker) :
    Follows c b (answer .filled (b.pollFillBuf cx).1) (b.pollFillBuf cx).2 ∧
      (0 < b.buf.length → (b.pollFillBuf cx).1 = .ready (.ok []) → Eof b cx) := by
  unfold pollFillBuf
  rcases hr : (if b.cap ≤ b.pos then b.refill cx else (.ready (.ok ()), b)) with ⟨_ | (e | _), b₁⟩
  iterate 2
    · obtain ⟨hahead, hlogical, -⟩ := ahead_fill h _ Iff.rfl cx hr
      exact ⟨⟨hahead, congrArg some hlogical.symm⟩, nofun⟩
  · obtain ⟨hahead, hlogical, heof⟩ := ahead_fill h _ Iff.rfl cx hr
    simp only [ready]
    refine ⟨⟨hahead, ?_⟩, fun hcapacity hnil => ?_⟩
    · rw [← hlogical]
      exact if_pos hahead.buffer
    · simp only [Poll.ready.injEq, Except.ok.injEq] at hnil
      exact ⟨b.buf.length, hcapacity, heof rfl hnil⟩

theorem follows_consume (h : Ahead c b) {amount : ℕ} (hb : b.consume amount = some b') :
    Follows c b (.consumed (min amount b.buffer.length)) b' := by
  unfold consume at hb
  rw [map_eq_some_iff] at hb
  obtain ⟨_, -, rfl⟩ := hb
  rw [length_buffer, advance_min]
  obtain ⟨hahead, hlogical, -⟩ := h.advance (Nat.min_le_right amount (b.cap - b.pos))
  exact ⟨hahead, congrArg some hlogical.symm⟩

/-! ## Seeks -/

theorem driveComplete_eq (cxs : List Waker) : ∀ b : BufReader R, driveComplete b cxs =
    ((driveComplete b.inner cxs).1, b.setInner (driveComplete b.inner cxs).2) := by
  induction cxs with
  | nil => exact fun _ => rfl
  | cons cx cxs ih =>
    intro b
    have hb : pollComplete b cx =
        ((pollComplete b.inner cx).1, b.setInner (pollComplete b.inner cx).2) := rfl
    unfold driveComplete
    rw [hb]
    rcases pollComplete b.inner cx with ⟨_ | x, inner⟩
    · exact ih (b.setInner inner)
    · rfl

/-- **A seek of the reader is a seek of the inner one**, to the position that makes up for the
buffered bytes, which are dropped. -/
theorem driveSeek_eq (b : BufReader R) {p : SeekFrom} (cxs : List Waker)
    (hp : Fs.State.compensate position b.buffer.length = some p) : driveSeek b position cxs =
      ((driveSeek b.inner p cxs).1, b.clear.setInner (driveSeek b.inner p cxs).2) := by
  have hb : startSeek b position =
      ((startSeek b.inner p).1, b.clear.setInner (startSeek b.inner p).2) := by
    rw [length_buffer] at hp
    simp only [startSeek, hp]
  unfold driveSeek
  rw [hb]
  rcases startSeek b.inner p with ⟨e | _, inner⟩
  · rfl
  · exact driveComplete_eq cxs _

theorem driveSeek_overflow (b : BufReader R) (cxs : List Waker)
    (hp : Fs.State.compensate position b.buffer.length = none) : driveSeek b position cxs =
      (.ready (.error ⟨.invalidInput, "seek offset overflow"⟩), b) := by
  rw [length_buffer] at hp
  unfold driveSeek
  simp only [startSeek, hp]

theorem contents_driveComplete (cxs : List Waker) : ∀ r : R,
    LawfulReader.contents (driveComplete r cxs).2 = LawfulReader.contents r := by
  induction cxs with
  | nil => exact fun _ => rfl
  | cons cx cxs ih =>
    intro r
    have hpoll := LawfulReader.contents_pollComplete r cx
    unfold driveComplete
    generalize pollComplete r cx = q at hpoll ⊢
    rcases q with ⟨_ | x, r'⟩
    · exact (ih r').trans hpoll
    · exact hpoll

theorem contents_driveSeek (r : R) (position : SeekFrom) (cxs : List Waker) :
    LawfulReader.contents (driveSeek r position cxs).2 = LawfulReader.contents r := by
  have hstart := LawfulReader.contents_startSeek r position
  unfold driveSeek
  generalize startSeek r position = q at hstart ⊢
  rcases q with ⟨e | _, r'⟩
  · exact hstart
  · exact (contents_driveComplete cxs r').trans hstart

/-- **However a seek ends, the buffer is right afterwards.** -/
theorem ahead_driveSeek (h : Ahead c b) (position : SeekFrom) (cxs : List Waker) :
    Ahead c (driveSeek b position cxs).2 := by
  rcases hp : Fs.State.compensate position b.buffer.length with _ | p
  · rw [driveSeek_overflow b cxs hp]
    exact h
  · rw [driveSeek_eq b cxs hp]
    exact ahead_of_empty ((contents_driveSeek _ _ _).trans h.contents) rfl

theorem target_compensate {size offset buffered : ℕ} (h : buffered ≤ offset)
    {p : SeekFrom} (hp : Fs.State.compensate position buffered = some p) :
    target size offset p = target size (offset - buffered) position := by
  rcases position with m | d | d
  · cases hp
    rfl
  · cases hp
    rfl
  · simp only [Fs.State.compensate, map_eq_some_iff, Fs.State.checkedSub] at hp
    obtain ⟨d', hd', rfl⟩ := hp
    split_ifs at hd'
    cases hd'
    simp only [target]
    omega

theorem follows_seek (h : Ahead c b) {cxs : List Waker} {p : ℕ}
    (hs : driveSeek b position cxs = (.ready (.ok p), b')) :
    Follows c b (.sought position p) b' := by
  have hahead := ahead_driveSeek h position cxs
  rw [hs] at hahead
  refine ⟨hahead, ?_⟩
  rcases hq : Fs.State.compensate position b.buffer.length with _ | q
  · rw [driveSeek_overflow b cxs hq] at hs
    cases hs
  · rw [driveSeek_eq b cxs hq] at hs
    rcases hin : driveSeek b.inner q cxs with ⟨r, inner⟩
    rw [hin] at hs
    cases hs
    obtain ⟨hoffset, htarget⟩ := LawfulReader.seek_ok _ _ _ _ _ hin
    rw [h.contents, target_compensate h.le hq] at htarget
    have hlogical : (b.clear.setInner inner).logical = p := (logical_of_empty rfl).trans hoffset
    rw [hlogical]
    exact if_pos htarget

/-! ## Runs -/

theorem ahead_step (h : Ahead c b) (hs : step b op = some (b', es)) :
    Ahead c b' := by
  rcases op with ⟨cx, n⟩ | cx | amount | ⟨position, cxs⟩
  · cases hs
    exact (follows_pollRead h cx n).1.1
  · cases hs
    exact (follows_pollFillBuf h cx).1.1
  · obtain ⟨b₁, hb₁, ⟨⟩⟩ := map_eq_some_iff.mp hs
    exact (follows_consume h hb₁).1
  · have hahead := ahead_driveSeek h position cxs
    unfold step at hs
    simp only at hs
    generalize driveSeek b position cxs = q at hahead hs
    rcases q with ⟨_ | (e | p), b₁⟩
    iterate 3
      · cases hs
        exact hahead

theorem ahead_run {C : List Ev → BufReader R → Op → Prop} (h : Ahead c b)
    (hrun : Run step C b tr b') : Ahead c b' :=
  hrun.inv h fun _ _ _ _ _ hI _ hs => ahead_step hI hs

theorem replay_step (h : Ahead c b) (hC : SeeksSucceed tr b op) (hs : step b op = some (b', es)) :
    replay c b.logical es = some b'.logical := by
  rcases op with ⟨cx, n⟩ | cx | amount | ⟨position, cxs⟩
  · cases hs
    rw [replay_singleton]
    exact (follows_pollRead h cx n).1.2
  · cases hs
    rw [replay_singleton]
    exact (follows_pollFillBuf h cx).1.2
  · obtain ⟨b₁, hb₁, ⟨⟩⟩ := map_eq_some_iff.mp hs
    rw [replay_singleton]
    exact (follows_consume h hb₁).2
  · simp only [SeeksSucceed] at hC
    rcases hq : driveSeek b position cxs with ⟨_ | (e | p), b₁⟩
    · simp [hq, Poll.isOk] at hC
    · simp [hq, Poll.isOk] at hC
    · simp only [step, hq] at hs
      cases hs
      rw [replay_singleton]
      exact (follows_seek h hq).2

/-- **A run is one of a direct reader**, from the caller's offset. -/
theorem replay_run (h : Ahead c b) (hrun : Run step SeeksSucceed b tr b') :
    replay c b.logical tr = some b'.logical := by
  obtain ⟨p, hreplay, -, rfl⟩ :=
    hrun.simulate (R := fun p b => Ahead c b ∧ p = b.logical) ⟨h, rfl⟩
      fun tr p b₁ op b₂ es hR hC hs => by
        obtain ⟨hahead, rfl⟩ := hR
        exact ⟨b₂.logical, replay_step hahead hC hs, ahead_step hahead hs, rfl⟩
  exact hreplay

theorem ahead_withCapacity {capacity : ℕ} {inner : R} (h : withCapacity capacity inner = some b) :
    Ahead (LawfulReader.contents inner) b ∧ b.logical = LawfulReader.offset inner ∧
      b.buf.length = capacity := by
  unfold withCapacity at h
  split_ifs at h
  cases h
  exact ⟨ahead_of_empty rfl take_zero, logical_of_empty take_zero,
    length_replicate⟩

theorem length_pollRead (b : BufReader R) (cx : Waker) (n : ℕ) :
    (pollRead b cx n).2.buf.length = b.buf.length := by
  have hrefill := length_refill b cx
  simp only [pollRead]
  split_ifs
  · rfl
  · rfl
  · generalize b.refill cx = q at hrefill ⊢
    rcases q with ⟨_ | (e | _), b₁⟩ <;> exact hrefill
  · rfl

theorem length_step (hs : step b op = some (b', es)) :
    b'.buf.length = b.buf.length := by
  rcases op with ⟨cx, n⟩ | cx | amount | ⟨position, cxs⟩
  · simp only [step, some.injEq, Prod.mk.injEq] at hs
    rw [← hs.1, length_pollRead]
  · simp only [step, some.injEq, Prod.mk.injEq] at hs
    rw [← hs.1, length_pollFillBuf]
  · simp only [step, consume, map_eq_some_iff, Prod.mk.injEq] at hs
    obtain ⟨b₁, ⟨_, -, rfl⟩, rfl, -⟩ := hs
    rfl
  · have hlen : (driveSeek b position cxs).2.buf.length = b.buf.length := by
      rcases hp : Fs.State.compensate position b.buffer.length with _ | p
      · rw [driveSeek_overflow b cxs hp]
      · rw [driveSeek_eq b cxs hp]
        rfl
    unfold step at hs
    simp only at hs
    generalize driveSeek b position cxs = q at hlen hs
    rcases q with ⟨_ | (e | p), b₁⟩ <;> cases hs <;> exact hlen

/-- **`BufReader` is transparent**, of every capacity, over every reader of a stream, and whatever
calls are made, if the seeks among them succeed.

* What the calls return is what they could have returned on a direct reader at the caller's offset,
  which is then the offset of the inner reader less the unread bytes of the buffer; in particular, a
  seek relative to the current position goes from the caller's offset.
* A read into a buffer that is not empty, or a buffer that is filled and can hold something, comes
  to nothing only if the inner reader has reported the end of the file. -/
theorem bufReader_transparent {capacity : ℕ} {inner : R} {b₀ b : BufReader R} {tr : List Ev}
    (h₀ : withCapacity capacity inner = some b₀) (h : Run step SeeksSucceed b₀ tr b) :
    replay (LawfulReader.contents inner) (LawfulReader.offset inner) tr = some b.logical ∧
      (∀ cx n b', 0 < n → step b (.read cx n) = some (b', [.read n []]) → Eof b cx) ∧
      (0 < capacity → ∀ cx b', step b (.fillBuf cx) = some (b', [.filled []]) → Eof b cx) := by
  obtain ⟨hahead₀, hlogical₀, hlen₀⟩ := ahead_withCapacity h₀
  have hahead := ahead_run hahead₀ h
  have hlen : b.buf.length = b₀.buf.length :=
    h.inv rfl
      fun _ _ _ _ _ hI _ hs => (length_step hs).trans hI
  refine ⟨?_, ?_, ?_⟩
  · rw [← hlogical₀]
    exact replay_run hahead₀ h
  · intro cx n b' hn hs
    refine (follows_pollRead hahead cx n).2 hn ?_
    simp only [step, some.injEq, Prod.mk.injEq, List.cons.injEq, and_true] at hs
    generalize pollRead b cx n = q at hs ⊢
    rcases q with ⟨_ | (e | bytes), b₁⟩
    · cases hs.2
    · cases hs.2
    · have hbytes : bytes = ⟨[], Nat.zero_le _⟩ := Subtype.ext (Ev.read.inj hs.2).2
      rw [hbytes]
  · intro hcapacity cx b' hs
    refine (follows_pollFillBuf hahead cx).2 (by omega) ?_
    simp only [step, some.injEq, Prod.mk.injEq, List.cons.injEq, and_true] at hs
    generalize b.pollFillBuf cx = q at hs ⊢
    rcases q with ⟨_ | (e | bytes), b₁⟩
    · cases hs.2
    · cases hs.2
    · rw [Ev.filled.inj hs.2]

/-- A read, what is buffered after it, and a relative seek, over a slice of six bytes. -/
theorem bufReader_transparent_cursor : ∃ (b₀ b : BufReader Cursor) (tr : List Ev),
    withCapacity 4 (⟨[1, 2, 3, 4, 5, 6], 0⟩ : Cursor) = some b₀ ∧
    Run step SeeksSucceed b₀ tr b ∧
    tr = [.read 2 [1, 2], .filled [3, 4], .consumed 1, .sought (.current 1) 4, .read 4 [5, 6]] ∧
    replay (LawfulReader.contents (⟨[1, 2, 3, 4, 5, 6], 0⟩ : Cursor)) 0 tr = some b.logical := by
  obtain ⟨b₀, h₀⟩ : ∃ b₀, withCapacity 4 (⟨[1, 2, 3, 4, 5, 6], 0⟩ : Cursor) = some b₀ := ⟨_, rfl⟩
  obtain ⟨b, tr, hrun, htr⟩ : ∃ b tr, Run step SeeksSucceed b₀ tr b ∧ tr = [.read 2 [1, 2],
      .filled [3, 4], .consumed 1, .sought (.current 1) 4, .read 4 [5, 6]] := by
    cases h₀
    refine ⟨_, _, run_execIf [.read 0 2, .fillBuf 0, .consume 1, .seek (.current 1) [0],
      .read 0 4] .nil rfl, ?_⟩
    decide
  exact ⟨b₀, b, tr, h₀, hrun, htr, (bufReader_transparent h₀ hrun).1⟩

end OhosFfrt.Io.BufReader
