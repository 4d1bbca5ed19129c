import OhosFfrt.Io.ReadBuf
import OhosFfrt.Io.Sources

/-!
# `io::Take`

`poll_read` lets the inner reader read into a buffer over the first unfilled bytes of the caller's,
no more of them than the limit.  So a prefix is delivered (`take_delivers`).
-/

namespace OhosFfrt.Io

open Basic Lib.Files Lib.Runs Lib.Streams Io.Traits List Option
open Stream' (Seq)

/-- `Take`; the limit is a `u64`. -/
structure Take (R : Type*) where
  inner : R
  limit : ℕ
  limit_lt : limit < 2 ^ 64

/-- A read into a `ReadBuf`. -/
def readInto {R : Type*} [AsyncRead R] (reader : R) (cx : Waker) (buf : ReadBuf) :
    Option (Poll (Result Unit) × R × ReadBuf) :=
  match pollRead reader cx buf.remaining with
  | (.pending, reader) => some (.pending, reader, buf)
  | (.ready (.error e), reader) => some (.ready (.error e), reader, buf)
  | (.ready (.ok bytes), reader) =>
    (buf.putSlice bytes.1).map fun buf => (.ready (.ok ()), reader, buf)

theorem readInto_spec {R : Type*} [LawfulSource R] (r : R) (cx : Waker) (l : ReadBuf) :
    ∃ q r' l' bytes, readInto r cx l = some (q, r', l') ∧
      l'.filled = l.filled + bytes.length ∧ l'.buf.length = l.buf.length ∧
      l.initialized ≤ l'.initialized ∧ l'.filledBytes = l.filledBytes ++ bytes ∧
      LawfulSource.rest r = Seq.append (Seq.ofList bytes) (LawfulSource.rest r') ∧
      (q ≠ .ready (.ok ()) → bytes = []) ∧
      (q = .ready (.ok ()) → 0 < l.remaining → bytes = [] → LawfulSource.rest r = Seq.nil) := by
  have hrest := LawfulSource.rest_read r cx l.remaining
  have hend := LawfulSource.rest_end r cx l.remaining
  unfold readInto
  generalize pollRead r cx l.remaining = q at hrest hend
  rcases q with ⟨_ | (e | bytes), r'⟩
  iterate 2
    · exact ⟨_, r', l, [], rfl, rfl, rfl, Nat.le_refl _, (append_nil _).symm, hrest,
        fun _ => rfl, nofun⟩
  · obtain ⟨l', hput, hfilled, hlen, hinit, hbytes⟩ := ReadBuf.putSlice_spec bytes.2
    refine ⟨_, r', l', bytes.1, ?_, hfilled, hlen, hinit, hbytes, hrest, fun h => absurd rfl h,
      fun _ hroom hnil => ?_⟩
    · simp only [hput, map_some]
    · have hbytes : bytes = ⟨[], Nat.zero_le _⟩ := Subtype.ext hnil
      exact hend hroom (by rw [hbytes])

namespace Take

variable {R : Type*}

/-- The buffer over the first `maximum` unfilled bytes. -/
def limited (buf : ReadBuf) (maximum : ℕ) : ReadBuf :=
  .new (buf.unfilledTo maximum) (by
    have hsize := buf.size_le
    unfold ReadBuf.unfilledTo
    rw [ReadBuf.length_bytesOf, List.length_take, List.length_drop]
    omega)

/-- `limit -= amount`; `none` is an underflow. -/
def spend (inner : R) (limit amount : ℕ) (h : limit < 2 ^ 64) : Option (Take R) :=
  if amount ≤ limit then some ⟨inner, limit - amount, by omega⟩ else none

/-- `Take::poll_read`; `none` is a panic. -/
def pollRead [AsyncRead R] (this : Take R) (cx : Waker) (buf : ReadBuf) :
    Option (Poll (Result Unit) × Take R × ReadBuf) :=
  if this.limit = 0 ∨ buf.remaining = 0 then some (.ready (.ok ()), this, buf)
  else
    let maximum := min (min this.limit usizeMax) buf.remaining
    buf.initializeUnfilled.bind fun buf =>
      (readInto this.inner cx (limited buf maximum)).bind fun (r, inner, limited) =>
        -- the memory of `limited` is that of `buf`
        (buf.storeUnfilled limited.initializedBytes).bind fun buf =>
          match r with
          | .pending => some (.pending, { this with inner := inner }, buf)
          | .ready (.error e) => some (.ready (.error e), { this with inner := inner }, buf)
          | .ready (.ok ()) =>
            (buf.advance limited.len).bind fun buf =>
              (spend inner this.limit limited.len this.limit_lt).map fun this =>
                (.ready (.ok ()), this, buf)

/-! ### A poll -/

variable [LawfulSource R] {t : Take R} {cx : Waker} {b : ReadBuf}

/-- **What a poll does**: `bytes` are delivered, after what was in the buffer. -/
structure Delivers (t : Take R) (b : ReadBuf) (r : Poll (Result Unit)) (t' : Take R) (b' : ReadBuf)
    (bytes : List Byte) : Prop where
  filled : b'.filledBytes = b.filledBytes ++ bytes
  length : b'.buf.length = b.buf.length
  rest : LawfulSource.rest t.inner = Seq.append (Seq.ofList bytes) (LawfulSource.rest t'.inner)
  limit : t'.limit + bytes.length = t.limit
  ended : r = .ready (.ok ()) → 0 < b.remaining → bytes = [] →
    t.limit = 0 ∨ LawfulSource.rest t.inner = Seq.nil

theorem limited_spec {b : ReadBuf} {m : ℕ} (h : m ≤ b.remaining) :
    (limited b m).filled = 0 ∧ (limited b m).initialized = m ∧ (limited b m).buf.length = m ∧
      (limited b m).filledBytes = [] := by
  have hlen : (b.unfilledTo m).length = m := by
    unfold ReadBuf.unfilledTo ReadBuf.remaining at *
    rw [ReadBuf.length_bytesOf, length_take, length_drop]
    omega
  refine ⟨rfl, hlen, ?_, rfl⟩
  show ((b.unfilledTo m).map some).length = m
  rw [length_map, hlen]

theorem delivers_nothing {r : Poll (Result Unit)} {r' : R} {b' : ReadBuf}
    (hr : r ≠ .ready (.ok ())) (hkeeps : ReadBuf.Keeps b b')
    (hrest : LawfulSource.rest t.inner = Seq.append (Seq.ofList []) (LawfulSource.rest r')) :
    Delivers t b r { t with inner := r' } b' [] where
  filled := by rw [hkeeps.bytes, append_nil]
  length := hkeeps.length
  rest := hrest
  limit := rfl
  ended hok := absurd hok hr

/-- **A poll cannot panic**, and delivers what it takes from the inner reader. -/
theorem pollRead_spec (t : Take R) (cx : Waker) (b : ReadBuf) :
    ∃ r t' b' bytes, t.pollRead cx b = some (r, t', b') ∧ Delivers t b r t' b' bytes := by
  unfold pollRead
  split_ifs with h
  · refine ⟨_, t, b, [], rfl, (append_nil _).symm, rfl, (Seq.nil_append _).symm, rfl, ?_⟩
    intro _ hroom _
    exact .inl (h.resolve_right (by omega))
  push Not at h
  obtain ⟨b₁, h₁, hk₁, hinit₁⟩ := ReadBuf.initializeUnfilledTo_spec (Nat.le_refl b.remaining)
  rw [show b.initializeUnfilled = some b₁ from h₁, bind_some]
  have hlimit := t.limit_lt
  have hmax : usizeMax = 2 ^ 64 - 1 := rfl
  generalize hm : min (min t.limit usizeMax) b.remaining = m
  have hm₁ : m ≤ b₁.remaining := by
    rw [hk₁.remaining]
    omega
  obtain ⟨hfilled, hinit, hlen, hnil⟩ := limited_spec hm₁
  obtain ⟨q, r', l', bytes, hread, hfilled', hlen', hinit', hbytes, hrest, hno, hend⟩ :=
    readInto_spec t.inner cx (limited b₁ m)
  rw [hread, bind_some]
  have hall : l'.initialized = m := by
    have := l'.initialized_le
    omega
  have hk : bytes.length ≤ m := by
    have := l'.filled_le
    omega
  have hstore : b₁.filled + l'.initializedBytes.length ≤ b₁.initialized := by
    rw [l'.length_initializedBytes, hall, hk₁.filled]
    omega
  obtain ⟨b₂, h₂, hk₂, hinit₂, hstored⟩ := ReadBuf.storeUnfilled_spec hstore
  simp only [h₂, bind_some]
  have hkeeps := hk₁.trans hk₂
  rcases q with _ | (e | _)
  iterate 2
    · obtain rfl := hno (by simp)
      exact ⟨_, _, b₂, [], rfl, delivers_nothing (by simp) hkeeps hrest⟩
  · have hlen₂ : l'.len = bytes.length := by
      rw [ReadBuf.len, hfilled', hfilled, Nat.zero_add]
    have hfit : b₂.filled + l'.len ≤ b₂.initialized := by
      rw [l'.length_initializedBytes, hall] at hstore
      rw [hlen₂, hinit₂, hk₂.filled]
      omega
    obtain ⟨b₃, h₃, hfilled₃, hinit₃, hbuf₃⟩ := ReadBuf.advance_spec hfit
    have hspend : spend r' t.limit l'.len t.limit_lt =
        some ⟨r', t.limit - l'.len, by omega⟩ := by
      unfold spend
      rw [if_pos (by omega)]
    refine ⟨.ready (.ok ()), ⟨r', t.limit - l'.len, by omega⟩, b₃, bytes, ?_, ?_, ?_, hrest, ?_,
      fun _ hroom hb => ?_⟩
    · simp only [h₃, bind_some, hspend, map_some]
    · -- the first bytes of what is stored are those that were read
      have hprefix : l'.initializedBytes.take bytes.length = bytes := by
        have := l'.take_initializedBytes
        rwa [hfilled', hfilled, Nat.zero_add, hbytes, hnil, nil_append] at this
      have hfirst := hstored bytes.length (by rw [l'.length_initializedBytes, hall]; exact hk)
      rw [ReadBuf.filledBytes, hbuf₃, hfilled₃, hlen₂, hk₂.filled, hfirst, hprefix, hk₁.bytes]
    · rw [hbuf₃, hkeeps.length]
    · show t.limit - l'.len + bytes.length = t.limit
      omega
    · refine .inr (hend rfl ?_ hb)
      unfold ReadBuf.remaining
      omega

/-! ### Polls -/

inductive Op
  | read (cx : Waker) (buf : ReadBuf)

/-- What a call has returned, and the buffer before and after it. -/
inductive Ev
  | read (before : ReadBuf) (r : Poll (Result Unit)) (after : ReadBuf)

/-- **One call.** -/
def step (this : Take R) : Op → Option (Take R × List Ev)
  | .read cx buf => (this.pollRead cx buf).map fun r => (r.2.1, [.read buf r.1 r.2.2])

/-- The bytes of a read. -/
def delivered : Ev → List Byte
  | .read before _ after => after.filledBytes.drop before.filledBytes.length

/-- The bytes delivered. -/
def deliveredOf (tr : List Ev) : List Byte := tr.flatMap delivered

theorem step_delivers {t' : Take R} {es : List Ev} {op : Op} (h : step t op = some (t', es)) :
    ∃ before r after bytes, es = [.read before r after] ∧ delivered (.read before r after) = bytes ∧
      Delivers t before r t' after bytes := by
  obtain ⟨cx, before⟩ := op
  obtain ⟨⟨r, t'', after⟩, hp, he⟩ := map_eq_some_iff.mp h
  cases he
  obtain ⟨r₁, t₁, after₁, bytes, hp₁, hd⟩ := pollRead_spec t cx before
  rw [hp] at hp₁
  cases hp₁
  refine ⟨before, r, after, bytes, rfl, ?_, hd⟩
  show after.filledBytes.drop before.filledBytes.length = bytes
  rw [hd.filled, drop_left]

/-- **What was delivered** is what was taken from the inner reader, and was counted off. -/
structure Accounts (inner : R) (limit : ℕ) (tr : List Ev) (t : Take R) : Prop where
  rest : LawfulSource.rest inner =
    Seq.append (Seq.ofList (deliveredOf tr)) (LawfulSource.rest t.inner)
  limit : t.limit + (deliveredOf tr).length = limit
  appended : ∀ before r after, .read before r after ∈ tr →
    after.filledBytes = before.filledBytes ++ delivered (.read before r after)

theorem accounts_run {inner : R} {limit : ℕ} {hl : limit < 2 ^ 64} {tr : List Ev}
    (h : Run step Any ⟨inner, limit, hl⟩ tr t) : Accounts inner limit tr t := by
  refine h.inv ⟨(Seq.nil_append _).symm, rfl, nofun⟩ ?_
  rintro tr t op t' es hI - hs
  obtain ⟨before, r, after, bytes, rfl, hbytes, hd⟩ := step_delivers hs
  have hdelivered : deliveredOf (tr ++ [.read before r after]) = deliveredOf tr ++ bytes := by
    unfold deliveredOf
    rw [flatMap_append, flatMap_singleton, hbytes]
  refine ⟨?_, ?_, fun b q b' hmem => ?_⟩
  · rw [hdelivered, Seq.ofList_append, Seq.append_assoc, ← hd.rest]
    exact hI.rest
  · have := hI.limit
    have := hd.limit
    rw [hdelivered, length_append]
    omega
  · rcases mem_append.mp hmem with hmem | hmem
    · exact hI.appended b q b' hmem
    · obtain ⟨rfl, rfl, rfl⟩ := Ev.read.inj (mem_singleton.mp hmem)
      rw [hbytes]
      exact hd.filled

/-- **`take` delivers a prefix.**  For every reader, every limit and every sequence of buffers:

* what a call delivers is appended to what was in its buffer;
* what was delivered is what was taken from the inner reader, no more, and is the beginning of its
  first `limit` bytes;
* the limit is the initial one, less the number of bytes that were delivered;
* no call panics, and one that reports the end, to a buffer with room, does so when all of the first
  `limit` bytes were delivered. -/
theorem take_delivers {inner : R} {limit : ℕ} {hl : limit < 2 ^ 64} {tr : List Ev}
    (h : Run step Any ⟨inner, limit, hl⟩ tr t) :
    (∀ before r after, .read before r after ∈ tr →
      after.filledBytes = before.filledBytes ++ delivered (.read before r after)) ∧
    LawfulSource.rest inner =
      Seq.append (Seq.ofList (deliveredOf tr)) (LawfulSource.rest t.inner) ∧
    deliveredOf tr <+: (LawfulSource.rest inner).take limit ∧
    t.limit + (deliveredOf tr).length = limit ∧
    ∀ cx buf, ∃ r t' buf', t.pollRead cx buf = some (r, t', buf') ∧
      (r = .ready (.ok ()) → 0 < buf.remaining → buf'.len = buf.len →
        deliveredOf tr = (LawfulSource.rest inner).take limit) := by
  have hA := accounts_run h
  have hlimit := hA.limit
  have hrest := hA.rest
  have htake : (LawfulSource.rest inner).take limit =
      deliveredOf tr ++ (LawfulSource.rest t.inner).take t.limit := by
    rw [hrest, ← hlimit, Nat.add_comm, take_ofList_append]
  refine ⟨hA.appended, hrest, ?_, hlimit, fun cx buf => ?_⟩
  · rw [htake]
    exact prefix_append _ _
  · obtain ⟨r, t', buf', bytes, hp, hd⟩ := pollRead_spec t cx buf
    refine ⟨r, t', buf', hp, fun hr hroom hlen => ?_⟩
    have hnil : bytes = [] := by
      have := congrArg List.length hd.filled
      rw [length_append, ReadBuf.length_filledBytes, ReadBuf.length_filledBytes] at this
      unfold ReadBuf.len at hlen
      exact eq_nil_of_length_eq_zero (by omega)
    rw [htake]
    rcases hd.ended hr hroom hnil with hzero | hend
    · rw [hzero, Seq.take_zero, append_nil]
    · rw [hend, Seq.take_nil, append_nil]

/-- A buffer with three bytes, of which the first is filled and the last is not initialized. -/
def partly : ReadBuf where
  buf := [some 9, some 0, none]
  filled := 1
  initialized := 2
  filled_le := by decide
  initialized_le := by decide
  size_le := by decide
  init := by decide

theorem take_delivers_two : ∃ (t : Take Chunks) (tr : List Ev),
    Run step Any ⟨⟨[some [1], none, some [2, 3]], by decide⟩, 2, by decide⟩ tr t ∧
    deliveredOf tr = [1, 2] ∧ t.limit = 0 ∧ t.limit + (deliveredOf tr).length = 2 ∧
    LawfulSource.rest t.inner = Seq.ofList [3] := by
  have h : Run step Any (⟨⟨[some [1], none, some [2, 3]], by decide⟩, 2, by decide⟩ : Take Chunks)
      _ _ := run_exec [.read 0 partly, .read 0 partly, .read 0 partly] rfl
  exact ⟨_, _, h, rfl, rfl, (take_delivers h).2.2.2.1, rfl⟩

end Take

end OhosFfrt.Io
