import OhosFfrt.Io.Sources

/-!
# `io::Chain`

`Chain` reads from `first` until a read that is ready has added nothing, and then from `second`.
Nothing is added at the end of `first`, but also to a buffer without room.  But for that, the two
are concatenated (`chain_concatenates`).
-/

namespace OhosFfrt.Io

open Basic Lib.Files Lib.Runs Lib.Streams Io.Traits List Option
open Stream' (Seq)

structure Chain (T U : Type*) where
  first : T
  second : U
  readingFirst : Bool

namespace Chain

variable {T U : Type*}

/-- `AsyncReadExt::chain`. -/
def chain (first : T) (second : U) : Chain T U := ⟨first, second, true⟩

/-- A read of `second`. -/
def readSecond [AsyncRead U] (this : Chain T U) (cx : Waker) (n : ℕ) :
    Poll (Result (Filled n)) × Chain T U :=
  let (r, second) := pollRead this.second cx n
  (r, { this with second := second })

/-- `Chain::poll_read`. -/
instance [AsyncRead T] [AsyncRead U] : AsyncRead (Chain T U) where
  pollRead this cx n :=
    if this.readingFirst then
      match pollRead this.first cx n with
      | (.ready (.ok bytes), first) =>
        if bytes.1.length = 0 then
          readSecond { this with first := first, readingFirst := false } cx n
        else (.ready (.ok bytes), { this with first := first })
      | (r, first) => (r, { this with first := first })
    else this.readSecond cx n

/-! ### Reads of a chain -/

/-- The calls: `poll_read` with a buffer that has room for `n` bytes. -/
inductive Op
  | read (cx : Waker) (n : ℕ)
  deriving DecidableEq, Repr

inductive Ev
  | pending (n : ℕ)
  | failed (n : ℕ) (error : Error)
  | delivered (n : ℕ) (bytes : List Byte)
  deriving DecidableEq, Repr

/-- The event of a read with room for `n` bytes. -/
abbrev answer (n : ℕ) : Poll (Result (Filled n)) → Ev :=
  Poll.answer (.pending n) (.failed n) fun bytes => .delivered n bytes.1

/-- **One call.** -/
def step [AsyncRead T] [AsyncRead U] (this : Chain T U) : Op → Option (Chain T U × List Ev)
  | .read cx n =>
    let (r, this') := pollRead this cx n
    some (this', [answer n r])

/-- The bytes delivered. -/
def deliveredOf (tr : List Ev) : List Byte :=
  tr.flatMap fun
    | .delivered _ bytes => bytes
    | _ => []

theorem answer_end {n m : ℕ} {r : Poll (Result (Filled n))} (h : answer n r = .delivered m []) :
    n = m ∧ r = .ready (.ok ⟨[], Nat.zero_le _⟩) := by
  rcases r with _ | (e | bytes)
  · cases h
  · cases h
  · simp only [Poll.answer, Ev.delivered.injEq] at h
    have hbytes : bytes = ⟨[], Nat.zero_le _⟩ := Subtype.ext h.2
    exact ⟨h.1, by rw [hbytes]⟩

theorem deliveredOf_snoc (tr : List Ev) (n : ℕ) (r : Poll (Result (Filled n))) :
    deliveredOf (tr ++ [answer n r]) = deliveredOf tr ++ r.bytes := by
  unfold deliveredOf
  rw [flatMap_append]
  rcases r with _ | (e | bytes)
  · rfl
  · rfl
  · exact congrArg _ (append_nil bytes.1)

theorem step_read [AsyncRead T] [AsyncRead U] {c c' : Chain T U} {cx : Waker} {n : ℕ}
    {es : List Ev} (h : step c (.read cx n) = some (c', es)) :
    c' = (pollRead c cx n).2 ∧ es = [answer n (pollRead c cx n).1] := by
  obtain ⟨h₁, h₂⟩ := Prod.mk.inj (some.inj h)
  exact ⟨h₁.symm, h₂.symm⟩

variable [LawfulSource T] [LawfulSource U] {c c' : Chain T U} {first : T} {second : U} {cx : Waker}
  {n : ℕ} {tr : List Ev}

/-- What is left to deliver. -/
def left (this : Chain T U) : Seq Byte :=
  if this.readingFirst then
    Seq.append (LawfulSource.rest this.first) (LawfulSource.rest this.second)
  else LawfulSource.rest this.second

/-- **The buffer has room** if `first` is read from, is not at its end and is ready. -/
def Roomy (_ : List Ev) (this : Chain T U) : Op → Prop
  | .read cx n => 0 < n ∨ this.readingFirst = false ∨ LawfulSource.rest this.first = Seq.nil ∨
      ∀ bytes, (pollRead this.first cx n).1 ≠ .ready (.ok bytes)

omit [LawfulSource T] in
theorem readSecond_spec (hc : c.readingFirst = false) (cx : Waker) (n : ℕ) :
    (c.readSecond cx n).2.readingFirst = false ∧
    LawfulSource.rest c.second = Seq.append (Seq.ofList (c.readSecond cx n).1.bytes)
      (LawfulSource.rest (c.readSecond cx n).2.second) ∧
    (0 < n → (c.readSecond cx n).1 = .ready (.ok ⟨[], Nat.zero_le _⟩) →
      LawfulSource.rest c.second = Seq.nil) :=
  ⟨hc, LawfulSource.rest_read c.second cx n, LawfulSource.rest_end c.second cx n⟩

/-- **A read gives what is left of the chain**, and nothing, to a buffer with room, at its end. -/
theorem pollRead_spec (h : Roomy tr c (.read cx n)) :
    c.left = Seq.append (Seq.ofList (pollRead c cx n).1.bytes) (pollRead c cx n).2.left ∧
    (0 < n → (pollRead c cx n).1 = .ready (.ok ⟨[], Nat.zero_le _⟩) → c.left = Seq.nil) := by
  -- what is left when `second` is read, with nothing left of `first`
  have hsecond : ∀ d : Chain T U, d.readingFirst = false →
      c.left = LawfulSource.rest d.second →
      c.left = Seq.append (Seq.ofList (d.readSecond cx n).1.bytes) (d.readSecond cx n).2.left ∧
      (0 < n → (d.readSecond cx n).1 = .ready (.ok ⟨[], Nat.zero_le _⟩) → c.left = Seq.nil) := by
    intro d hd hleft
    obtain ⟨hflag, hrest, hend⟩ := readSecond_spec hd cx n
    rw [hleft]
    refine ⟨?_, hend⟩
    rw [left, if_neg (by rw [hflag]; decide)]
    exact hrest
  by_cases hc : c.readingFirst = true
  · have hrest := LawfulSource.rest_read c.first cx n
    have hend := LawfulSource.rest_end c.first cx n
    have hleft : c.left =
        Seq.append (LawfulSource.rest c.first) (LawfulSource.rest c.second) := if_pos hc
    -- what is left when `first` has given `bytes`
    have hfirst : ∀ (bytes : List Byte) (first : T),
        LawfulSource.rest c.first = Seq.append (Seq.ofList bytes) (LawfulSource.rest first) →
        c.left = Seq.append (Seq.ofList bytes) (left { c with first := first }) := by
      intro bytes first hrest
      rw [hleft, hrest, Seq.append_assoc, left, if_pos hc]
    simp only [pollRead, Roomy, if_pos hc] at h ⊢
    generalize AsyncRead.pollRead c.first cx n = q at h hrest hend
    rcases q with ⟨_ | (e | bytes), first⟩
    · exact ⟨hfirst [] first hrest, nofun⟩
    · exact ⟨hfirst [] first hrest, nofun⟩
    · dsimp only
      split_ifs with hb
      · -- nothing was added: `first` is at its end
        have hnil : bytes = ⟨[], Nat.zero_le _⟩ := Subtype.ext (eq_nil_of_length_eq_zero hb)
        have hdone : LawfulSource.rest c.first = Seq.nil := by
          rcases h with hn | hflag | hdone | hnot
          · exact hend hn (by rw [hnil])
          · rw [hc] at hflag
            cases hflag
          · exact hdone
          · exact absurd rfl (hnot bytes)
        refine hsecond ⟨first, c.second, false⟩ rfl ?_
        rw [hleft, hdone, Seq.nil_append]
      · refine ⟨hfirst bytes.1 first hrest, fun _ hr => ?_⟩
        simp only [Poll.ready.injEq, Except.ok.injEq] at hr
        rw [hr] at hb
        exact absurd rfl hb
  · simp only [pollRead, if_neg hc]
    have hflag : c.readingFirst = false := Bool.eq_false_iff.mpr hc
    exact hsecond c hflag (if_neg hc)

theorem left_run (h : Run step Roomy (chain first second) tr c) :
    Seq.append (LawfulSource.rest first) (LawfulSource.rest second) =
      Seq.append (Seq.ofList (deliveredOf tr)) c.left := by
  refine h.inv (I := fun tr c => Seq.append (LawfulSource.rest first) (LawfulSource.rest second) =
    Seq.append (Seq.ofList (deliveredOf tr)) (left c)) ?_ ?_
  · exact (Seq.nil_append _).symm
  · rintro tr c ⟨cx, n⟩ c' es hI hC hs
    obtain ⟨rfl, rfl⟩ := step_read hs
    rw [deliveredOf_snoc, Seq.ofList_append, Seq.append_assoc, hI, (pollRead_spec hC).1]

/-- **A chain is the concatenation of its readers.**  Whatever they give at a time, and however
often they are pending, if every buffer has room that `first` is ready to fill: what is delivered is
the beginning of the bytes of `first` followed by those of `second`, and the end is reported to a
buffer with room only after all of them. -/
theorem chain_concatenates (h : Run step Roomy (chain first second) tr c) :
    (∃ rest, Seq.append (LawfulSource.rest first) (LawfulSource.rest second) =
      Seq.append (Seq.ofList (deliveredOf tr)) rest) ∧
    ∀ op c' es n, Roomy tr c op → step c op = some (c', es) → 0 < n → .delivered n [] ∈ es →
      Seq.append (LawfulSource.rest first) (LawfulSource.rest second) =
        Seq.ofList (deliveredOf tr) := by
  have hleft := left_run h
  refine ⟨⟨_, hleft⟩, ?_⟩
  rintro ⟨cx, m⟩ c' es n hC hs hn hmem
  obtain ⟨rfl, rfl⟩ := step_read hs
  obtain ⟨rfl, hr⟩ := answer_end (mem_singleton.mp hmem).symm
  rw [hleft, (pollRead_spec hC).2 hn hr, Seq.append_nil]

/-- Three bytes, of which the first two are in `first`. -/
def three : Chain Chunks Chunks := chain ⟨[some [1, 2]], by decide⟩ ⟨[none, some [3]], by decide⟩

theorem chain_concatenates_three : ∃ (c : Chain Chunks Chunks) (tr : List Ev),
    Run step Roomy three tr c ∧ deliveredOf tr = [1, 2, 3] ∧
    Seq.append (LawfulSource.rest three.first) (LawfulSource.rest three.second) =
      Seq.ofList [1, 2, 3] := by
  have h : Run step Roomy three _ _ :=
    (((Run.nil.snoc (i := .read 0 1) (.inl (by decide)) rfl).snoc (i := .read 0 4)
      (.inl (by decide)) rfl).snoc (i := .read 0 4) (.inl (by decide)) rfl).snoc
      (i := .read 0 4) (.inl (by decide)) rfl
  exact ⟨_, _, h, rfl, (chain_concatenates h).2 (.read 0 4) _ _ 4 (.inl (by decide)) rfl
    (by decide) (by decide)⟩

/-- **A read into a buffer without room** makes the chain skip `first`: only the last byte of three
is delivered before the end. -/
theorem chain_skips : ∃ (c : Chain Chunks Chunks) (tr : List Ev), Run step Any three tr c ∧
    .delivered 4 [] ∈ tr ∧ deliveredOf tr = [3] ∧
    ¬ ∃ rest, Seq.append (LawfulSource.rest three.first) (LawfulSource.rest three.second) =
      Seq.append (Seq.ofList (deliveredOf tr)) rest := by
  refine ⟨_, _, run_exec [.read 0 0, .read 0 4, .read 0 4] rfl, by decide, rfl, ?_⟩
  rintro ⟨rest, h⟩
  have hfirst : LawfulSource.rest three.first =
      Seq.append (Seq.ofList [1]) (Seq.ofList [2]) := Seq.ofList_append [1] [2]
  have htake := congrArg (Seq.take 1) h
  rw [hfirst, Seq.append_assoc] at htake
  have h1 := take_ofList_append [1]
    (Seq.append (Seq.ofList [2]) (LawfulSource.rest three.second)) 0
  have h3 := take_ofList_append [3] rest 0
  have : ([1] : List Byte) = [3] := h1.symm.trans (htake.trans h3)
  exact absurd this (by decide)

end Chain

end OhosFfrt.Io
