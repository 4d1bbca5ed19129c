import OhosFfrt.Io.Script
import OhosFfrt.Io.Transfer
import OhosFfrt.Lib.Polling

/-!
# `io::copy_bidirectional`

Two directions share two streams: the reader of the one is the writer of the other.  A poll polls
first the one until it returns, then the other.  What a direction reads is not changed by what the
other writes (`Faithful`), and both are forwarded (`both_forwarded`).
-/

namespace OhosFfrt.Io

open Basic Lib.Files Lib.Polling Lib.Runs Io.Traits List Option
open Io.Transfer (Call readOf AtEnd)

/-- A stream of both kinds: a read is no write. -/
class LawfulDuplex (S : Type*) extends AsyncRead S, LawfulWriter S where
  consumed_read : ∀ s cx n, consumed (pollRead s cx n).2 = consumed s

/-! ## The directions -/

/-- `CopyDirection`; the fields of the transfer are `buf`, `pos`, `cap`, `amount` and `eof`. -/
structure CopyDirection where
  state : Transfer
  done : Bool
  deriving DecidableEq, Repr

namespace CopyDirection

/-- `CopyDirection::new`. -/
def new (size : ℕ) : CopyDirection := ⟨.new (max size 1), false⟩

/-- What a call leads to: `poll_copy_direction` returns `result`, or goes on. -/
structure Next (R W : Type*) where
  direction : CopyDirection
  reader : R
  writer : W
  result : Option (Poll (Result ℕ))
  calls : List Call

/-- `poll_copy_direction`: the next call. -/
def next {R W : Type*} [AsyncRead R] [AsyncWrite W] (this : CopyDirection) (reader : R) (writer : W)
    (cx : Waker) : Option (Next R W) :=
  if this.done then some ⟨this, reader, writer, some (.ready (.ok this.state.amount)), []⟩
  else
    (this.state.next pollShutdown "failed to copy bidirectional stream" reader writer cx).map
      fun n => ⟨⟨n.state, n.result.any Poll.isOk⟩, n.reader, n.writer, n.result, n.calls⟩

variable {R W : Type*} {base : List Byte} {cs : List Call} {d : CopyDirection} {r : R} {w w' : W}
  {cx : Waker} {n : Next R W}

/-- **A direction is faithful**: its transfer is exact, and it is done when its writer is shut down.
-/
structure Faithful [LawfulWriter W] (base : List Byte) (cs : List Call) (d : CopyDirection)
    (w : W) : Prop where
  exact : Transfer.Exact base cs d.state w
  done : d.done = true ↔ .close (.ready (.ok ())) ∈ cs
  eof : d.done = true → d.state.eof = true

theorem faithful_new [LawfulWriter W] (size : ℕ) (w : W) :
    Faithful (LawfulWriter.consumed w) [] (new size) w where
  exact := Transfer.exact_new (by omega) w
  done := by simp [new]
  eof := nofun

theorem Faithful.congr [LawfulWriter W] (h : Faithful base cs d w)
    (hw : LawfulWriter.consumed w' = LawfulWriter.consumed w) : Faithful base cs d w' where
  exact := { h.exact with bytes := hw ▸ h.exact.bytes }
  done := h.done
  eof := h.eof

/-- **What may be called**, after the calls `cs`: the writer, which has `taken` this much, is shut
down after the end of the reader, with all taken, and once; nothing is read after the end. -/
structure Orderly (base taken : List Byte) (cs cs' : List Call) : Prop where
  close : ∀ q, .close q ∈ cs' →
    AtEnd cs ∧ taken = base ++ readOf cs ∧ .close (.ready (.ok ())) ∉ cs
  read : ∀ k q, .read k q ∈ cs' → ¬ AtEnd cs

/-- A direction that returns `Ok` is done, and tells how much was read. -/
def Complete (cs : List Call) (k : ℕ) : Prop :=
  .close (.ready (.ok ())) ∈ cs ∧ k = (readOf cs).length

section
variable [LawfulDuplex R] [LawfulWriter W]

theorem faithful_next (h : Faithful base cs d w) (hn : d.next r w cx = some n) :
    Faithful base (cs ++ n.calls) n.direction n.writer := by
  unfold next at hn
  split_ifs at hn with hdone
  · cases hn
    rw [append_nil]
    exact h
  · obtain ⟨t, ht, rfl⟩ := map_eq_some_iff.mp hn
    have hnot : .close (.ready (.ok ())) ∉ cs := fun hmem => hdone (h.done.mpr hmem)
    refine ⟨h.exact.next LawfulWriter.consumed_shutdown ht, ?_, ?_⟩
    · rw [mem_append, or_iff_right hnot]
      cases Transfer.next_called ht <;> simp [Poll.isOk]
    · cases Transfer.next_called ht with
      | closed _ he => exact fun _ => he
      | _ => simp [Poll.isOk]

theorem consumed_next (hn : d.next r w cx = some n) :
    LawfulWriter.consumed n.reader = LawfulWriter.consumed r := by
  have hread := LawfulDuplex.consumed_read r cx d.state.buf.length
  unfold next at hn
  split_ifs at hn
  · cases hn
    rfl
  · obtain ⟨t, ht, rfl⟩ := map_eq_some_iff.mp hn
    cases Transfer.next_called ht with
    | readPending _ _ hr | readFailed _ _ hr | filled _ _ hr =>
      rw [hr] at hread
      exact hread
    | _ => rfl

theorem orderly_next (h : Faithful base cs d w) (hn : d.next r w cx = some n) :
    Orderly base (LawfulWriter.consumed w) cs n.calls := by
  unfold next at hn
  split_ifs at hn with hdone
  · cases hn
    exact ⟨nofun, nofun⟩
  · obtain ⟨t, ht, rfl⟩ := map_eq_some_iff.mp hn
    have hnot : .close (.ready (.ok ())) ∉ cs := fun hmem => hdone (h.done.mpr hmem)
    have hclose : d.state.cap ≤ d.state.pos → d.state.eof = true →
        AtEnd cs ∧ LawfulWriter.consumed w = base ++ readOf cs ∧
          .close (.ready (.ok ())) ∉ cs := by
      intro hp he
      refine ⟨h.exact.eof.mp he, ?_, hnot⟩
      rw [h.exact.bytes, Transfer.unwritten_nil hp, append_nil]
    have hread : d.state.eof = false → ¬ AtEnd cs := by
      intro he hend
      rw [h.exact.eof.mpr hend] at he
      cases he
    cases Transfer.next_called ht with
    | readPending _ he | readFailed _ he | filled _ he => exact ⟨by simp, fun _ _ _ => hread he⟩
    | closePending hp he | closeFailed hp he | closed hp he =>
      exact ⟨fun _ _ => hclose hp he, by simp⟩
    | _ => exact ⟨by simp, by simp⟩

theorem complete_next (h : Faithful base cs d w) (hn : d.next r w cx = some n) {k : ℕ}
    (hr : n.result = some (.ready (.ok k))) : Complete (cs ++ n.calls) k := by
  have h' := faithful_next h hn
  have hdone : n.direction.done = true ∧ n.direction.state.amount = k := by
    unfold next at hn
    split_ifs at hn with hdone
    · cases hn
      simp only [some.injEq, Poll.ready.injEq, Except.ok.injEq] at hr
      exact ⟨hdone, hr⟩
    · obtain ⟨t, ht, rfl⟩ := map_eq_some_iff.mp hn
      cases Transfer.next_called ht with
      | closed => simpa [Poll.isOk] using hr
      | _ => simp at hr
  have hamount := h'.exact.amount
  have hcap := h'.exact.drained (h'.eof hdone.1)
  rw [Transfer.length_unwritten, hcap, hdone.2] at hamount
  refine ⟨h'.done.mp hdone.1, ?_⟩
  omega

end

end CopyDirection

/-! ## The future -/

/-- The calls of the two directions. -/
inductive DirectionCall
  | first (c : Call)
  | second (c : Call)

/-- The future of `copy_bidirectional_with_sizes`. -/
structure CopyBidirectional (A B : Type*) where
  a : A
  b : B
  aToB : CopyDirection
  bToA : CopyDirection
  first : Option (Poll (Result ℕ))
  finished : Bool

namespace CopyBidirectional

variable {A B : Type*}

def copyBidirectionalWithSizes (a : A) (b : B) (aToBBufferSize bToABufferSize : ℕ) :
    CopyBidirectional A B where
  a := a
  b := b
  aToB := .new aToBBufferSize
  bToA := .new bToABufferSize
  first := none
  finished := false

def copyBidirectional (a : A) (b : B) : CopyBidirectional A B :=
  copyBidirectionalWithSizes a b (8 * 1024) (8 * 1024)

/-- The result of both directions. -/
def both (first second : Poll (Result ℕ)) : Poll (Result (ℕ × ℕ)) :=
  match first, second with
  | .ready (.error e), _ => .ready (.error e)
  | _, .ready (.error e) => .ready (.error e)
  | .ready (.ok first), .ready (.ok second) => .ready (.ok (first, second))
  | _, _ => .pending

/-- **The next call of a poll.** -/
def next [AsyncRead A] [AsyncWrite A] [AsyncRead B] [AsyncWrite B] (this : CopyBidirectional A B)
    (cx : Waker) :
    Option (CopyBidirectional A B × Option (Poll (Result (ℕ × ℕ))) × List DirectionCall) :=
  if this.finished then none
  else
    match this.first with
    | none =>
      (this.aToB.next this.a this.b cx).map fun n =>
        ({ this with a := n.reader, b := n.writer, aToB := n.direction, first := n.result }, none,
          n.calls.map .first)
    | some first =>
      (this.bToA.next this.b this.a cx).map fun n =>
        let result := n.result.map (both first)
        ({ this with
            a := n.writer
            b := n.reader
            bToA := n.direction
            first := if n.result.isSome then none else some first
            finished := result.any fun r => r matches .ready _ }, result, n.calls.map .second)

/-- The calls of the first direction. -/
def firstOf (cs : List DirectionCall) : List Call :=
  cs.filterMap fun
    | .first c => some c
    | .second _ => none

/-- The calls of the second direction. -/
def secondOf (cs : List DirectionCall) : List Call :=
  cs.filterMap fun
    | .first _ => none
    | .second c => some c

theorem firstOf_append (cs cs' : List DirectionCall) :
    firstOf (cs ++ cs') = firstOf cs ++ firstOf cs' :=
  filterMap_append

theorem secondOf_append (cs cs' : List DirectionCall) :
    secondOf (cs ++ cs') = secondOf cs ++ secondOf cs' :=
  filterMap_append

@[simp] theorem calls_first (cs : List Call) :
    firstOf (cs.map .first) = cs ∧ secondOf (cs.map .first) = [] := by
  simp [firstOf, secondOf, filterMap_map]

@[simp] theorem calls_second (cs : List Call) :
    firstOf (cs.map .second) = [] ∧ secondOf (cs.map .second) = cs := by
  simp [firstOf, secondOf, filterMap_map]

variable [LawfulDuplex A] [LawfulDuplex B] {a : A} {b : B} {c c' : CopyBidirectional A B}
  {cx : Waker} {r : Option (Poll (Result (ℕ × ℕ)))} {cs cs' : List DirectionCall}

/-- **Both directions are faithful**, from the streams `a` and `b` on. -/
structure Forwards (a : A) (b : B) (cs : List DirectionCall) (c : CopyBidirectional A B) :
    Prop where
  ab : CopyDirection.Faithful (LawfulWriter.consumed b) (firstOf cs) c.aToB c.b
  ba : CopyDirection.Faithful (LawfulWriter.consumed a) (secondOf cs) c.bToA c.a
  /-- What the first direction has returned. -/
  first : ∀ k, c.first = some (.ready (.ok k)) → CopyDirection.Complete (firstOf cs) k

theorem both_ok {p q : Poll (Result ℕ)} {x y : ℕ} (h : both p q = .ready (.ok (x, y))) :
    p = .ready (.ok x) ∧ q = .ready (.ok y) := by
  unfold both at h
  split at h
  · cases h
  · cases h
  · simpa using h
  · cases h

/-- **What a round does.** -/
structure Advances (a : A) (b : B) (cs : List DirectionCall) (c : CopyBidirectional A B)
    (c' : CopyBidirectional A B) (r : Option (Poll (Result (ℕ × ℕ))))
    (cs' : List DirectionCall) : Prop where
  forwards : Forwards a b (cs ++ cs') c'
  ab : CopyDirection.Orderly (LawfulWriter.consumed b) (LawfulWriter.consumed c.b) (firstOf cs)
    (firstOf cs')
  ba : CopyDirection.Orderly (LawfulWriter.consumed a) (LawfulWriter.consumed c.a) (secondOf cs)
    (secondOf cs')
  ok : ∀ x y, r = some (.ready (.ok (x, y))) → CopyDirection.Complete (firstOf (cs ++ cs')) x ∧
    CopyDirection.Complete (secondOf (cs ++ cs')) y

theorem next_advances (h : Forwards a b cs c) (hn : c.next cx = some (c', r, cs')) :
    Advances a b cs c c' r cs' := by
  unfold next at hn
  split_ifs at hn
  split at hn
  · obtain ⟨n, hd, he⟩ := map_eq_some_iff.mp hn
    simp only [Prod.mk.injEq] at he
    obtain ⟨rfl, rfl, rfl⟩ := he
    refine ⟨⟨?_, ?_, fun k hk => ?_⟩, ?_, ?_, nofun⟩
    · rw [firstOf_append, (calls_first _).1]
      exact CopyDirection.faithful_next h.ab hd
    · rw [secondOf_append, (calls_first _).2, append_nil]
      exact h.ba.congr (CopyDirection.consumed_next hd)
    · rw [firstOf_append, (calls_first _).1]
      exact CopyDirection.complete_next h.ab hd hk
    · rw [(calls_first _).1]
      exact CopyDirection.orderly_next h.ab hd
    · rw [(calls_first _).2]
      exact ⟨nofun, nofun⟩
  · next first hfirst =>
    obtain ⟨n, hd, he⟩ := map_eq_some_iff.mp hn
    simp only [Prod.mk.injEq] at he
    obtain ⟨rfl, rfl, rfl⟩ := he
    have hcomplete : ∀ k, first = .ready (.ok k) →
        CopyDirection.Complete (firstOf (cs ++ n.calls.map .second)) k := by
      rintro k rfl
      rw [firstOf_append, (calls_second _).1, append_nil]
      exact h.first k hfirst
    refine ⟨⟨?_, ?_, fun k hk => ?_⟩, ?_, ?_, fun x y hr => ?_⟩
    · rw [firstOf_append, (calls_second _).1, append_nil]
      exact h.ab.congr (CopyDirection.consumed_next hd)
    · rw [secondOf_append, (calls_second _).2]
      exact CopyDirection.faithful_next h.ba hd
    · simp only at hk
      split_ifs at hk
      exact hcomplete k (some.inj hk)
    · rw [(calls_second _).1]
      exact ⟨nofun, nofun⟩
    · rw [(calls_second _).2]
      exact CopyDirection.orderly_next h.ba hd
    · obtain ⟨q, hq, hboth⟩ := map_eq_some_iff.mp hr
      obtain ⟨hx, rfl⟩ := both_ok hboth
      refine ⟨hcomplete x hx, ?_⟩
      rw [secondOf_append, (calls_second _).2]
      exact CopyDirection.complete_next h.ba hd hq

/-- **Both directions are forwarded faithfully.**  For all streams, whatever their calls return, and
all sizes of the buffers:

* of each direction, what its writer has taken followed by what is left of its buffer is what was
  read from its source;
* a stream is shut down only after the end of the other one, when it has taken all that was read
  there, and not again when this has succeeded; nothing is read from a stream after its end;
* `Ok((x, y))` is returned only when both are shut down, and `x` and `y` are the numbers of the
  bytes that were read. -/
theorem both_forwarded {size size' : ℕ} {tr : List (Ev DirectionCall (Poll (Result (ℕ × ℕ))))}
    {s : Polled (CopyBidirectional A B) Waker}
    (h : Run (drive next) Any ⟨copyBidirectionalWithSizes a b size size', none⟩ tr s) :
    LawfulWriter.consumed b ++ readOf (firstOf (callsOf tr)) =
      LawfulWriter.consumed s.future.b ++ s.future.aToB.state.unwritten ∧
    LawfulWriter.consumed a ++ readOf (secondOf (callsOf tr)) =
      LawfulWriter.consumed s.future.a ++ s.future.bToA.state.unwritten ∧
    ∀ op s' es, drive next s op = some (s', es) →
      CopyDirection.Orderly (LawfulWriter.consumed b) (LawfulWriter.consumed s.future.b)
        (firstOf (callsOf tr)) (firstOf (callsOf es)) ∧
      CopyDirection.Orderly (LawfulWriter.consumed a) (LawfulWriter.consumed s.future.a)
        (secondOf (callsOf tr)) (secondOf (callsOf es)) ∧
      ∀ x y, .returned (.ready (.ok (x, y))) ∈ es →
        CopyDirection.Complete (firstOf (callsOf (tr ++ es))) x ∧
        CopyDirection.Complete (secondOf (callsOf (tr ++ es))) y := by
  have hI : Forwards a b (callsOf tr) s.future := by
    refine drive_inv h ⟨?_, ?_, nofun⟩ fun _ _ _ _ _ _ hI hn => (next_advances hI hn).forwards
    · exact CopyDirection.faithful_new size b
    · exact CopyDirection.faithful_new size' a
  refine ⟨hI.ab.exact.bytes, hI.ba.exact.bytes, fun op s' es hs => ?_⟩
  rcases drive_step hs with ⟨-, rfl⟩ | ⟨cx, r, cs, hn, rfl⟩
  · exact ⟨⟨nofun, nofun⟩, ⟨nofun, nofun⟩, nofun⟩
  · have hadv := next_advances hI hn
    rw [callsOf_append tr, callsOf_step]
    simp only [returned_mem]
    exact ⟨hadv.ab, hadv.ba, hadv.ok⟩

instance : LawfulDuplex Script where
  consumed_read this cx n := by
    rcases this with ⟨_ | ⟨_ | (_ | _), _⟩, _, _, _⟩ <;> rfl

/-- Two bytes one way, with a buffer of one, and a byte the other way, for which it has to wait. -/
def threeBytes : Polled (CopyBidirectional Script Script) Waker :=
  ⟨copyBidirectionalWithSizes ⟨[.ready (.ok [1, 2])], [], [], []⟩
    ⟨[.pending, .ready (.ok [7])], [], [], []⟩ 0 2, none⟩

theorem both_forwarded_three : ∃ (s s' : Polled (CopyBidirectional Script Script) Waker)
    (tr : List (Ev DirectionCall (Poll (Result (ℕ × ℕ))))), Run (drive next) Any threeBytes tr s ∧
    drive next s .go = some (s', [.call (.second (.close (.ready (.ok ())))),
      .returned (.ready (.ok (2, 1)))]) ∧
    s'.future.b.taken = [1, 2] ∧ s'.future.a.taken = [7] ∧
    AtEnd (secondOf (callsOf tr)) := by
  have h : Run (drive next) Any threeBytes _ _ :=
    run_exec [.poll 0, .go, .go, .go, .go, .go, .go, .go, .poll 0, .go, .go, .go, .go] rfl
  have hs := ((both_forwarded h).2.2 .go _
    [.call (.second (.close (.ready (.ok ())))), .returned (.ready (.ok (2, 1)))] rfl).2.1
  exact ⟨_, _, _, h, rfl, rfl, rfl, (hs.close (.ready (.ok ())) mem_cons_self).1⟩

end CopyBidirectional

end OhosFfrt.Io
