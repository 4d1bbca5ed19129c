import OhosFfrt.Io.Delimited
import OhosFfrt.Lib.Sessions

/-!
# `io`: dropped futures of `Lines::next_line` and `Split::next_segment`

The future of `next_line` has the `ReadLine` that it awaits, and with it the bytes of the line that
are consumed from the reader already; so has that of `next_segment`.  A drop that loses none of them
is harmless (`drops_harmless`).
-/

namespace OhosFfrt.Io

open Basic Lib.Files Lib.Pieces Lib.Polling Lib.Runs List Option
open Lib.Utf8 Io.Traits
open Lib.Sessions (Session Callee Left session returnedOf session_pieces)

/-! ## The futures -/

/-- A future goes on if what it awaits is ready. -/
def andThen {α β : Type*} (f : α → β) : Poll α → Poll β
  | .pending => .pending
  | .ready a => .ready (f a)

theorem readyValue_andThen {α β : Type*} (f : α → β) (p : Poll α) :
    readyValue (andThen f p) = (readyValue p).map f := by
  cases p <;> rfl

section
variable {R : Type*} [AsyncBufRead R]

/-- The future of `Split::next_segment`. -/
def Split.callee : Callee (Split R) (ReadUntil R) Waker (Poll (Result (Option (List Byte))))
    (Result (Option (List Byte))) where
  start s := ⟨s.inner, s.delimiter, [], 0⟩
  poll n f cx := (f.poll n cx).map fun r =>
    (andThen (fun result => segmentOf r.2.delimiter result r.2.buf) r.1, r.2)
  ready := readyValue
  stop f := ⟨f.reader, f.delimiter⟩

/-- The future of `Lines::next_line`. -/
def Lines.callee : Callee (Lines R) (ReadLine R) Waker
    (Poll (Except LineError (Option (List Char)))) (Except LineError (Option (List Char))) where
  start s := ⟨s.inner, [], [], false⟩
  poll n f cx := (f.poll n cx).map fun r =>
    (andThen (fun result => lineOf result r.2.line) r.1, r.2)
  ready := readyValue
  stop f := ⟨f.reader⟩

end

/-- **Only futures that have consumed nothing are dropped**; `holds` are the bytes that a future has
consumed. -/
def Untaken {σ φ β : Type*} (holds : φ → List Byte) (_ : List (Lib.Sessions.Ev β)) :
    Session σ φ → Lib.Sessions.Op Waker → Prop
  | .waiting f, .drop => holds f = []
  | _, _ => True

instance {σ φ β : Type*} (holds : φ → List Byte) (tr : List (Lib.Sessions.Ev β)) (s : Session σ φ)
    (op : Lib.Sessions.Op Waker) : Decidable (Untaken holds tr s op) :=
  match s, op with
  | .waiting f, .drop => inferInstanceAs (Decidable (holds f = []))
  | .waiting _, .poll _ _ => isTrue trivial
  | .idle _, _ => isTrue trivial

/-- **The session is the same as without any drop.**  Uncancelled calls, one after the other, return
what it has returned; every byte taken from the reader was returned, or is held by the future under
way; and this future, or a new one, can be polled to its end, and returns what the next of the
uncancelled calls returns. -/
def Faithful {σ φ β : Type*} (c : Callee σ φ Waker (Poll β) β) (left : σ → List Byte)
    (holds : φ → List Byte) (call : ℕ → (ℕ → Waker) → σ → Option (β × σ)) (r : σ)
    (tr : List (Lib.Sessions.Ev β)) (s : Session σ φ) : Prop :=
  (∃ given, left r = given ++ (s.held holds ++ left (s.resource c)) ∧
    ∀ ws, ws.length = (returnedOf tr).length → Gives left call ws r (returnedOf tr) given) ∧
  ∀ w, ∃ N b f, (∀ n, N ≤ n → complete (c.poll n) c.ready n w (s.future c) = some (b, f)) ∧
    ∀ ws, ws.length = (returnedOf tr).length + 1 →
      ∃ given, Gives left call ws r (returnedOf tr ++ [b]) given

section
variable {R : Type*} [FiniteBufRead R] {d : Byte} {l : List Byte} {text : List Char}
  {f f' : ReadUntil R} {cx : Waker}

open FiniteBufRead (rest)

/-! ## Segments -/

theorem Turns.weak {φ α : Type*} {Reads : φ → Prop} {Done : α → φ → Prop} {reader : φ → R} {f : φ}
    {q : Option (φ × Option (Poll α))} (h : Turns Reads Done reader f q) :
    ∃ f' r, q = some (f', r) ∧ ((∃ b, r.bind readyValue = some b ∧ Done b f') ∨
      r.bind readyValue = none ∧ Reads f') := by
  obtain ⟨f', r, hq, hdone | ⟨hnone, hreads, -⟩⟩ := h
  · exact ⟨f', r, hq, .inl hdone⟩
  · exact ⟨f', r, hq, .inr ⟨hnone, hreads⟩⟩

theorem Split.poll_cases {n : ℕ}
    {p : Poll (Result (Option (List Byte)))} (hf : ReadUntil.Reads d l [] f)
    (h : Split.callee.poll n f cx = some (p, f')) :
    readyValue p = some (.ok ((pieces d l).head?.map (withoutDelimiter d))) ∧
      f'.delimiter = d ∧ rest f'.reader = afterPiece d l ∨
    readyValue p = none ∧ ReadUntil.Reads d l [] f' := by
  obtain ⟨⟨q, f₁⟩, hq, hr⟩ := map_eq_some_iff.mp h
  cases hr
  rw [readyValue_andThen]
  have hturn : ∀ (f : ReadUntil R) cx, ReadUntil.Reads d l [] f → _ :=
    fun _ cx h => (ReadUntil.turn_turns h cx).weak
  rcases loop_of_turn hturn hf hq with ⟨b, hb, hdone⟩ | ⟨hnone, hreads⟩
  · refine .inl ⟨?_, hdone.2.2.2, hdone.2.2.1⟩
    rw [hb, map_some, hdone.segmentOf_eq]
  · exact .inr ⟨by rw [hnone]; rfl, hreads⟩

theorem Split.future_completes (hf : ReadUntil.Reads d l [] f) (w : ℕ → Waker) :
    ∃ N f', ∀ n, N ≤ n → complete (Split.callee.poll n) readyValue n w f =
      some (.ok ((pieces d l).head?.map (withoutDelimiter d)), f') := by
  obtain ⟨N, b, f', hdone, hN⟩ := hf.completes w
  refine ⟨N, f', fun n hn => ?_⟩
  have hmap : complete (Split.callee.poll n) readyValue n w f =
      (complete (ReadUntil.poll n) readyValue n w f).map fun r =>
        (segmentOf r.2.delimiter r.1 r.2.buf, r.2) :=
    complete_map (ReadUntil.poll n) _ (fun r => segmentOf r.2.delimiter r.1 r.2.buf)
      (fun _ => readyValue_andThen _ _) n w f
  rw [hmap, hN n hn, map_some, hdone.segmentOf_eq]

/-! ## Lines -/

theorem Lines.poll_cases {n : ℕ} {f f' : ReadLine R}
    {p : Poll (Except LineError (Option (List Char)))} (hf : ReadLine.Reads text [] f)
    (h : Lines.callee.poll n f cx = some (p, f')) :
    readyValue p = some (.ok ((pieces '\n' text).head?.map withoutNewline)) ∧
      rest f'.reader = encode (afterPiece '\n' text) ∨
    readyValue p = none ∧ ReadLine.Reads text [] f' := by
  obtain ⟨⟨q, f₁⟩, hq, hr⟩ := map_eq_some_iff.mp h
  cases hr
  rw [hf.poll_eq] at hq
  rw [readyValue_andThen]
  have hturn : ∀ (f : ReadLine R) cx, ReadLine.Reads text [] f → _ :=
    fun _ cx h => (ReadLine.turn_turns h cx).weak
  rcases loop_of_turn hturn hf hq with ⟨b, hb, hdone⟩ | ⟨hnone, hreads⟩
  · refine .inl ⟨?_, hdone.2.2⟩
    rw [hb, map_some, hdone.lineOf_eq]
  · exact .inr ⟨by rw [hnone]; rfl, hreads⟩

theorem Lines.future_completes {f : ReadLine R} (hf : ReadLine.Reads text [] f) (w : ℕ → Waker) :
    ∃ N f', ∀ n, N ≤ n → complete (Lines.callee.poll n) readyValue n w f =
      some (.ok ((pieces '\n' text).head?.map withoutNewline), f') := by
  obtain ⟨N, b, f', hdone, hN⟩ := hf.completes w
  refine ⟨N, f', fun n hn => ?_⟩
  have hmap : complete (Lines.callee.poll n) readyValue n w f =
      (complete (ReadLine.poll n) readyValue n w f).map fun r => (lineOf r.1 r.2.line, r.2) :=
    complete_map (ReadLine.poll n) _ (fun r => lineOf r.1 r.2.line)
      (fun _ => readyValue_andThen _ _) n w f
  rw [hmap, hN n hn, map_some, hdone.lineOf_eq]

/-! ## Sessions -/

theorem Cut.append_eq {taken : List Byte} {r : R} (h : Cut d l taken r) : l = taken ++ rest r := by
  rw [← firstPiece_append_afterPiece d l, h.first, h.after, append_assoc,
    firstPiece_append_afterPiece]

theorem mapIdx_eq_map_range {α β : Type*} (F : ℕ → β) (l : List α) :
    l.mapIdx (fun i _ => F i) = (List.range l.length).map F := by
  apply ext_getElem
  · simp
  · simp

theorem faithful_of_pieces {α σ φ β : Type*} [DecidableEq α] {a : α} {p : List α}
    {c : Callee σ φ Waker (Poll β) β} {left : σ → List Byte} {holds : φ → List Byte}
    {call : ℕ → (ℕ → Waker) → σ → Option (β × σ)} {P : List α → σ → Prop}
    {I : List α → φ → Prop} {r : σ} {tr : List (Lib.Sessions.Ev β)} {s : Session σ φ}
    (out : Option (List α) → β) (enc : List α → List Byte)
    (henc : ∀ p q, enc (p ++ q) = enc p ++ enc q) (hr : left r = enc p)
    (hgives : ∀ ws, Gives left call ws r (ws.mapIdx fun i _ => out (pieces a p)[i]?)
      (enc ((pieces a p).take ws.length).flatten))
    (hP : ∀ p r, P p r → left r = enc p)
    (hI : ∀ p f, I p f → enc p = holds f ++ left (c.stop f))
    (hstart : ∀ p r, P p r → I p (c.start r))
    (hcompletes : ∀ p f, I p f → ∀ w, ∃ N f', ∀ n, N ≤ n →
      complete (c.poll n) c.ready n w f = some (out (pieces a p).head?, f'))
    (hret : returnedOf tr =
      (List.range (returnedOf tr).length).map fun i => out (pieces a p)[i]?)
    (hleft : Left P I ((pieces a p).drop (returnedOf tr).length).flatten s) :
    Faithful c left holds call r tr s := by
  generalize hk : (returnedOf tr).length = k at hret hleft
  unfold Faithful
  rw [hk]
  refine ⟨⟨enc ((pieces a p).take k).flatten, ?_, ?_⟩, ?_⟩
  · have hsplit : enc p = enc ((pieces a p).take k).flatten ++
        enc ((pieces a p).drop k).flatten := by
      rw [← henc, ← flatten_append, take_append_drop, flatten_pieces]
    rw [hr, hsplit]
    congr 1
    cases s with
    | idle => exact (hP _ _ hleft).symm
    | waiting => exact hI _ _ hleft
  · intro ws hws
    have h := hgives ws
    rw [mapIdx_eq_map_range, hws, ← hret] at h
    exact h
  · intro w
    have hfuture : I ((pieces a p).drop k).flatten (s.future c) := by
      cases s with
      | idle => exact hstart _ _ hleft
      | waiting => exact hleft
    obtain ⟨N, f', hN⟩ := hcompletes _ _ hfuture w
    rw [pieces_drop, head?_drop] at hN
    refine ⟨N, _, f', hN, fun ws hws => ?_⟩
    have h := hgives ws
    rw [mapIdx_eq_map_range, hws, range_succ, map_append, ← hret] at h
    exact ⟨_, h⟩

/-- **Drops of futures that have consumed nothing are harmless.** -/
theorem drops_harmless (r : R) (d : Byte) :
    (∀ tr s, Run (session Split.callee) (Untaken ReadUntil.buf) (.idle ⟨r, d⟩) tr s →
      Faithful Split.callee (fun s : Split R => rest s.inner) ReadUntil.buf Split.nextSegment
        ⟨r, d⟩ tr s) ∧
    ∀ text, rest r = encode text →
      ∀ tr s, Run (session Lines.callee) (Untaken ReadLine.bytes) (.idle ⟨r⟩) tr s →
        Faithful Lines.callee (fun s : Lines R => rest s.inner) ReadLine.bytes Lines.nextLine
          ⟨r⟩ tr s := by
  refine ⟨?_, ?_⟩
  · intro tr s h
    have hstart : ∀ l (s : Split R), s.delimiter = d ∧ rest s.inner = l →
        ReadUntil.Reads d l [] (Split.callee.start s) := by
      rintro l s ⟨hd, rfl⟩
      exact ⟨hd, [], rfl, rfl, rfl, rfl⟩
    have hdrop : ∀ l (f : ReadUntil R), f.buf = [] → ReadUntil.Reads d l [] f →
        f.delimiter = d ∧ rest f.reader = l := by
      rintro l f hbuf ⟨hd, taken, htaken, -, hcut⟩
      obtain rfl : taken = [] := htaken.symm.trans hbuf
      exact ⟨hd, hcut.append_eq.symm⟩
    obtain ⟨hret, hleft⟩ := session_pieces (d := d)
      (fun p => Except.ok (p.map (withoutDelimiter d))) hstart
      (fun _ _ _ _ _ _ hf hp => Split.poll_cases hf hp) (fun _ => hdrop) h ⟨rfl, rfl⟩
    refine faithful_of_pieces (a := d) (fun p => .ok (p.map (withoutDelimiter d))) id
      (fun _ _ => rfl) rfl (nextSegment_gives r d) (fun _ _ hP => hP.2) ?_ hstart
      (fun _ _ hf w => Split.future_completes hf w) hret hleft
    rintro l f ⟨-, taken, rfl, -, hcut⟩
    exact hcut.append_eq
  · intro text hr tr s h
    have hstart : ∀ text (s : Lines R), rest s.inner = encode text →
        ReadLine.Reads text [] (Lines.callee.start s) := by
      intro text s hs
      exact ⟨rfl, rfl, by rw [← hs]; rfl, by rw [← hs]; rfl⟩
    have hdrop : ∀ text (f : ReadLine R), f.bytes = [] → ReadLine.Reads text [] f →
        rest f.reader = encode text := by
      rintro text f hbytes ⟨-, -, hcut⟩
      rw [hcut.append_eq, hbytes, nil_append]
    obtain ⟨hret, hleft⟩ := session_pieces (d := '\n')
      (fun p => Except.ok (p.map withoutNewline)) hstart
      (fun _ _ _ _ _ _ hf hp => Lines.poll_cases hf hp) (fun _ => hdrop) h hr
    exact faithful_of_pieces (a := '\n') (fun p => .ok (p.map withoutNewline)) encode
      encode_append hr (nextLine_gives hr) (fun _ _ hP => hP)
      (fun _ _ hf => hf.2.2.append_eq) hstart (fun _ _ hf w => Lines.future_completes hf w)
      hret hleft

end

/-- A line that comes in two chunks, with a pending call between them. -/
def twoChunks : Chunks where
  script := [some [97], none, some [10]]
  nonempty := by decide

/-- What is left of them when the future is pending. -/
def lastChunk : Chunks where
  script := [some [10]]
  nonempty := by decide

/-- An empty input. -/
def noChunk : Chunks where
  script := []
  nonempty := by decide

theorem nextLine_lastChunk : Lines.callee.poll 1 ⟨lastChunk, [], [], false⟩ 0 =
    some (.ready (.ok (some [])), ⟨noChunk, ['\n'], [], true⟩) := by
  have hvalue : fromUtf8 [10] = some ['\n'] := fromUtf8_encode ['\n']
  have hfinish : ReadLine.finish (R := Chunks) ⟨noChunk, [], [10], false⟩ =
      (⟨noChunk, ['\n'], [], true⟩, some (.ready (.ok 1))) := by
    rw [ReadLine.finish, hvalue]
    rfl
  have hturn : ReadLine.turn (R := Chunks) ⟨lastChunk, [], [], false⟩ 0 =
      some (⟨noChunk, ['\n'], [], true⟩, some (.ready (.ok 1))) := by
    rw [← hfinish]
    rfl
  have hpoll : ReadLine.poll (R := Chunks) 1 ⟨lastChunk, [], [], false⟩ 0 =
      some (.ready (.ok 1), ⟨noChunk, ['\n'], [], true⟩) := loop_return hturn 0
  simp only [Lines.callee, hpoll]
  rfl

/-- **A dropped future takes the bytes with it**: the calls return an empty segment and an empty
line, where without the drop they return one of one byte. -/
theorem drop_loses_bytes :
    (∃ tr s, Run (session Split.callee) Any (.idle ⟨twoChunks, lf⟩) tr s ∧
      returnedOf tr = [.ok (some [])] ∧
      Gives (fun s : Split Chunks => FiniteBufRead.rest s.inner) Split.nextSegment [fun _ => 0]
        ⟨twoChunks, lf⟩ [.ok (some [97])] [97, 10]) ∧
    ∃ tr s, Run (session Lines.callee) Any (.idle ⟨twoChunks⟩) tr s ∧
      returnedOf tr = [.ok (some [])] ∧
      Gives (fun s : Lines Chunks => FiniteBufRead.rest s.inner) Lines.nextLine [fun _ => 0]
        ⟨twoChunks⟩ [.ok (some ['a'])] [97, 10] := by
  refine ⟨⟨_, _, run_exec [.poll 3 0, .drop, .poll 1 0] rfl, rfl, ?_⟩, ?_⟩
  · exact nextSegment_gives twoChunks lf [fun _ => 0]
  · have htext : FiniteBufRead.rest twoChunks = encode ['a', '\n'] := by decide
    have hdropped : Run (session Lines.callee) Any (.idle ⟨twoChunks⟩) [.pending, .dropped]
        (.idle ⟨lastChunk⟩) := run_exec [.poll 3 0, .drop] rfl
    have hpoll : session Lines.callee (.idle ⟨lastChunk⟩) (.poll 1 0) =
        some (.idle ⟨noChunk⟩, [.returned (.ok (some []))]) := by
      have hnew : Session.future Lines.callee (.idle ⟨lastChunk⟩) =
          ⟨lastChunk, [], [], false⟩ := rfl
      simp only [session, hnew, nextLine_lastChunk]
      rfl
    exact ⟨_, _, hdropped.snoc trivial hpoll, rfl, nextLine_gives htext [fun _ => 0]⟩

/-- A line that comes late. -/
def lateChunk : Chunks where
  script := [none, some [97, 10]]
  nonempty := by decide

/-- A drop before anything is consumed: the line is returned. -/
theorem drops_harmless_late :
    (∃ tr s, Run (session Split.callee) (Untaken ReadUntil.buf) (.idle ⟨lateChunk, lf⟩) tr s ∧
      returnedOf tr = [.ok (some [97])] ∧
      Faithful Split.callee (fun s : Split Chunks => FiniteBufRead.rest s.inner) ReadUntil.buf
        Split.nextSegment ⟨lateChunk, lf⟩ tr s) ∧
    FiniteBufRead.rest lateChunk = encode ['a', '\n'] ∧
    ∃ tr s, Run (session Lines.callee) (Untaken ReadLine.bytes) (.idle ⟨lateChunk⟩) tr s ∧
      Lib.Sessions.Ev.dropped ∈ tr ∧
      Faithful Lines.callee (fun s : Lines Chunks => FiniteBufRead.rest s.inner) ReadLine.bytes
        Lines.nextLine ⟨lateChunk⟩ tr s := by
  obtain ⟨hsegments, hlines⟩ := drops_harmless lateChunk lf
  have htext : FiniteBufRead.rest lateChunk = encode ['a', '\n'] := by decide
  have hsplit : Run (session Split.callee) (Untaken ReadUntil.buf) (.idle ⟨lateChunk, lf⟩)
      [.pending, .dropped, .returned (.ok (some [97]))] (.idle ⟨noChunk, lf⟩) :=
    run_execIf [.poll 1 0, .drop, .poll 1 0] .nil rfl
  have hline : Run (session Lines.callee) (Untaken ReadLine.bytes) (.idle ⟨lateChunk⟩)
      [.pending, .dropped] (.idle ⟨lateChunk.tail⟩) := run_execIf [.poll 1 0, .drop] .nil rfl
  exact ⟨⟨_, _, hsplit, rfl, hsegments _ _ hsplit⟩, htext, _, _, hline, by decide,
    hlines _ htext _ _ hline⟩

end OhosFfrt.Io
