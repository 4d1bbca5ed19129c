import OhosFfrt.Io.Finite
import OhosFfrt.Lib.Polling
import OhosFfrt.Lib.Utf8
import Mathlib.Data.Prod.Lex

/-!
# `io`: `read_until`, `read_line`, `Split` and `Lines`

The loops of `ReadUntil::poll` and `ReadLine::poll` look for the delimiter in what the reader shows,
turn by turn.  What a turn leaves to do is stated once for the two loops (`Cut`, `Scanned`); that
the chunks do not matter is `delimited_pieces`.
-/

namespace OhosFfrt.Io

open Basic Lib.Files Lib.Pieces Lib.Polling Lib.Utf8 List Option
open Io.Traits

/-! ## The code -/

/-- The value, if ready. -/
def readyValue {α : Type*} : Poll α → Option α
  | .pending => none
  | .ready a => some a

/-- How much of `available` is used: up to the delimiter, and with it. -/
def scan (delimiter : Byte) (available : List Byte) : ℕ :=
  (available.findIdx? fun byte => byte = delimiter).elim available.length fun index => index + 1

structure ReadUntil (R : Type*) where
  reader : R
  delimiter : Byte
  buf : List Byte
  read : ℕ

/-- `io::Error`, as `ReadLine` returns it: an error of the reader, or one of the kind
`InvalidData`. -/
inductive LineError
  | io (e : Error)
  | invalidData
  deriving DecidableEq, Repr

structure ReadLine (R : Type*) where
  reader : R
  line : List Char
  bytes : List Byte
  done : Bool

structure Split (R : Type*) where
  inner : R
  delimiter : Byte

structure Lines (R : Type*) where
  inner : R

section
variable {R : Type*} [AsyncBufRead R]

/-- A turn of the loop of `ReadUntil::poll`. -/
def ReadUntil.turn (this : ReadUntil R) (cx : Waker) :
    Option (ReadUntil R × Option (Poll (Result ℕ))) :=
  match pollFillBuf this.reader cx with
  | (.pending, reader) => some ({ this with reader := reader }, some .pending)
  | (.ready (.error e), reader) => some ({ this with reader := reader }, some (.ready (.error e)))
  | (.ready (.ok available), reader) =>
    if available = [] then
      some ({ this with reader := reader }, some (.ready (.ok this.read)))
    else
      -- `available[used - 1]` panics out of bounds
      let used := scan this.delimiter available
      available[used - 1]?.bind fun last =>
        (consume reader used).map fun reader =>
          ({ this with
              reader := reader
              buf := this.buf ++ available.take used
              read := this.read + used },
            if last = this.delimiter then some (.ready (.ok (this.read + used))) else none)

/-- `ReadUntil::poll`. -/
def ReadUntil.poll (n : ℕ) : ReadUntil R → Waker → Option (Poll (Result ℕ) × ReadUntil R) :=
  loop ReadUntil.turn n

/-- The bytes become text, and the future is done. -/
def ReadLine.finish (this : ReadLine R) : ReadLine R × Option (Poll (Except LineError ℕ)) :=
  match fromUtf8 this.bytes with
  | none => ({ this with bytes := [], done := true }, some (.ready (.error .invalidData)))
  | some value =>
    ({ this with line := this.line ++ value, bytes := [], done := true },
      some (.ready (.ok this.bytes.length)))

/-- A turn of the loop of `ReadLine::poll`. -/
def ReadLine.turn (this : ReadLine R) (cx : Waker) :
    Option (ReadLine R × Option (Poll (Except LineError ℕ))) :=
  match pollFillBuf this.reader cx with
  | (.pending, reader) => some ({ this with reader := reader }, some .pending)
  | (.ready (.error e), reader) =>
    some ({ this with reader := reader }, some (.ready (.error (.io e))))
  | (.ready (.ok available), reader) =>
    if available = [] then
      (consume reader 0).map fun reader => ReadLine.finish { this with reader := reader }
    else
      let used := scan lf available
      available[used - 1]?.bind fun last =>
        (consume reader used).map fun reader =>
          let this := { this with reader := reader, bytes := this.bytes ++ available.take used }
          if last = lf then this.finish else (this, none)

/-- `ReadLine::poll`; it panics when the future is done. -/
def ReadLine.poll (n : ℕ) (this : ReadLine R) (cx : Waker) :
    Option (Poll (Except LineError ℕ) × ReadLine R) :=
  if this.done then none else loop ReadLine.turn n this cx

/-- `reader.read_until(delimiter, &mut buf).await`: its result and the buffer after it. -/
def readUntil (delimiter : Byte) (n : ℕ) (input : List Byte × (ℕ → Waker)) (reader : R) :
    Option ((Result ℕ × List Byte) × R) :=
  (complete (ReadUntil.poll n) readyValue n input.2 ⟨reader, delimiter, input.1, 0⟩).map fun r =>
    ((r.1, r.2.buf), r.2.reader)

/-- `reader.read_line(&mut line).await`: its result and the line after it. -/
def readLine (n : ℕ) (input : List Char × (ℕ → Waker)) (reader : R) :
    Option ((Except LineError ℕ × List Char) × R) :=
  (complete (ReadLine.poll n) readyValue n input.2 ⟨reader, input.1, [], false⟩).map fun r =>
    ((r.1, r.2.line), r.2.reader)

/-- What `next_segment` makes of the result of `read_until`. -/
def segmentOf (delimiter : Byte) (result : Result ℕ) (segment : List Byte) :
    Result (Option (List Byte)) :=
  match result with
  | .error e => .error e
  | .ok read =>
    .ok <|
      if read = 0 then none
      else if segment.getLast? = some delimiter then some segment.dropLast
      else some segment

/-- What `next_line` makes of the result of `read_line`. -/
def lineOf (result : Except LineError ℕ) (line : List Char) :
    Except LineError (Option (List Char)) :=
  match result with
  | .error e => .error e
  | .ok read =>
    .ok <|
      if read = 0 then none
      else if line.getLast? = some '\n' then
        let line := line.dropLast
        if line.getLast? = some '\r' then some line.dropLast else some line
      else some line

/-- `Split::next_segment`, awaited. -/
def Split.nextSegment (n : ℕ) (w : ℕ → Waker) (this : Split R) :
    Option (Result (Option (List Byte)) × Split R) :=
  (readUntil this.delimiter n ([], w) this.inner).map fun r =>
    (segmentOf this.delimiter r.1.1 r.1.2, { this with inner := r.2 })

/-- `Lines::next_line`, awaited. -/
def Lines.nextLine (n : ℕ) (w : ℕ → Waker) (this : Lines R) :
    Option (Except LineError (Option (List Char)) × Lines R) :=
  (readLine n ([], w) this.inner).map fun r => (lineOf r.1.1 r.1.2, { this with inner := r.2 })

end

/-! ## The pieces -/

/-- The piece without its delimiter. -/
def withoutDelimiter (d : Byte) (piece : List Byte) : List Byte :=
  if [d] <:+ piece then piece.take (piece.length - 1) else piece

/-- A line without one LF or CR LF at its end. -/
def withoutNewline (line : List Char) : List Char :=
  if ['\r', '\n'] <:+ line then line.take (line.length - 2)
  else if ['\n'] <:+ line then line.take (line.length - 1)
  else line

theorem suffix_singleton {α : Type*} {a : α} {l : List α} : [a] <:+ l ↔ l.getLast? = some a := by
  constructor
  · rintro ⟨l', rfl⟩
    simp
  · intro h
    exact ⟨l.dropLast, dropLast_append_getLast? a h⟩

theorem suffix_pair {α : Type*} {a b : α} {l : List α} :
    [a, b] <:+ l ↔ l.getLast? = some b ∧ l.dropLast.getLast? = some a := by
  constructor
  · rintro ⟨l', rfl⟩
    have hsplit : l' ++ [a, b] = (l' ++ [a]) ++ [b] := by simp
    rw [hsplit, dropLast_concat, getLast?_concat, getLast?_concat]
    exact ⟨rfl, rfl⟩
  · rintro ⟨hb, ha⟩
    refine ⟨l.dropLast.dropLast, ?_⟩
    have hpair : [a, b] = [a] ++ [b] := rfl
    rw [hpair, ← append_assoc, dropLast_append_getLast? a ha,
      dropLast_append_getLast? b hb]

theorem withoutDelimiter_eq (d : Byte) (piece : List Byte) : withoutDelimiter d piece =
    if piece.getLast? = some d then piece.dropLast else piece := by
  unfold withoutDelimiter
  simp only [suffix_singleton, dropLast_eq_take]

theorem withoutNewline_eq (line : List Char) : withoutNewline line =
    if line.getLast? = some '\n' then
      if line.dropLast.getLast? = some '\r' then line.dropLast.dropLast else line.dropLast
    else line := by
  have htwo : line.dropLast.dropLast = line.take (line.length - 2) := by
    rw [dropLast_eq_take, dropLast_eq_take, take_take, length_take]
    congr 1
    omega
  unfold withoutNewline
  rw [htwo, ← dropLast_eq_take]
  simp only [suffix_singleton, suffix_pair]
  by_cases hn : line.getLast? = some '\n'
  · simp only [hn, true_and, if_true]
  · simp only [hn, false_and, if_false]

/-! ## A turn -/

theorem scan_cons (d b : Byte) (bytes : List Byte) :
    scan d (b :: bytes) = if b = d then 1 else scan d bytes + 1 := by
  unfold scan
  rw [findIdx?_cons]
  by_cases hb : b = d
  · rw [if_pos (decide_eq_true hb), if_pos hb]
    rfl
  · rw [if_neg (by rwa [decide_eq_true_eq]), if_neg hb]
    cases List.findIdx? (fun byte => decide (byte = d)) bytes <;> rfl

theorem scan_eq (d : Byte) : ∀ bytes : List Byte, scan d bytes = (firstPiece d bytes).length
  | [] => rfl
  | b :: bytes => by
    rw [scan_cons, firstPiece, scan_eq d bytes]
    split_ifs <;> rfl

theorem take_scan (d : Byte) (bytes : List Byte) :
    bytes.take (scan d bytes) = firstPiece d bytes := by
  have happend := firstPiece_append_afterPiece d bytes
  rw [scan_eq]
  nth_rewrite 2 [← happend]
  exact take_left' rfl

theorem drop_scan (d : Byte) (bytes : List Byte) :
    bytes.drop (scan d bytes) = afterPiece d bytes := by
  have happend := firstPiece_append_afterPiece d bytes
  rw [scan_eq]
  nth_rewrite 2 [← happend]
  exact drop_left' rfl

theorem last_scan (d : Byte) : ∀ {bytes : List Byte}, bytes ≠ [] →
    ∃ last, bytes[scan d bytes - 1]? = some last ∧ (last = d ↔ d ∈ bytes)
  | [], h => absurd rfl h
  | b :: bytes, _ => by
    rw [scan_cons]
    split_ifs with hb
    · exact ⟨b, rfl, by simp [hb]⟩
    · by_cases hbytes : bytes = []
      · subst hbytes
        exact ⟨b, rfl, by simp [eq_comm]⟩
      · obtain ⟨last, hlast, hiff⟩ := last_scan d hbytes
        refine ⟨last, ?_, ?_⟩
        · have hpos : 0 < scan d bytes := by
            rw [scan_eq]
            exact length_pos_of_ne_nil (firstPiece_ne_nil d hbytes)
          rw [Nat.add_sub_cancel, getElem?_cons, if_neg (by omega), hlast]
        · rw [hiff, mem_cons, or_iff_right (Ne.symm hb)]

section
variable {R : Type*} [FiniteBufRead R] {d : Byte} {l taken : List Byte} {r : R}
  {text line : List Char} {this : ReadLine R} {cx : Waker} {bytes : List Byte}

open FiniteBufRead (rest delay)

/-- **What is to be done**: of the first piece of `l`, the bytes `taken` are consumed. -/
structure Cut (d : Byte) (l taken : List Byte) (r : R) : Prop where
  first : firstPiece d l = taken ++ firstPiece d (rest r)
  after : afterPiece d l = afterPiece d (rest r)

/-- What is left to consume, and the pending calls before more of it is shown. -/
def toWait (r : R) : ℕ ×ₗ ℕ := toLex ((rest r).length, delay r)

/-- The first piece is taken. -/
def Taken (d : Byte) (l taken : List Byte) (r : R) : Prop :=
  firstPiece d l = taken ∧ rest r = afterPiece d l

/-- **What a turn finds**, and what is left to do then. -/
inductive Scanned (d : Byte) (l taken : List Byte) (r : R) (cx : Waker) : Prop
  | pending (r' : R) (fill : pollFillBuf r cx = (.pending, r')) (cut : Cut d l taken r')
      (lt : toWait r' < toWait r)
  | ended (r' r'' : R) (fill : pollFillBuf r cx = (.ready (.ok []), r'))
      (consumed : consume r' 0 = some r'') (shown : Taken d l taken r')
      (whole : Taken d l taken r'')
  | found (bytes : List Byte) (r' r'' : R) (ne : bytes ≠ [])
      (fill : pollFillBuf r cx = (.ready (.ok bytes), r'))
      (last : bytes[scan d bytes - 1]? = some d) (consumed : consume r' (scan d bytes) = some r'')
      (whole : Taken d l (taken ++ bytes.take (scan d bytes)) r'')
  | more (bytes : List Byte) (b : Byte) (r' r'' : R) (ne : bytes ≠ [])
      (fill : pollFillBuf r cx = (.ready (.ok bytes), r'))
      (last : bytes[scan d bytes - 1]? = some b) (other : b ≠ d)
      (consumed : consume r' (scan d bytes) = some r'')
      (cut : Cut d l (taken ++ bytes.take (scan d bytes)) r'') (lt : toWait r'' < toWait r)

theorem scanned_end {r' : R} (h : Cut d l taken r)
    (hfill : pollFillBuf r cx = (.ready (.ok []), r')) : Scanned d l taken r cx := by
  obtain ⟨hrest, -, hend⟩ := FiniteBufRead.fill_ready _ _ _ _ hfill
  obtain ⟨r'', hconsume, hrest''⟩ := FiniteBufRead.consume_shown _ _ _ _ 0 hfill (Nat.zero_le _)
  have hnil := hend rfl
  have hfirst := h.first
  have hafter := h.after
  rw [hnil, firstPiece, append_nil] at hfirst
  rw [hnil, afterPiece] at hafter
  refine .ended r' r'' hfill hconsume ⟨hfirst, ?_⟩ ⟨hfirst, ?_⟩
  · rw [hrest, hnil, hafter]
  · rw [hrest'', hrest, hnil, hafter]
    rfl

theorem scanned_shown {r' : R} (h : Cut d l taken r)
    (hne : bytes ≠ []) (hfill : pollFillBuf r cx = (.ready (.ok bytes), r')) :
    Scanned d l taken r cx := by
  obtain ⟨hrest, ⟨more, hmore⟩, -⟩ := FiniteBufRead.fill_ready _ _ _ _ hfill
  have hle : scan d bytes ≤ bytes.length := by
    have hlen := congrArg List.length (firstPiece_append_afterPiece d bytes)
    rw [length_append] at hlen
    rw [scan_eq]
    omega
  obtain ⟨r'', hconsume, hrest''⟩ := FiniteBufRead.consume_shown _ _ _ _ _ hfill hle
  obtain ⟨last, hlast, hiff⟩ := last_scan d hne
  rw [hrest, ← hmore, drop_append_of_le_length hle, drop_scan] at hrest''
  have hfirst := h.first
  have hafter := h.after
  rw [← hmore] at hfirst hafter
  by_cases hd : d ∈ bytes
  · obtain ⟨hfirst', hafter'⟩ := firstPiece_append_of_mem more hd
    rw [hiff.mpr hd] at hlast
    refine .found bytes r' r'' hne hfill hlast hconsume ⟨?_, ?_⟩
    · rw [hfirst, hfirst', take_scan]
    · rw [hrest'', hafter, hafter']
  · obtain ⟨hfirst', hafter'⟩ := firstPiece_append_of_notMem more hd
    obtain ⟨hall, hnone⟩ := firstPiece_of_notMem hd
    rw [hnone, nil_append] at hrest''
    refine .more bytes last r' r'' hne hfill hlast (mt hiff.mp hd) hconsume ⟨?_, ?_⟩ ?_
    · rw [hfirst, hfirst', take_scan, hall, hrest'', append_assoc]
    · rw [hafter, hafter', hrest'']
    · refine Prod.Lex.toLex_lt_toLex.mpr (.inl ?_)
      have hpos := length_pos_of_ne_nil hne
      rw [hrest'', ← hmore, length_append]
      omega

theorem scanned (h : Cut d l taken r) (cx : Waker) : Scanned d l taken r cx := by
  generalize hfill : pollFillBuf r cx = q
  rcases q with ⟨_ | (e | bytes), r'⟩
  · obtain ⟨hrest, hdelay⟩ := FiniteBufRead.fill_pending _ _ _ hfill
    refine .pending r' hfill ⟨hrest ▸ h.first, hrest ▸ h.after⟩ ?_
    refine Prod.Lex.toLex_lt_toLex.mpr (.inr ⟨?_, hdelay⟩)
    rw [hrest]
  · exact absurd hfill (FiniteBufRead.fill_error _ _ _ _)
  · by_cases hne : bytes = []
    · subst hne
      exact scanned_end h hfill
    · exact scanned_shown h hne hfill

/-! ## The futures -/

/-- A turn ends the future, with `Done`, or leaves it with less to wait for. -/
def Turns {φ α : Type*} (Reads : φ → Prop) (Done : α → φ → Prop) (reader : φ → R) (f : φ)
    (q : Option (φ × Option (Poll α))) : Prop :=
  ∃ f' p, q = some (f', p) ∧ ((∃ a, p.bind readyValue = some a ∧ Done a f') ∨
    p.bind readyValue = none ∧ Reads f' ∧ toWait (reader f') < toWait (reader f))

namespace ReadUntil

/-- Part of the piece is taken. -/
def Reads (d : Byte) (l buf : List Byte) (this : ReadUntil R) : Prop :=
  this.delimiter = d ∧ ∃ taken, this.buf = buf ++ taken ∧ this.read = taken.length ∧
    Cut d l taken this.reader

/-- The piece is read. -/
def Done (d : Byte) (l buf : List Byte) (result : Result ℕ) (this : ReadUntil R) : Prop :=
  result = .ok (firstPiece d l).length ∧ this.buf = buf ++ firstPiece d l ∧
    rest this.reader = afterPiece d l ∧ this.delimiter = d

theorem turn_shown (this : ReadUntil R) {b : Byte} {r' r'' : R}
    (fill : pollFillBuf this.reader cx = (.ready (.ok bytes), r')) (ne : bytes ≠ [])
    (last : bytes[scan this.delimiter bytes - 1]? = some b)
    (consumed : consume r' (scan this.delimiter bytes) = some r'') :
    this.turn cx = some
      ({ this with
          reader := r''
          buf := this.buf ++ bytes.take (scan this.delimiter bytes)
          read := this.read + scan this.delimiter bytes },
        if b = this.delimiter then some (.ready (.ok (this.read + scan this.delimiter bytes)))
        else none) := by
  rw [ReadUntil.turn, fill]
  simp only [if_neg ne, last, consumed, bind_some, map_some]

theorem turn_turns {buf : List Byte} {this : ReadUntil R} (h : Reads d l buf this) (cx : Waker) :
    Turns (Reads d l buf) (Done d l buf) ReadUntil.reader this (this.turn cx) := by
  obtain ⟨rfl, taken, hbuf, hread, hcut⟩ := h
  cases scanned hcut cx with
  | pending r' fill cut lt =>
    have hturn : this.turn cx = some ({ this with reader := r' }, some .pending) := by
      rw [ReadUntil.turn, fill]
    exact ⟨_, _, hturn, .inr ⟨rfl, ⟨rfl, taken, hbuf, hread, cut⟩, lt⟩⟩
  | ended r' r'' fill consumed shown =>
    have hturn : this.turn cx =
        some ({ this with reader := r' }, some (.ready (.ok this.read))) := by
      rw [ReadUntil.turn, fill]
      rfl
    refine ⟨_, _, hturn, .inl ⟨_, rfl, ?_, ?_, shown.2, rfl⟩⟩
    · rw [hread, shown.1]
    · rw [shown.1]
      exact hbuf
  | found bytes r' r'' ne fill last consumed whole =>
    have hturn := this.turn_shown fill ne last consumed
    rw [if_pos rfl] at hturn
    have hused : (bytes.take (scan this.delimiter bytes)).length = scan this.delimiter bytes := by
      rw [take_scan, scan_eq]
    refine ⟨_, _, hturn, .inl ⟨_, rfl, ?_, ?_, whole.2, rfl⟩⟩
    · rw [whole.1, length_append, hused, hread]
    · rw [whole.1, ← append_assoc, ← hbuf]
  | more bytes b r' r'' ne fill last other consumed cut lt =>
    have hturn := this.turn_shown fill ne last consumed
    rw [if_neg other] at hturn
    have hused : (bytes.take (scan this.delimiter bytes)).length = scan this.delimiter bytes := by
      rw [take_scan, scan_eq]
    refine ⟨_, _, hturn, .inr ⟨rfl, ⟨rfl, _, ?_, ?_, cut⟩, lt⟩⟩
    · rw [hbuf, append_assoc]
    · rw [length_append, hused, hread]

end ReadUntil

theorem ReadUntil.Reads.completes {buf : List Byte} {this : ReadUntil R}
    (h : ReadUntil.Reads d l buf this) (w : ℕ → Waker) :
    ∃ N result f, ReadUntil.Done d l buf result f ∧
      ∀ n, N ≤ n → complete (ReadUntil.poll n) readyValue n w this = some (result, f) := by
  have hpoll : ∀ n f cx, ReadUntil.Reads d l buf f →
      ReadUntil.poll (R := R) n f cx = loop ReadUntil.turn n f cx := fun _ _ _ _ => rfl
  exact complete_of_turn hpoll (fun _ cx h => ReadUntil.turn_turns h cx) h w

/-- `read_until` gives the first piece. -/
theorem readUntil_completes (d : Byte) (input : List Byte × (ℕ → Waker)) (r : R) :
    ∃ N r', rest r' = afterPiece d (rest r) ∧ ∀ n, N ≤ n → readUntil d n input r =
      some ((.ok (firstPiece d (rest r)).length, input.1 ++ firstPiece d (rest r)), r') := by
  have hreads : ReadUntil.Reads d (rest r) input.1 ⟨r, d, input.1, 0⟩ :=
    ⟨rfl, [], (append_nil _).symm, rfl, rfl, rfl⟩
  obtain ⟨N, result, f, ⟨rfl, hbuf, hrest, -⟩, hN⟩ := hreads.completes input.2
  refine ⟨N, f.reader, hrest, fun n hn => ?_⟩
  rw [readUntil, hN n hn, ← hbuf]
  rfl

namespace ReadLine

/-- Part of the line is taken. -/
def Reads (text line : List Char) (this : ReadLine R) : Prop :=
  this.done = false ∧ this.line = line ∧ Cut lf (encode text) this.bytes this.reader

/-- The line is read. -/
def Done (text line : List Char) (result : Except LineError ℕ) (this : ReadLine R) : Prop :=
  result = .ok (encode (firstPiece '\n' text)).length ∧ this.line = line ++ firstPiece '\n' text ∧
    rest this.reader = encode (afterPiece '\n' text)

theorem finish_done (this : ReadLine R) (h : Taken lf (encode text) this.bytes this.reader) :
    ∃ f' result, this.finish = (f', some (.ready result)) ∧ Done text this.line result f' := by
  obtain ⟨hfirst, hafter⟩ := firstPiece_encode text
  have hbytes : this.bytes = encode (firstPiece '\n' text) := by rw [← h.1, hfirst]
  have hvalue : fromUtf8 this.bytes = some (firstPiece '\n' text) := by
    rw [hbytes, fromUtf8_encode]
  unfold ReadLine.finish
  rw [hvalue]
  refine ⟨_, _, rfl, ?_, rfl, ?_⟩
  · rw [hbytes]
  · rw [← hafter]
    exact h.2

theorem turn_shown (this : ReadLine R) {b : Byte} {r' r'' : R}
    (fill : pollFillBuf this.reader cx = (.ready (.ok bytes), r')) (ne : bytes ≠ [])
    (last : bytes[scan lf bytes - 1]? = some b) (consumed : consume r' (scan lf bytes) = some r'') :
    this.turn cx = some (
      if b = lf then
        finish { this with reader := r'', bytes := this.bytes ++ bytes.take (scan lf bytes) }
      else
        ({ this with reader := r'', bytes := this.bytes ++ bytes.take (scan lf bytes) },
          none)) := by
  rw [ReadLine.turn, fill]
  simp only [if_neg ne, last, consumed, bind_some, map_some]

theorem turn_turns (h : Reads text line this) (cx : Waker) :
    Turns (Reads text line) (Done text line) ReadLine.reader this (this.turn cx) := by
  obtain ⟨hnot, rfl, hcut⟩ := h
  cases scanned hcut cx with
  | pending r' fill cut lt =>
    have hturn : this.turn cx = some ({ this with reader := r' }, some .pending) := by
      rw [ReadLine.turn, fill]
    exact ⟨_, _, hturn, .inr ⟨rfl, ⟨hnot, rfl, cut⟩, lt⟩⟩
  | ended r' r'' fill consumed shown whole =>
    obtain ⟨f', result, hfinish, hdone⟩ := finish_done { this with reader := r'' } whole
    have hturn : this.turn cx = some (f', some (.ready result)) := by
      rw [ReadLine.turn, fill, ← hfinish]
      simp only [if_true, consumed, map_some]
    exact ⟨_, _, hturn, .inl ⟨result, rfl, hdone⟩⟩
  | found bytes r' r'' ne fill last consumed whole =>
    obtain ⟨f', result, hfinish, hdone⟩ := finish_done
      { this with reader := r'', bytes := this.bytes ++ bytes.take (scan lf bytes) } whole
    have hturn := this.turn_shown fill ne last consumed
    rw [if_pos rfl, hfinish] at hturn
    exact ⟨_, _, hturn, .inl ⟨result, rfl, hdone⟩⟩
  | more bytes b r' r'' ne fill last other consumed cut lt =>
    have hturn := this.turn_shown fill ne last consumed
    rw [if_neg other] at hturn
    exact ⟨_, _, hturn, .inr ⟨rfl, ⟨hnot, rfl, cut⟩, lt⟩⟩

end ReadLine

theorem ReadLine.Reads.poll_eq (h : ReadLine.Reads text line this) (n : ℕ) (cx : Waker) :
    ReadLine.poll n this cx = loop ReadLine.turn n this cx := by
  rw [ReadLine.poll, h.1]
  rfl

theorem ReadLine.Reads.completes (h : ReadLine.Reads text line this) (w : ℕ → Waker) :
    ∃ N result f, ReadLine.Done text line result f ∧
      ∀ n, N ≤ n → complete (ReadLine.poll n) readyValue n w this = some (result, f) := by
  have hpoll : ∀ n f cx, ReadLine.Reads text line f →
      ReadLine.poll (R := R) n f cx = loop ReadLine.turn n f cx := fun n _ cx h => h.poll_eq n cx
  exact complete_of_turn hpoll (fun _ cx h => ReadLine.turn_turns h cx) h w

/-- `read_line` gives the first line. -/
theorem readLine_completes {r : R} (hr : rest r = encode text) (input : List Char × (ℕ → Waker)) :
    ∃ N r', rest r' = encode (afterPiece '\n' text) ∧ ∀ n, N ≤ n → readLine n input r =
      some ((.ok (encode (firstPiece '\n' text)).length, input.1 ++ firstPiece '\n' text), r') := by
  have hreads : ReadLine.Reads text input.1 ⟨r, input.1, [], false⟩ :=
    ⟨rfl, rfl, by rw [hr, nil_append], by rw [hr]⟩
  obtain ⟨N, result, f, ⟨rfl, hline, hrest⟩, hN⟩ := hreads.completes input.2
  refine ⟨N, f.reader, hrest, fun n hn => ?_⟩
  rw [readLine, hN n hn, ← hline]
  rfl

theorem ReadUntil.Done.segmentOf_eq {result : Result ℕ} {this : ReadUntil R}
    (h : ReadUntil.Done d l [] result this) :
    segmentOf this.delimiter result this.buf =
      .ok ((pieces d l).head?.map (withoutDelimiter d)) := by
  obtain ⟨rfl, hbuf, -, hd⟩ := h
  rw [hd, hbuf, nil_append]
  by_cases hl : l = []
  · rw [hl]
    rfl
  · have hne := firstPiece_ne_nil d hl
    rw [head?_pieces _ hl, map_some, withoutDelimiter_eq]
    simp only [segmentOf, length_eq_zero_iff, if_neg hne, apply_ite some]

theorem ReadLine.Done.lineOf_eq {result : Except LineError ℕ}
    (h : ReadLine.Done text [] result this) :
    lineOf result this.line = .ok ((pieces '\n' text).head?.map withoutNewline) := by
  obtain ⟨rfl, hline, -⟩ := h
  rw [hline, nil_append]
  by_cases hl : text = []
  · rw [hl]
    rfl
  · have hne : encode (firstPiece '\n' text) ≠ [] :=
      mt encode_eq_nil.mp (firstPiece_ne_nil '\n' hl)
    rw [head?_pieces _ hl, map_some, withoutNewline_eq]
    simp only [lineOf, length_eq_zero_iff, if_neg hne, apply_ite some]

/-! ## The calls, one after the other -/

/-- **Calls one after the other** give these results, with enough fuel, and consume these bytes. -/
def Gives {σ ι β : Type*} (left : σ → List Byte) (call : ℕ → ι → σ → Option (β × σ))
    (inputs : List ι) (s : σ) (results : List β) (consumed : List Byte) : Prop :=
  ∃ N s', left s = consumed ++ left s' ∧
    ∀ n, N ≤ n → repeated (call n) inputs s = some (results, s')

theorem gives_of_calls {α σ ι β : Type*} [DecidableEq α] {a : α} (enc : List α → List Byte)
    (henc : ∀ p q, enc (p ++ q) = enc p ++ enc q) (left : σ → List Byte) (I : σ → Prop)
    (call : ℕ → ι → σ → Option (β × σ)) (out : ι → Option (List α) → β)
    (hcall : ∀ i p s, left s = enc p → I s → ∃ N s', (left s' = enc (afterPiece a p) ∧ I s') ∧
      ∀ n, N ≤ n → call n i s = some (out i (pieces a p).head?, s'))
    (inputs : List ι) (p : List α) (s : σ) (hs : left s = enc p) (hI : I s) :
    Gives left call inputs s (inputs.mapIdx fun k i => out i (pieces a p)[k]?)
      (enc ((pieces a p).take inputs.length).flatten) := by
  obtain ⟨N, s', ⟨hs', -⟩, hN⟩ :=
    repeated_pieces (P := fun p s => left s = enc p ∧ I s) (fun i p s h => hcall i p s h.1 h.2)
      inputs ⟨hs, hI⟩
  refine ⟨N, s', ?_, hN⟩
  rw [hs, hs', ← henc, ← flatten_append, take_append_drop, flatten_pieces]

theorem nextSegment_completes (w : ℕ → Waker) (s : Split R) :
    ∃ N s', (rest s'.inner = afterPiece s.delimiter (rest s.inner) ∧ s'.delimiter = s.delimiter) ∧
      ∀ n, N ≤ n → s.nextSegment n w =
        some (.ok ((pieces s.delimiter (rest s.inner)).head?.map (withoutDelimiter s.delimiter)),
          s') := by
  obtain ⟨N, r', hrest, hN⟩ := readUntil_completes s.delimiter ([], w) s.inner
  have hdone : ReadUntil.Done s.delimiter (rest s.inner) []
      (.ok (firstPiece s.delimiter (rest s.inner)).length)
      ⟨r', s.delimiter, [] ++ firstPiece s.delimiter (rest s.inner), 0⟩ :=
    ⟨rfl, rfl, hrest, rfl⟩
  refine ⟨N, { s with inner := r' }, ⟨hrest, rfl⟩, fun n hn => ?_⟩
  rw [Split.nextSegment, hN n hn, ← hdone.segmentOf_eq]
  rfl

theorem nextLine_completes {s : Lines R} (hs : rest s.inner = encode text) (w : ℕ → Waker) :
    ∃ N s', rest (Lines.inner s') = encode (afterPiece '\n' text) ∧
      ∀ n, N ≤ n → s.nextLine n w =
        some (.ok ((pieces '\n' text).head?.map withoutNewline), s') := by
  obtain ⟨N, r', hrest, hN⟩ := readLine_completes hs ([], w)
  have hdone : ReadLine.Done text [] (.ok (encode (firstPiece '\n' text)).length)
      ⟨r', [] ++ firstPiece '\n' text, [], true⟩ := ⟨rfl, rfl, hrest⟩
  refine ⟨N, ⟨r'⟩, hrest, fun n hn => ?_⟩
  rw [Lines.nextLine, hN n hn, ← hdone.lineOf_eq]
  rfl

theorem nextSegment_gives (r : R) (d : Byte) (ws : List (ℕ → Waker)) :
    Gives (fun s : Split R => rest s.inner) Split.nextSegment ws ⟨r, d⟩
      (ws.mapIdx fun i _ => .ok ((pieces d (rest r))[i]?.map (withoutDelimiter d)))
      ((pieces d (rest r)).take ws.length).flatten := by
  refine gives_of_calls id (fun _ _ => rfl) (fun s : Split R => rest s.inner)
    (fun s => s.delimiter = d) Split.nextSegment
    (fun _ p => Except.ok (p.map (withoutDelimiter d))) ?_ ws (rest r) ⟨r, d⟩ rfl rfl
  rintro w p s rfl rfl
  exact nextSegment_completes w s

theorem encode_append (p q : List Char) : encode (p ++ q) = encode p ++ encode q :=
  flatMap_append

theorem nextLine_gives {r : R} (hr : rest r = encode text) (ws : List (ℕ → Waker)) :
    Gives (fun s : Lines R => rest s.inner) Lines.nextLine ws ⟨r⟩
      (ws.mapIdx fun i _ => .ok ((pieces '\n' text)[i]?.map withoutNewline))
      (encode ((pieces '\n' text).take ws.length).flatten) := by
  refine gives_of_calls encode encode_append (fun s : Lines R => rest s.inner) (fun _ => True)
    Lines.nextLine (fun _ p => Except.ok (p.map withoutNewline)) ?_ ws text ⟨r⟩ hr trivial
  intro w p s hs _
  obtain ⟨N, s', hrest, hN⟩ := nextLine_completes hs w
  exact ⟨N, s', ⟨hrest, trivial⟩, hN⟩

/-- **Delimited reading does not depend on chunking**: repeated calls give the pieces of the string
that is read, and nothing after the last, and have consumed the pieces that they have given. -/
theorem delimited_pieces (r : R) (d : Byte) :
    (∀ inputs, Gives rest (readUntil d) inputs r
      (inputs.mapIdx fun i input =>
        (.ok ((pieces d (rest r))[i]?.getD []).length, input.1 ++ (pieces d (rest r))[i]?.getD []))
      ((pieces d (rest r)).take inputs.length).flatten) ∧
    (∀ ws, Gives (fun s : Split R => rest s.inner) Split.nextSegment ws ⟨r, d⟩
      (ws.mapIdx fun i _ => .ok ((pieces d (rest r))[i]?.map (withoutDelimiter d)))
      ((pieces d (rest r)).take ws.length).flatten) ∧
    ∀ text, rest r = encode text →
      (∀ inputs, Gives rest readLine inputs r
        (inputs.mapIdx fun i input =>
          (.ok (encode ((pieces '\n' text)[i]?.getD [])).length,
            input.1 ++ (pieces '\n' text)[i]?.getD []))
        (encode ((pieces '\n' text).take inputs.length).flatten)) ∧
      ∀ ws, Gives (fun s : Lines R => rest s.inner) Lines.nextLine ws ⟨r⟩
        (ws.mapIdx fun i _ => .ok ((pieces '\n' text)[i]?.map withoutNewline))
        (encode ((pieces '\n' text).take ws.length).flatten) := by
  refine ⟨?_, nextSegment_gives r d, ?_⟩
  · intro inputs
    refine gives_of_calls id (fun _ _ => rfl) rest (fun _ => True) (readUntil d)
      (fun input p => (Except.ok (p.getD []).length, input.1 ++ p.getD []))
      ?_ inputs (rest r) r rfl trivial
    rintro input p s rfl -
    obtain ⟨N, s', hrest, hN⟩ := readUntil_completes d input s
    refine ⟨N, s', ⟨hrest, trivial⟩, fun n hn => ?_⟩
    rw [hN n hn, getD_head?_pieces]
  · intro text hr
    refine ⟨?_, nextLine_gives hr⟩
    intro inputs
    refine gives_of_calls encode encode_append rest (fun _ => True) readLine
      (fun input p => (Except.ok (encode (p.getD [])).length, input.1 ++ p.getD []))
      ?_ inputs text r hr trivial
    intro input p s hs _
    obtain ⟨N, s', hrest, hN⟩ := readLine_completes hs input
    refine ⟨N, s', ⟨hrest, trivial⟩, fun n hn => ?_⟩
    rw [hN n hn, getD_head?_pieces]

/-- A text in chunks: a CR LF, and a character of two bytes, are cut. -/
def cutText : Chunks where
  script := [some [97, 13], none, some [10, 206], none, none, some [178], some [10, 99]]
  nonempty := by decide

/-- Three lines, and then none. -/
theorem delimited_pieces_cut :
    rest cutText = encode ['a', '\r', '\n', 'β', '\n', 'c'] ∧
    Gives rest readLine (List.replicate 4 ([], fun _ => 0)) cutText
      [(.ok 3, ['a', '\r', '\n']), (.ok 3, ['β', '\n']), (.ok 1, ['c']), (.ok 0, [])]
      [97, 13, 10, 206, 178, 10, 99] ∧
    Gives (fun s : Lines Chunks => rest s.inner) Lines.nextLine (List.replicate 4 fun _ => 0)
      ⟨cutText⟩ [.ok (some ['a']), .ok (some ['β']), .ok (some ['c']), .ok none]
      [97, 13, 10, 206, 178, 10, 99] ∧
    Gives (fun s : Split Chunks => rest s.inner) Split.nextSegment (List.replicate 2 fun _ => 0)
      ⟨cutText, lf⟩ [.ok (some [97, 13]), .ok (some [206, 178])] [97, 13, 10, 206, 178, 10] := by
  have htext : rest cutText = encode ['a', '\r', '\n', 'β', '\n', 'c'] := by decide
  obtain ⟨-, hsegments, hlines⟩ := delimited_pieces cutText lf
  obtain ⟨hline, hnext⟩ := hlines _ htext
  exact ⟨htext, hline _, hnext _, hsegments _⟩

end

end OhosFfrt.Io
