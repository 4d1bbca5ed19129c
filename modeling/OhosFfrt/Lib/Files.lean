import Mathlib.Data.List.Basic
import Mathlib.Tactic.Common

/-!
# A plain file

A file has contents and one offset.  A read returns some of the bytes at the offset and moves past
them, a write puts bytes there, with zeros in a gap before them, and a seek moves the offset.  How
many bytes a read returns is up to the system: at least one, unless none was asked for or the end is
reached.

`Behind f bs` says that `bs` are the bytes just before the offset, so that they can be given out
later (`Behind.read`); `f.back bs.length` is the file that has not read them.
-/

namespace OhosFfrt.Lib.Files

open List

abbrev Byte := UInt8

/-- The contents of a file, and the offset. -/
structure SeqFile where
  contents : List Byte
  offset : ℕ
  deriving DecidableEq, Repr

/-- `io::SeekFrom`. -/
inductive SeekFrom
  | start (n : ℕ)
  | fromEnd (d : Int)
  | current (d : Int)
  deriving DecidableEq, Repr

variable {f f' : SeqFile} {bs bytes : List Byte} {k n len : ℕ} {pos : SeekFrom}

/-- What is left to read. -/
def SeqFile.rest (f : SeqFile) : List Byte := f.contents.drop f.offset

/-- A read for `len` bytes that returns `amount` of them. -/
def SeqFile.read (f : SeqFile) (len amount : ℕ) : Option (List Byte × SeqFile) :=
  if amount ≤ len ∧ amount ≤ f.rest.length ∧ (amount = 0 → len = 0 ∨ f.rest = []) then
    some (f.rest.take amount, { f with offset := f.offset + amount })
  else none

/-- Reads to the end. -/
def SeqFile.readToEnd (f : SeqFile) : List Byte × SeqFile :=
  (f.rest, { f with offset := f.offset + f.rest.length })

/-- Writes at the offset; a gap is zeros. -/
def SeqFile.writeAll (f : SeqFile) (bytes : List Byte) : SeqFile :=
  if bytes = [] then f
  else
    { contents := f.contents.take f.offset ++ List.replicate (f.offset - f.contents.length) 0 ++
        bytes ++ f.contents.drop (f.offset + bytes.length)
      offset := f.offset + bytes.length }

/-- Where a seek goes. -/
def SeqFile.target (f : SeqFile) : SeekFrom → Int
  | .start n => n
  | .fromEnd d => f.contents.length + d
  | .current d => f.offset + d

/-- A seek; `none` is an invalid target. -/
def SeqFile.seek (f : SeqFile) (pos : SeekFrom) : Option SeqFile :=
  if 0 ≤ f.target pos then some { f with offset := (f.target pos).toNat } else none

/-- The file `n` bytes before the offset. -/
def SeqFile.back (f : SeqFile) (n : ℕ) : SeqFile := { f with offset := f.offset - n }

/-- The bytes just before the offset. -/
def Behind (f : SeqFile) (bs : List Byte) : Prop :=
  bs.length ≤ f.offset ∧ (f.back bs.length).rest.take bs.length = bs

theorem behind_nil (f : SeqFile) : Behind f [] := ⟨Nat.zero_le _, rfl⟩

theorem read_some (h : f.read len k = some (bs, f')) : bs = f.rest.take k ∧ bs.length = k ∧
    k ≤ len ∧ f' = { f with offset := f.offset + k } ∧ (k = 0 → len = 0 ∨ f.rest = []) := by
  unfold SeqFile.read at h
  split_ifs at h with hk
  obtain ⟨h1, h2, h3⟩ := hk
  cases h
  refine ⟨rfl, ?_, h1, rfl, h3⟩
  rw [length_take]
  omega

theorem behind_read (h : f.read len k = some (bs, f')) :
    Behind f' bs ∧ f'.back bs.length = f := by
  obtain ⟨hbs, hlen, -, rfl, -⟩ := read_some h
  have hback : ({ f with offset := f.offset + k } : SeqFile).back bs.length = f := by
    unfold SeqFile.back
    rw [hlen, Nat.add_sub_cancel]
  refine ⟨⟨?_, ?_⟩, hback⟩
  · show bs.length ≤ f.offset + k
    omega
  · rw [hback, hlen]
    exact hbs.symm

theorem Behind.read (h : Behind f bs) (len : ℕ) (hk : k ≤ bs.length) (hlen : k ≤ len)
    (hpos : 0 < k) :
    (f.back bs.length).read len k = some (bs.take k, f.back (bs.drop k).length) ∧
      Behind f (bs.drop k) := by
  obtain ⟨hoff, htake⟩ := h
  have hrest : bs.length ≤ (f.back bs.length).rest.length := by
    have := congrArg List.length htake
    rw [length_take] at this
    omega
  have hread : (f.back bs.length).rest.take k = bs.take k := by
    have htwice := congrArg (List.take k) htake
    rw [take_take, Nat.min_eq_left hk] at htwice
    exact htwice
  have hdrop : (f.back (bs.drop k).length).rest = (f.back bs.length).rest.drop k := by
    unfold SeqFile.rest SeqFile.back
    rw [drop_drop, length_drop]
    congr 1
    simp only
    omega
  refine ⟨?_, ?_, ?_⟩
  · unfold SeqFile.read
    rw [if_pos ⟨hlen, by omega, by omega⟩, hread, Option.some.injEq, Prod.mk.injEq]
    refine ⟨rfl, ?_⟩
    unfold SeqFile.back
    simp only [SeqFile.mk.injEq, true_and, length_drop]
    omega
  · rw [length_drop]
    omega
  · rw [hdrop, length_drop, ← drop_take, htake]

/-- **A seek relative to the offset** goes where one goes from `n` bytes back that is `n` shorter.
-/
theorem seek_back (hn : n ≤ f.offset) (pos' : SeekFrom)
    (hpos : ∀ d, pos = .current d → pos' = .current (d - n))
    (hother : (∀ d, pos ≠ .current d) → pos' = pos) : f.seek pos' = (f.back n).seek pos := by
  have htarget : f.target pos' = (f.back n).target pos := by
    rcases pos with m | d | d
    · rw [hother (by simp)]
      rfl
    · rw [hother (by simp)]
      rfl
    · rw [hpos d rfl]
      simp only [SeqFile.target, SeqFile.back]
      omega
  unfold SeqFile.seek
  rw [htarget]
  rfl

theorem rest_writeAll (h : f.rest = []) (bytes : List Byte) : (f.writeAll bytes).rest = [] := by
  unfold SeqFile.writeAll
  split_ifs with h0
  · exact h
  · have hlen : f.contents.length ≤ f.offset := drop_eq_nil_iff.mp h
    unfold SeqFile.rest
    rw [drop_eq_nil_iff]
    simp only [length_append, length_take, length_replicate, length_drop]
    omega

end OhosFfrt.Lib.Files
