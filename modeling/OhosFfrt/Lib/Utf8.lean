import OhosFfrt.Lib.Files
import OhosFfrt.Lib.Pieces

/-!
# Text in UTF-8

A text is a list of characters.  The byte of the line feed stands in no character but the line feed
(`lf_mem`), so that a text may be cut into lines before or after it is encoded.
-/

namespace OhosFfrt.Lib.Utf8

open Lib.Files Lib.Pieces List

/-- The UTF-8 bytes of a text. -/
def encode (text : List Char) : List Byte := text.flatMap String.utf8EncodeChar

/-- `String::from_utf8`: the text, if the bytes are UTF-8. -/
def fromUtf8 (bytes : List Byte) : Option (List Char) :=
  bytes.toByteArray.utf8Decode?.map Array.toList

/-- The byte of the line feed. -/
def lf : Byte := 10

theorem fromUtf8_encode (text : List Char) : fromUtf8 (encode text) = some text := by
  show (text.utf8Encode.utf8Decode?).map Array.toList = some text
  rw [utf8Decode?_utf8Encode]
  rfl

theorem encode_cons (c : Char) (text : List Char) :
    encode (c :: text) = String.utf8EncodeChar c ++ encode text := rfl

theorem encode_eq_nil {text : List Char} : encode text = [] ↔ text = [] := by
  constructor
  · intro h
    cases text with
    | nil => rfl
    | cons c =>
      have hlen := congrArg List.length h
      rw [encode_cons, length_append, String.length_utf8EncodeChar, length_nil] at hlen
      have hsize := c.utf8Size_pos
      omega
  · rintro rfl
    rfl

theorem eq_ten_of_lf {n : ℕ} (hn : n < 256) (h : lf = UInt8.ofNat n) : n = 10 := by
  have hnat := congrArg UInt8.toNat h
  rw [UInt8.toNat_ofNat', Nat.mod_eq_of_lt (by omega)] at hnat
  exact hnat.symm

/-- **The byte of the line feed is in no other character**: the bytes of a character that takes
more than one have their highest bit set. -/
theorem lf_mem {c : Char} (h : lf ∈ String.utf8EncodeChar c) : c = '\n' := by
  have hhigh : ∀ n < 128, lf ≠ UInt8.ofNat (n + 128) := by
    intro n hn he
    have := eq_ten_of_lf (by omega) he
    omega
  simp only [String.utf8EncodeChar] at h
  split_ifs at h with h₁ h₂ h₃
  · have hval := eq_ten_of_lf (by omega) (mem_singleton.mp h)
    exact Char.ext (UInt32.toNat_inj.mp hval)
  all_goals
    exfalso
    simp only [mem_cons, not_mem_nil, or_false] at h
  · rcases h with h | h
    · exact hhigh (c.val.toNat / 64 % 32 + 64) (by omega) h
    · exact hhigh (c.val.toNat % 64) (by omega) h
  · rcases h with h | h | h
    · exact hhigh (c.val.toNat / 4096 % 16 + 96) (by omega) h
    · exact hhigh (c.val.toNat / 64 % 64) (by omega) h
    · exact hhigh (c.val.toNat % 64) (by omega) h
  · rcases h with h | h | h | h
    · exact hhigh (c.val.toNat / 262144 % 8 + 112) (by omega) h
    · exact hhigh (c.val.toNat / 4096 % 64) (by omega) h
    · exact hhigh (c.val.toNat / 64 % 64) (by omega) h
    · exact hhigh (c.val.toNat % 64) (by omega) h

theorem encode_lf : String.utf8EncodeChar '\n' = [lf] := by decide

/-- **A text is cut after its first line** before or after it is encoded. -/
theorem firstPiece_encode : ∀ text : List Char,
    firstPiece lf (encode text) = encode (firstPiece '\n' text) ∧
      afterPiece lf (encode text) = encode (afterPiece '\n' text)
  | [] => ⟨rfl, rfl⟩
  | c :: text => by
    obtain ⟨hfirst, hafter⟩ := firstPiece_encode text
    rw [encode_cons, firstPiece, afterPiece]
    by_cases hc : c = '\n'
    · rw [hc, if_pos rfl, if_pos rfl, encode_lf]
      exact ⟨rfl, rfl⟩
    · have hnot : lf ∉ String.utf8EncodeChar c := fun h => hc (lf_mem h)
      obtain ⟨hfirst', hafter'⟩ := firstPiece_append_of_notMem (encode text) hnot
      rw [if_neg hc, if_neg hc, hfirst', hafter', hfirst, encode_cons]
      exact ⟨rfl, hafter⟩

end OhosFfrt.Lib.Utf8
