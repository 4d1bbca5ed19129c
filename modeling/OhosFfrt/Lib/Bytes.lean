import OhosFfrt.Lib.Files
import Mathlib.Data.Nat.ModEq
import Mathlib.Tactic.NormNum

/-!
# Integers as bytes

An integer of a fixed width is written as its bytes, the lowest first (little endian) or the highest
first (big endian); a signed integer as the unsigned one that it is congruent to.
-/

namespace OhosFfrt.Lib.Bytes

open Lib.Files

/-! ### Bytes of a number -/

/-- The `k` lowest bytes of `n`, the lowest first. -/
def leBytes : ℕ → ℕ → List Byte
  | 0, _ => []
  | k + 1, n => UInt8.ofNat n :: leBytes k (n / 256)

/-- The number with these bytes, the lowest first. -/
def ofLeBytes : List Byte → ℕ
  | [] => 0
  | b :: bytes => b.toNat + 256 * ofLeBytes bytes

theorem length_leBytes (k : ℕ) : ∀ n, (leBytes k n).length = k := by
  induction k with
  | zero => exact fun _ => rfl
  | succ k ih => exact fun n => congrArg (· + 1) (ih (n / 256))

theorem ofLeBytes_leBytes (k : ℕ) : ∀ n, ofLeBytes (leBytes k n) = n % 256 ^ k := by
  induction k with
  | zero => exact fun n => (Nat.mod_one n).symm
  | succ k ih =>
    intro n
    rw [leBytes, ofLeBytes, ih, pow_succ', Nat.mod_mul]
    rfl

/-! ### Integers -/

/-- A signed integer of `w` bits. -/
abbrev Signed (w : ℕ) := { z : ℤ // -2 ^ (w - 1) ≤ z ∧ z < 2 ^ (w - 1) }

/-- The unsigned integer that a signed one is congruent to. -/
def asUnsigned {w : ℕ} (z : Signed w) : BitVec w := BitVec.ofInt w z.1

/-- The signed integer that an unsigned one is congruent to. -/
def asSigned {w : ℕ} (x : BitVec w) : Signed w := ⟨x.toInt, BitVec.le_toInt x, BitVec.toInt_lt⟩

theorem asSigned_asUnsigned {w : ℕ} (hw : 0 < w) (z : Signed w) : asSigned (asUnsigned z) = z := by
  obtain ⟨z, hle, hlt⟩ := z
  apply Subtype.ext
  show (BitVec.ofInt w z).toInt = z
  rw [BitVec.toInt_ofInt]
  have htwo : (2 : ℤ) ^ w = 2 * 2 ^ (w - 1) := by
    rw [← pow_succ']
    congr 1
    omega
  have hcast : ((2 ^ w : ℕ) : ℤ) = 2 ^ w := by norm_cast
  apply Int.bmod_eq_of_le
  · rw [hcast]
    omega
  · rw [hcast]
    omega

/-- Little-endian bytes. -/
def toLeBytes {w : ℕ} (x : BitVec w) : List Byte := leBytes (w / 8) x.toNat

/-- Of little-endian bytes. -/
def fromLeBytes (w : ℕ) (bytes : List Byte) : BitVec w := BitVec.ofNat w (ofLeBytes bytes)

/-- Big-endian bytes. -/
def toBeBytes {w : ℕ} (x : BitVec w) : List Byte := (toLeBytes x).reverse

/-- Of big-endian bytes. -/
def fromBeBytes (w : ℕ) (bytes : List Byte) : BitVec w := fromLeBytes w bytes.reverse

theorem fromLeBytes_toLeBytes {w : ℕ} (hw : 8 ∣ w) (x : BitVec w) :
    fromLeBytes w (toLeBytes x) = x := by
  obtain ⟨k, rfl⟩ := hw
  have hpow : 256 ^ (8 * k / 8) = 2 ^ (8 * k) := by
    rw [Nat.mul_div_cancel_left k (by decide), pow_mul]
    norm_num
  apply BitVec.eq_of_toNat_eq
  rw [fromLeBytes, toLeBytes, ofLeBytes_leBytes, BitVec.toNat_ofNat, hpow, Nat.mod_mod,
    Nat.mod_eq_of_lt x.isLt]

/-! ### Codecs -/

/-- **A codec of a fixed size**: what is written is read back. -/
structure Codec (α : Type*) where
  size : ℕ
  toBytes : α → List Byte
  fromBytes : List Byte → α
  size_pos : 0 < size
  length_toBytes : ∀ a, (toBytes a).length = size
  fromBytes_toBytes : ∀ a, fromBytes (toBytes a) = a

/-- Unsigned integers of `8 * k` bits, the lowest byte first. -/
def unsignedLe (k : ℕ) (hk : 0 < k) : Codec (BitVec (8 * k)) where
  size := k
  toBytes := toLeBytes
  fromBytes := fromLeBytes (8 * k)
  size_pos := hk
  length_toBytes x := by
    rw [toLeBytes, length_leBytes, Nat.mul_div_cancel_left k (by decide)]
  fromBytes_toBytes := fromLeBytes_toLeBytes (Nat.dvd_mul_right 8 k)

/-- The bytes in the other order. -/
def Codec.reversed {α : Type*} (c : Codec α) : Codec α where
  size := c.size
  toBytes a := (c.toBytes a).reverse
  fromBytes bytes := c.fromBytes bytes.reverse
  size_pos := c.size_pos
  length_toBytes a := by rw [List.length_reverse, c.length_toBytes]
  fromBytes_toBytes a := by rw [List.reverse_reverse, c.fromBytes_toBytes]

/-- The codec of values that are written as other values. -/
def Codec.via {α β : Type*} (c : Codec β) (f : α → β) (g : β → α) (h : ∀ a, g (f a) = a) :
    Codec α where
  size := c.size
  toBytes a := c.toBytes (f a)
  fromBytes bytes := g (c.fromBytes bytes)
  size_pos := c.size_pos
  length_toBytes a := c.length_toBytes (f a)
  fromBytes_toBytes a := by rw [c.fromBytes_toBytes, h]

end OhosFfrt.Lib.Bytes
