import OhosFfrt.Io.Exact
import OhosFfrt.Lib.Bytes

/-!
# `io`: the integer methods of `AsyncReadExt` and `AsyncWriteExt`

The methods `read_u16`, `write_i64_le` and so on are instances of two macros: a `read_exact` into an
array of the size of the integer, which is then converted, and a `write_all` of the converted
integer.  What is written is read back (`numbers_roundtrip`).
-/

namespace OhosFfrt.Io

open Basic Lib.Bytes Lib.Files Lib.Pieces Io.Traits List Option
open FiniteRead (unread)
open LawfulWriter (consumed)

/-! ## The methods -/

/-- A method that reads a number: its fuel, the wakers of its polls and the reader. -/
abbrev ReadMethod (R α : Type*) := ℕ → (ℕ → Waker) → R → Option (Except ExactError α × R)

/-- A method that writes a number. -/
abbrev WriteMethod (W α : Type*) := ℕ → α → (ℕ → Waker) → W → Option (Result Unit × W)

section
variable {R : Type*} [AsyncRead R] {W : Type*} [AsyncWrite W]

/-- `read_number_method!`. -/
def readNumber {α : Type*} (size : ℕ) (convert : List Byte → α) (n : ℕ) (w : ℕ → Waker)
    (reader : R) : Option (Except ExactError α × R) :=
  (readExact n (List.replicate size 0) w reader).map fun r =>
    (r.1.1.map fun _ => convert r.1.2, r.2)

/-- `write_number_method!`. -/
def writeNumber {α : Type*} (convert : α → List Byte) (n : ℕ) (value : α) (w : ℕ → Waker)
    (writer : W) : Option (Result Unit × W) :=
  writeAll n (convert value) w writer

-- `bytes[0]` of an array of one byte is `bytes.headD 0`

/-- `read_u8`. -/
def readU8 : ReadMethod R Byte := readNumber 1 (fun bytes => bytes.headD 0)

/-- `read_i8`. -/
def readI8 : ReadMethod R (Signed 8) :=
  readNumber 1 (fun bytes => asSigned (bytes.headD 0).toBitVec)

/-- `read_u16`. -/
def readU16 : ReadMethod R (BitVec 16) := readNumber 2 (fromBeBytes 16)

/-- `read_i16`. -/
def readI16 : ReadMethod R (Signed 16) :=
  readNumber 2 (fun bytes => asSigned (fromBeBytes 16 bytes))

/-- `read_u32`. -/
def readU32 : ReadMethod R (BitVec 32) := readNumber 4 (fromBeBytes 32)

/-- `read_i32`. -/
def readI32 : ReadMethod R (Signed 32) :=
  readNumber 4 (fun bytes => asSigned (fromBeBytes 32 bytes))

/-- `read_u64`. -/
def readU64 : ReadMethod R (BitVec 64) := readNumber 8 (fromBeBytes 64)

/-- `read_i64`. -/
def readI64 : ReadMethod R (Signed 64) :=
  readNumber 8 (fun bytes => asSigned (fromBeBytes 64 bytes))

/-- `read_u128`. -/
def readU128 : ReadMethod R (BitVec 128) := readNumber 16 (fromBeBytes 128)

/-- `read_i128`. -/
def readI128 : ReadMethod R (Signed 128) :=
  readNumber 16 (fun bytes => asSigned (fromBeBytes 128 bytes))

/-- `read_u16_le`. -/
def readU16Le : ReadMethod R (BitVec 16) := readNumber 2 (fromLeBytes 16)

/-- `read_i16_le`. -/
def readI16Le : ReadMethod R (Signed 16) :=
  readNumber 2 (fun bytes => asSigned (fromLeBytes 16 bytes))

/-- `read_u32_le`. -/
def readU32Le : ReadMethod R (BitVec 32) := readNumber 4 (fromLeBytes 32)

/-- `read_i32_le`. -/
def readI32Le : ReadMethod R (Signed 32) :=
  readNumber 4 (fun bytes => asSigned (fromLeBytes 32 bytes))

/-- `read_u64_le`. -/
def readU64Le : ReadMethod R (BitVec 64) := readNumber 8 (fromLeBytes 64)

/-- `read_i64_le`. -/
def readI64Le : ReadMethod R (Signed 64) :=
  readNumber 8 (fun bytes => asSigned (fromLeBytes 64 bytes))

/-- `read_u128_le`. -/
def readU128Le : ReadMethod R (BitVec 128) := readNumber 16 (fromLeBytes 128)

/-- `read_i128_le`. -/
def readI128Le : ReadMethod R (Signed 128) :=
  readNumber 16 (fun bytes => asSigned (fromLeBytes 128 bytes))

/-- `write_u8`. -/
def writeU8 : WriteMethod W Byte := writeNumber (fun value => [value])

/-- `write_i8`. -/
def writeI8 : WriteMethod W (Signed 8) := writeNumber (fun value => [⟨asUnsigned value⟩])

/-- `write_u16`. -/
def writeU16 : WriteMethod W (BitVec 16) := writeNumber toBeBytes

/-- `write_i16`. -/
def writeI16 : WriteMethod W (Signed 16) := writeNumber (fun value => toBeBytes (asUnsigned value))

/-- `write_u32`. -/
def writeU32 : WriteMethod W (BitVec 32) := writeNumber toBeBytes

/-- `write_i32`. -/
def writeI32 : WriteMethod W (Signed 32) := writeNumber (fun value => toBeBytes (asUnsigned value))

/-- `write_u64`. -/
def writeU64 : WriteMethod W (BitVec 64) := writeNumber toBeBytes

/-- `write_i64`. -/
def writeI64 : WriteMethod W (Signed 64) := writeNumber (fun value => toBeBytes (asUnsigned value))

/-- `write_u128`. -/
def writeU128 : WriteMethod W (BitVec 128) := writeNumber toBeBytes

/-- `write_i128`. -/
def writeI128 : WriteMethod W (Signed 128) :=
  writeNumber (fun value => toBeBytes (asUnsigned value))

/-- `write_u16_le`. -/
def writeU16Le : WriteMethod W (BitVec 16) := writeNumber toLeBytes

/-- `write_i16_le`. -/
def writeI16Le : WriteMethod W (Signed 16) :=
  writeNumber (fun value => toLeBytes (asUnsigned value))

/-- `write_u32_le`. -/
def writeU32Le : WriteMethod W (BitVec 32) := writeNumber toLeBytes

/-- `write_i32_le`. -/
def writeI32Le : WriteMethod W (Signed 32) :=
  writeNumber (fun value => toLeBytes (asUnsigned value))

/-- `write_u64_le`. -/
def writeU64Le : WriteMethod W (BitVec 64) := writeNumber toLeBytes

/-- `write_i64_le`. -/
def writeI64Le : WriteMethod W (Signed 64) :=
  writeNumber (fun value => toLeBytes (asUnsigned value))

/-- `write_u128_le`. -/
def writeU128Le : WriteMethod W (BitVec 128) := writeNumber toLeBytes

/-- `write_i128_le`. -/
def writeI128Le : WriteMethod W (Signed 128) :=
  writeNumber (fun value => toLeBytes (asUnsigned value))

end

/-- The integer types, big endian or, where provided, little endian. -/
inductive Method
  | u8 | i8
  | u16 | i16
  | u32 | i32
  | u64 | i64
  | u128 | i128
  | u16Le | i16Le
  | u32Le | i32Le
  | u64Le | i64Le
  | u128Le | i128Le
  deriving DecidableEq, Repr

namespace Method

/-- The numbers of a method. -/
def Value : Method → Type
  | .u8 => Byte
  | .i8 => Signed 8
  | .u16 => BitVec 16
  | .i16 => Signed 16
  | .u32 => BitVec 32
  | .i32 => Signed 32
  | .u64 => BitVec 64
  | .i64 => Signed 64
  | .u128 => BitVec 128
  | .i128 => Signed 128
  | .u16Le => BitVec 16
  | .i16Le => Signed 16
  | .u32Le => BitVec 32
  | .i32Le => Signed 32
  | .u64Le => BitVec 64
  | .i64Le => Signed 64
  | .u128Le => BitVec 128
  | .i128Le => Signed 128

/-- The read of a method. -/
def read {R : Type*} [AsyncRead R] : (m : Method) → ReadMethod R m.Value
  | .u8 => readU8
  | .i8 => readI8
  | .u16 => readU16
  | .i16 => readI16
  | .u32 => readU32
  | .i32 => readI32
  | .u64 => readU64
  | .i64 => readI64
  | .u128 => readU128
  | .i128 => readI128
  | .u16Le => readU16Le
  | .i16Le => readI16Le
  | .u32Le => readU32Le
  | .i32Le => readI32Le
  | .u64Le => readU64Le
  | .i64Le => readI64Le
  | .u128Le => readU128Le
  | .i128Le => readI128Le

/-- The write of a method. -/
def write {W : Type*} [AsyncWrite W] : (m : Method) → WriteMethod W m.Value
  | .u8 => writeU8
  | .i8 => writeI8
  | .u16 => writeU16
  | .i16 => writeI16
  | .u32 => writeU32
  | .i32 => writeI32
  | .u64 => writeU64
  | .i64 => writeI64
  | .u128 => writeU128
  | .i128 => writeI128
  | .u16Le => writeU16Le
  | .i16Le => writeI16Le
  | .u32Le => writeU32Le
  | .i32Le => writeI32Le
  | .u64Le => writeU64Le
  | .i64Le => writeI64Le
  | .u128Le => writeU128Le
  | .i128Le => writeI128Le

/-! ## Their codecs -/

/-- A byte as itself. -/
def byte : Codec Byte where
  size := 1
  toBytes value := [value]
  fromBytes bytes := bytes.headD 0
  size_pos := Nat.one_pos
  length_toBytes _ := rfl
  fromBytes_toBytes _ := rfl

/-- A signed integer is written as the unsigned one. -/
def signed {w : ℕ} (hw : 0 < w) (c : Codec (BitVec w)) : Codec (Signed w) :=
  c.via asUnsigned asSigned (asSigned_asUnsigned hw)

/-- **The methods are paired.** -/
def codec : (m : Method) → Codec m.Value
  | .u8 => byte
  | .i8 => (byte.via (fun value => ⟨asUnsigned value⟩) (fun b => asSigned b.toBitVec)
      (asSigned_asUnsigned (by decide)))
  | .u16 => (unsignedLe 2 (by decide)).reversed
  | .i16 => signed (by decide) ((unsignedLe 2 (by decide)).reversed)
  | .u32 => (unsignedLe 4 (by decide)).reversed
  | .i32 => signed (by decide) ((unsignedLe 4 (by decide)).reversed)
  | .u64 => (unsignedLe 8 (by decide)).reversed
  | .i64 => signed (by decide) ((unsignedLe 8 (by decide)).reversed)
  | .u128 => (unsignedLe 16 (by decide)).reversed
  | .i128 => signed (by decide) ((unsignedLe 16 (by decide)).reversed)
  | .u16Le => unsignedLe 2 (by decide)
  | .i16Le => signed (by decide) (unsignedLe 2 (by decide))
  | .u32Le => unsignedLe 4 (by decide)
  | .i32Le => signed (by decide) (unsignedLe 4 (by decide))
  | .u64Le => unsignedLe 8 (by decide)
  | .i64Le => signed (by decide) (unsignedLe 8 (by decide))
  | .u128Le => unsignedLe 16 (by decide)
  | .i128Le => signed (by decide) (unsignedLe 16 (by decide))

theorem read_eq {R : Type*} [AsyncRead R] (m : Method) (n : ℕ) (w : ℕ → Waker) (r : R) :
    m.read n w r = readNumber m.codec.size m.codec.fromBytes n w r := by
  cases m <;> rfl

theorem write_eq {W : Type*} [AsyncWrite W] (m : Method) (n : ℕ) (value : m.Value) (w : ℕ → Waker)
    (writer : W) : m.write n value w writer = writeNumber m.codec.toBytes n value w writer := by
  cases m <;> rfl

theorem read_completes {R : Type*} [FiniteRead R] (m : Method) (value : m.Value) {more : List Byte}
    {r : R} (h : unread r = m.codec.toBytes value ++ more) (w : ℕ → Waker) :
    ∃ N r', unread r' = more ∧ ∀ n, N ≤ n → m.read n w r = some (.ok value, r') := by
  have hlen := m.codec.length_toBytes value
  have hexact := readExact_completes (List.replicate m.codec.size 0) w r
  rw [length_replicate, if_pos, h, take_left' hlen, drop_left' hlen] at hexact
  · obtain ⟨N, r', hunread, hN⟩ := hexact
    refine ⟨N, r', hunread, fun n hn => ?_⟩
    rw [m.read_eq, readNumber, hN n hn, map_some]
    show some (Except.ok (m.codec.fromBytes (m.codec.toBytes value)), r') = _
    rw [m.codec.fromBytes_toBytes]
  · rw [h, length_append, hlen]
    omega

theorem read_end {R : Type*} [FiniteRead R] (m : Method) {r : R} (h : unread r = [])
    (w : ℕ → Waker) : ∃ N r', ∀ n, N ≤ n → m.read n w r = some (.error earlyEof, r') := by
  have hsize := m.codec.size_pos
  have hexact := readExact_completes (List.replicate m.codec.size 0) w r
  rw [length_replicate, h, length_nil, if_neg (by omega)] at hexact
  obtain ⟨N, buf', r', hN⟩ := hexact
  refine ⟨N, r', fun n hn => ?_⟩
  rw [m.read_eq, readNumber, hN n hn]
  rfl

theorem write_completes {W : Type*} [SteadyWriter W] (m : Method) (value : m.Value) (w : ℕ → Waker)
    (writer : W) : ∃ N writer', consumed writer' = consumed writer ++ m.codec.toBytes value ∧
      ∀ n, N ≤ n → m.write n value w writer = some (.ok (), writer') := by
  obtain ⟨N, writer', hconsumed, hN⟩ := writeAll_completes (m.codec.toBytes value) w writer
  refine ⟨N, writer', hconsumed, fun n hn => ?_⟩
  rw [m.write_eq, writeNumber, hN n hn]

end Method

/-! ## Sequences -/

/-- An integer of a sequence, and the contexts of the polls in which it is written and read. -/
structure Item where
  value : (m : Method) × m.Value
  writing : ℕ → Waker
  reading : ℕ → Waker

namespace Item

/-- Writes the number. -/
def write {W : Type*} [AsyncWrite W] (n : ℕ) (this : Item) (writer : W) :
    Option (Result Unit × W) :=
  this.value.1.write n this.value.2 this.writing writer

/-- Reads a number of its method. -/
def read {R : Type*} [AsyncRead R] (n : ℕ) (this : Item) (reader : R) :
    Option (Except ExactError ((m : Method) × m.Value) × R) :=
  (this.value.1.read n this.reading reader).map fun r =>
    (r.1.map fun value => ⟨this.value.1, value⟩, r.2)

/-- The bytes of the number. -/
def bytes (this : Item) : List Byte := this.value.1.codec.toBytes this.value.2

end Item

theorem writes_complete {W : Type*} [SteadyWriter W] (items : List Item) (writer : W) :
    ∃ N writer', consumed writer' = consumed writer ++ items.flatMap Item.bytes ∧
      ∀ n, N ≤ n → repeated (Item.write n) items writer =
        some (items.map fun _ => .ok (), writer') := by
  have hcall : ∀ (i : Item) is (s : W),
      consumed s ++ (i :: is).flatMap Item.bytes = consumed writer ++ items.flatMap Item.bytes →
      ∃ N s', consumed s' ++ is.flatMap Item.bytes = consumed writer ++ items.flatMap Item.bytes ∧
        ∀ n, N ≤ n → i.write n s = some (.ok (), s') := by
    intro i is s hs
    obtain ⟨N, s', hs', hN⟩ := i.value.1.write_completes i.value.2 i.writing s
    refine ⟨N, s', ?_, hN⟩
    rw [hs', ← hs, append_assoc]
    rfl
  obtain ⟨N, writer', hconsumed, hN⟩ := repeated_calls Item.write (fun _ => .ok ())
    (P := fun is (s : W) => consumed s ++ is.flatMap Item.bytes =
      consumed writer ++ items.flatMap Item.bytes) hcall items rfl
  rw [flatMap_nil, append_nil] at hconsumed
  exact ⟨N, writer', hconsumed, hN⟩

theorem reads_complete {R : Type*} [FiniteRead R] (items : List Item) {r : R}
    (hr : unread r = items.flatMap Item.bytes) :
    ∃ N r', unread r' = [] ∧ ∀ n, N ≤ n → repeated (Item.read n) items r =
      some (items.map fun i => .ok i.value, r') := by
  have hcall : ∀ (i : Item) is (s : R), unread s = (i :: is).flatMap Item.bytes →
      ∃ N s', unread s' = is.flatMap Item.bytes ∧
        ∀ n, N ≤ n → i.read n s = some (.ok i.value, s') := by
    intro i is s hs
    obtain ⟨N, s', hs', hN⟩ := i.value.1.read_completes i.value.2 hs i.reading
    refine ⟨N, s', hs', fun n hn => ?_⟩
    rw [Item.read, hN n hn]
    rfl
  exact repeated_calls Item.read (fun i => .ok i.value)
    (P := fun is (s : R) => unread s = is.flatMap Item.bytes) hcall items hr

/-- **Integers that are written are read back**, whatever portions the writer takes and the reader
gives, and whenever they are pending; all bytes are read then, and a further read of an integer, or
of a buffer that is not empty, finds the end. -/
theorem numbers_roundtrip {W R : Type*} [SteadyWriter W] [FiniteRead R] (items : List Item)
    (writer : W) :
    (∃ N writer', consumed writer' = consumed writer ++ items.flatMap Item.bytes ∧
      ∀ n, N ≤ n → repeated (Item.write n) items writer =
        some (items.map fun _ => .ok (), writer')) ∧
      ∀ r : R, unread r = items.flatMap Item.bytes → ∃ N r', unread r' = [] ∧
        (∀ n, N ≤ n → repeated (Item.read n) items r =
          some (items.map fun i => .ok i.value, r')) ∧
        (∀ (m : Method) w, ∃ N r'', ∀ n, N ≤ n → m.read n w r' = some (.error earlyEof, r'')) ∧
        ∀ buf w, buf ≠ [] → ∃ N buf' r'', ∀ n, N ≤ n →
          readExact n buf w r' = some ((.error earlyEof, buf'), r'') := by
  refine ⟨writes_complete items writer, fun r hr => ?_⟩
  obtain ⟨M, r', hunread, hM⟩ := reads_complete items hr
  refine ⟨M, r', hunread, hM, fun m w => m.read_end hunread w, fun buf w hbuf => ?_⟩
  have hexact := readExact_completes buf w r'
  have hpos := length_pos_of_ne_nil hbuf
  rwa [hunread, length_nil, if_neg (by omega)] at hexact

/-- Three numbers. -/
def threeItems : List Item :=
  [⟨⟨.u16, 258#16⟩, fun _ => 0, fun _ => 0⟩, ⟨⟨.i16Le, ⟨-2, by decide⟩⟩, fun _ => 0, fun _ => 0⟩,
    ⟨⟨.i8, ⟨-3, by decide⟩⟩, fun _ => 0, fun _ => 0⟩]

/-- Their bytes, cut between polls. -/
def cutNumbers : Chunks where
  script := [none, some [1, 2, 254], none, some [255, 253]]
  nonempty := by decide

/-- Through a writer that is pending, and takes one byte first, and from such chunks. -/
theorem numbers_roundtrip_three :
    (∃ N writer', consumed writer' = unread cutNumbers ∧ ∀ n, N ≤ n →
      repeated (Item.write n) threeItems (⟨[none, some 0, none], []⟩ : Portions) =
        some ([.ok (), .ok (), .ok ()], writer')) ∧
    ∃ N r', unread r' = [] ∧ ∀ n, N ≤ n → repeated (Item.read n) threeItems cutNumbers =
      some ([.ok ⟨.u16, 258#16⟩, .ok ⟨.i16Le, ⟨-2, by decide⟩⟩, .ok ⟨.i8, ⟨-3, by decide⟩⟩],
        r') := by
  have hbytes : unread cutNumbers = threeItems.flatMap Item.bytes := by decide
  obtain ⟨⟨N, writer', hconsumed, hN⟩, hread⟩ :=
    numbers_roundtrip (R := Chunks) threeItems (⟨[none, some 0, none], []⟩ : Portions)
  obtain ⟨M, r', hend, hM, -⟩ := hread cutNumbers hbytes
  refine ⟨⟨N, writer', ?_, hN⟩, M, r', hend, hM⟩
  rw [hconsumed, hbytes]
  rfl

end OhosFfrt.Io
