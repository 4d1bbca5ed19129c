import OhosFfrt.Io.Traits
import OhosFfrt.Lib.Memory

/-!
# `io::ReadBuf`

The memory of a buffer may be uninitialized; its first `initialized` bytes are not, and the first
`filled` of these were read into it.  A function that asserts something returns `none` where the
assertion fails.

`initialize_unfilled_to` returns a part of the memory: `storeUnfilled` puts it back.
-/

namespace OhosFfrt.Io

open Basic Lib.Files Lib.Memory List Option

/-- `ReadBuf`; the memory has `none` where it is not initialized. -/
structure ReadBuf where
  buf : List (Option Byte)
  filled : ℕ
  initialized : ℕ
  filled_le : filled ≤ initialized
  initialized_le : initialized ≤ buf.length
  size_le : buf.length ≤ usizeMax
  init : ∀ i < initialized, buf[i]? ≠ some none

namespace ReadBuf

/-- `ReadBuf::new`. -/
def new (bytes : List Byte) (h : bytes.length ≤ usizeMax) : ReadBuf where
  buf := bytes.map some
  filled := 0
  initialized := bytes.length
  filled_le := Nat.zero_le _
  initialized_le := by rw [List.length_map]
  size_le := by rwa [List.length_map]
  init i _ := by simp

/-- `ReadBuf::uninit`. -/
def uninit (buf : List (Option Byte)) (h : buf.length ≤ usizeMax) : ReadBuf where
  buf := buf
  filled := 0
  initialized := 0
  filled_le := le_refl _
  initialized_le := Nat.zero_le _
  size_le := h
  init := nofun

/-- The bytes of initialised memory. -/
def bytesOf (memory : List (Option Byte)) : List Byte := memory.map fun byte => byte.getD 0

/-- `ReadBuf::filled`. -/
def filledBytes (this : ReadBuf) : List Byte := bytesOf (this.buf.take this.filled)

/-- `ReadBuf::initialized`. -/
def initializedBytes (this : ReadBuf) : List Byte := bytesOf (this.buf.take this.initialized)

/-- `ReadBuf::len`. -/
def len (this : ReadBuf) : ℕ := this.filled

/-- `ReadBuf::remaining`. -/
def remaining (this : ReadBuf) : ℕ := this.buf.length - this.filled

/-- The memory up to `stop` is filled with zeros where it is not initialized. -/
def zeroTo (this : ReadBuf) (stop : ℕ) (h : this.initialized ≤ stop)
    (hstop : stop ≤ this.buf.length) : ReadBuf where
  buf := write this.buf this.initialized (List.replicate (stop - this.initialized) (some 0))
  filled := this.filled
  initialized := stop
  filled_le := Nat.le_trans this.filled_le h
  initialized_le := by
    rw [length_write (by rw [List.length_replicate]; omega)]
    exact hstop
  size_le := by
    rw [length_write (by rw [List.length_replicate]; omega)]
    exact this.size_le
  init i hi hnone := by
    have hlen : this.initialized + (stop - this.initialized) = stop := by omega
    rcases getElem?_write (by rw [List.length_replicate]; omega) hnone with hmem | ⟨hold, hpos⟩
    · cases List.eq_of_mem_replicate hmem
    · rw [List.length_replicate, hlen] at hpos
      exact this.init i (by omega) hold

/-- `ReadBuf::initialize_unfilled_to`, without the slice that it returns. -/
def initializeUnfilledTo (this : ReadBuf) (n : ℕ) : Option ReadBuf :=
  if hn : n ≤ this.remaining then
    if h : this.initialized < this.filled + n then
      some (this.zeroTo (this.filled + n) (Nat.le_of_lt h) (by
        have hinit := this.initialized_le
        have hfilled := this.filled_le
        unfold remaining at hn
        omega))
    else some this
  else none

/-- `ReadBuf::initialize_unfilled`. -/
def initializeUnfilled (this : ReadBuf) : Option ReadBuf :=
  this.initializeUnfilledTo this.remaining

/-- The slice that `initialize_unfilled_to(n)` returns. -/
def unfilledTo (this : ReadBuf) (n : ℕ) : List Byte :=
  bytesOf ((this.buf.drop this.filled).take n)

/-- The bytes of such a slice are `bytes` now. -/
def storeUnfilled (this : ReadBuf) (bytes : List Byte) : Option ReadBuf :=
  if h : this.filled + bytes.length ≤ this.initialized then
    some
      { this with
        buf := write this.buf this.filled (bytes.map some)
        initialized_le := by
          have hinit := this.initialized_le
          rw [length_write (by rw [List.length_map]; omega)]
          exact hinit
        size_le := by
          have hinit := this.initialized_le
          rw [length_write (by rw [List.length_map]; omega)]
          exact this.size_le
        init := by
          intro i hi hnone
          have hinit := this.initialized_le
          rcases getElem?_write (by rw [List.length_map]; omega) hnone with hmem | ⟨hold, -⟩
          · simp at hmem
          · exact this.init i hi hold }
  else none

/-- `ReadBuf::set_filled`. -/
def setFilled (this : ReadBuf) (n : ℕ) : Option ReadBuf :=
  if h : n ≤ this.initialized then some { this with filled := n, filled_le := h } else none

/-- `ReadBuf::advance`. -/
def advance (this : ReadBuf) (n : ℕ) : Option ReadBuf :=
  (checkedAdd this.filled n).bind this.setFilled

/-- `ReadBuf::put_slice`. -/
def putSlice (this : ReadBuf) (bytes : List Byte) : Option ReadBuf :=
  if bytes.length ≤ this.remaining then
    (this.initializeUnfilledTo bytes.length).bind fun this =>
      (this.storeUnfilled bytes).bind fun this => this.setFilled (this.filled + bytes.length)
  else none

/-! ### What the functions do -/

variable {b : ReadBuf} {n : ℕ} {bytes : List Byte}

/-- What was read into the buffer stays there, and what is initialized stays so. -/
structure Keeps (b b' : ReadBuf) : Prop where
  filled : b'.filled = b.filled
  length : b'.buf.length = b.buf.length
  bytes : b'.filledBytes = b.filledBytes
  initialized : b.initialized ≤ b'.initialized

theorem Keeps.refl (b : ReadBuf) : Keeps b b := ⟨rfl, rfl, rfl, Nat.le_refl _⟩

theorem Keeps.trans {b b' b'' : ReadBuf} (h : Keeps b b') (h' : Keeps b' b'') : Keeps b b'' :=
  ⟨h'.filled.trans h.filled, h'.length.trans h.length, h'.bytes.trans h.bytes,
    Nat.le_trans h.initialized h'.initialized⟩

theorem Keeps.remaining {b b' : ReadBuf} (h : Keeps b b') : b'.remaining = b.remaining := by
  unfold ReadBuf.remaining
  rw [h.filled, h.length]

theorem filled_le_length (b : ReadBuf) : b.filled ≤ b.buf.length :=
  Nat.le_trans b.filled_le b.initialized_le

@[simp] theorem length_bytesOf (memory : List (Option Byte)) :
    (bytesOf memory).length = memory.length := length_map _

theorem length_filledBytes (b : ReadBuf) : b.filledBytes.length = b.filled := by
  have := b.filled_le_length
  unfold filledBytes
  rw [length_bytesOf, length_take]
  omega

theorem length_initializedBytes (b : ReadBuf) : b.initializedBytes.length = b.initialized := by
  have := b.initialized_le
  unfold initializedBytes
  rw [length_bytesOf, length_take]
  omega

theorem take_initializedBytes (b : ReadBuf) : b.initializedBytes.take b.filled = b.filledBytes := by
  unfold initializedBytes filledBytes bytesOf
  rw [← map_take, take_take, Nat.min_eq_left b.filled_le]

theorem initializeUnfilledTo_spec (h : n ≤ b.remaining) :
    ∃ b', b.initializeUnfilledTo n = some b' ∧ Keeps b b' ∧ b.filled + n ≤ b'.initialized := by
  unfold initializeUnfilledTo
  rw [dif_pos h]
  split_ifs with hlt
  · have hinit := b.initialized_le
    have hfilled := b.filled_le_length
    unfold remaining at h
    refine ⟨_, rfl, ⟨rfl, ?_, ?_, Nat.le_of_lt hlt⟩, Nat.le_refl _⟩
    · exact length_write (by rw [length_replicate]; omega)
    · exact congrArg bytesOf (take_write b.filled_le b.initialized_le)
  · exact ⟨b, rfl, .refl b, by omega⟩

theorem storeUnfilled_spec (h : b.filled + bytes.length ≤ b.initialized) :
    ∃ b', b.storeUnfilled bytes = some b' ∧ Keeps b b' ∧ b'.initialized = b.initialized ∧
      ∀ k ≤ bytes.length,
        bytesOf (b'.buf.take (b.filled + k)) = b.filledBytes ++ bytes.take k := by
  have hinit := b.initialized_le
  have hfilled := b.filled_le_length
  unfold storeUnfilled
  rw [dif_pos h]
  refine ⟨_, rfl, ⟨rfl, ?_, ?_, Nat.le_refl _⟩, rfl, ?_⟩
  · exact length_write (by rw [length_map]; omega)
  · exact congrArg bytesOf (take_write (Nat.le_refl _) hfilled)
  · intro k hk
    have htake := take_write_length (bytes.map some) hfilled
    have hall : bytesOf ((write b.buf b.filled (bytes.map some)).take (b.filled + bytes.length)) =
        b.filledBytes ++ bytes := by
      rw [length_map] at htake
      rw [htake, bytesOf, List.map_append, List.map_map]
      congr 1
      exact map_id _
    have hold : b.filledBytes.take (b.filled + k) = b.filledBytes :=
      take_of_length_le (by rw [length_filledBytes]; omega)
    have hfirst := congrArg (List.take (b.filled + k)) hall
    rw [bytesOf, ← map_take, take_take, Nat.min_eq_left (by omega),
      take_append, length_filledBytes, Nat.add_sub_cancel_left, hold] at hfirst
    exact hfirst

theorem setFilled_spec (h : n ≤ b.initialized) : ∃ b', b.setFilled n = some b' ∧
    b'.filled = n ∧ b'.initialized = b.initialized ∧ b'.buf = b.buf := by
  unfold setFilled
  rw [dif_pos h]
  exact ⟨_, rfl, rfl, rfl, rfl⟩

theorem advance_spec (h : b.filled + n ≤ b.initialized) : ∃ b', b.advance n = some b' ∧
    b'.filled = b.filled + n ∧ b'.initialized = b.initialized ∧ b'.buf = b.buf := by
  have hinit := b.initialized_le
  have hsize := b.size_le
  unfold advance checkedAdd
  rw [if_pos (by omega)]
  exact setFilled_spec h

theorem putSlice_spec (h : bytes.length ≤ b.remaining) : ∃ b', b.putSlice bytes = some b' ∧
    b'.filled = b.filled + bytes.length ∧ b'.buf.length = b.buf.length ∧
    b.initialized ≤ b'.initialized ∧ b'.filledBytes = b.filledBytes ++ bytes := by
  obtain ⟨b₁, h₁, hk₁, hinit₁⟩ := initializeUnfilledTo_spec h
  rw [← hk₁.filled] at hinit₁
  obtain ⟨b₂, h₂, hk₂, hinit₂, hbytes⟩ := storeUnfilled_spec hinit₁
  rw [← hk₂.filled, ← hinit₂] at hinit₁
  obtain ⟨b₃, h₃, hfilled, hinit₃, hbuf⟩ := setFilled_spec hinit₁
  refine ⟨b₃, ?_, ?_, ?_, ?_, ?_⟩
  · unfold putSlice
    rw [if_pos h, h₁, bind_some, h₂, bind_some, h₃]
  · rw [hfilled, hk₂.filled, hk₁.filled]
  · rw [hbuf, hk₂.length, hk₁.length]
  · rw [hinit₃]
    exact (hk₁.trans hk₂).initialized
  · unfold filledBytes at hbytes ⊢
    rw [hfilled, hbuf, hk₂.filled, hbytes _ (Nat.le_refl _), take_length]
    exact congrArg (· ++ bytes) hk₁.bytes

end ReadBuf

end OhosFfrt.Io
