import OhosFfrt.Io.ReadBuf
import OhosFfrt.Lib.Runs
import Mathlib.Data.List.Chain

/-!
# `ReadBuf`: views of one memory

A `ReadBuf` is a view of memory that it borrows: where it starts and ends, and two cursors.  The
child that `take` makes is a view of a part of the same memory, with cursors of its own; while it is
in use its parent is not.
-/

namespace OhosFfrt.Io.Views

open Basic Lib.Files Lib.Memory Lib.Runs List Option

/-! ## The code -/

/-- `none` is a byte that was never written. -/
abbrev Memory := ℕ → Option Byte

/-- The memory with `bytes` written from the address `start` on. -/
def store (m : Memory) (start : ℕ) (bytes : List Byte) : Memory :=
  fun i => if i < start then m i else bytes[i - start]?.or (m i)

/-- `ReadBuf`, with the address of its first byte. -/
structure View where
  start : ℕ
  capacity : ℕ
  filled : ℕ
  initialized : ℕ
  deriving DecidableEq, Repr

namespace View

/-- `ReadBuf::remaining`. -/
def remaining (v : View) : ℕ := v.capacity - v.filled

/-- `ReadBuf::set_filled`. -/
def setFilled (v : View) (n : ℕ) : Option View :=
  if n ≤ v.initialized then some { v with filled := n } else none

/-- `ReadBuf::advance`. -/
def advance (v : View) (n : ℕ) : Option View := (checkedAdd v.filled n).bind v.setFilled

/-- `ReadBuf::assume_init`. -/
def assumeInit (v : View) (n : ℕ) : Option View :=
  (checkedAdd v.filled n).bind fun initialized =>
    if initialized ≤ v.capacity then
      some { v with initialized := max v.initialized initialized }
    else none

/-- `ReadBuf::take`. -/
def take (v : View) (n : ℕ) : Option View :=
  let amount := min n v.remaining
  assumeInit ⟨v.start + v.filled, amount, 0, 0⟩ (min (v.initialized - v.filled) amount)

/-- `ReadBuf::filled`. -/
def filledBytes (m : Memory) (v : View) : List (Option Byte) :=
  (List.range v.filled).map fun i => m (v.start + i)

end View

/-- The memory, the buffer in use, and those that it was taken from, the nearest one first. -/
structure Sys where
  memory : Memory
  view : View
  parents : List View

/-- `ReadBuf::new`. -/
def new (bytes : List Byte) : Sys :=
  ⟨store (fun _ => none) 0 bytes, ⟨0, bytes.length, 0, bytes.length⟩, []⟩

/-- `ReadBuf::uninit`; some of the bytes may have been written before. -/
def uninit (buf : List (Option Byte)) : Sys :=
  ⟨fun i => buf[i]?.join, ⟨0, buf.length, 0, 0⟩, []⟩

/-- `ReadBuf::initialize_unfilled_to`. -/
def initializeUnfilledTo (s : Sys) (n : ℕ) : Option Sys :=
  if n ≤ s.view.remaining then
    let stop := s.view.filled + n
    if s.view.initialized < stop then
      some
        { s with
          memory := store s.memory (s.view.start + s.view.initialized)
            (List.replicate (stop - s.view.initialized) 0)
          view := { s.view with initialized := stop } }
    else some s
  else none

/-- `ReadBuf::put_slice`. -/
def putSlice (s : Sys) (bytes : List Byte) : Option Sys :=
  if bytes.length ≤ s.view.remaining then
    (initializeUnfilledTo s bytes.length).map fun s =>
      { s with
        memory := store s.memory (s.view.start + s.view.filled) bytes
        view := { s.view with filled := s.view.filled + bytes.length } }
  else none

inductive Op
  | putSlice (bytes : List Byte)
  | advance (n : ℕ)
  | setFilled (n : ℕ)
  | clear
  | initializeUnfilled
  | initializeUnfilledTo (n : ℕ)
  /-- A write through a slice of initialized bytes. -/
  | write (offset : ℕ) (bytes : List Byte)
  /-- A write through `unfilled_mut` or `inner_mut`. -/
  | writeUninit (offset : ℕ) (bytes : List Byte)
  | assumeInit (n : ℕ)
  | take (n : ℕ)
  | drop
  deriving DecidableEq, Repr

/-- **An operation on the buffer in use**; `none` is a panic, which comes before any change. -/
def call (s : Sys) : Op → Option Sys
  | .putSlice bytes => putSlice s bytes
  | .advance n => (s.view.advance n).map fun v => { s with view := v }
  | .setFilled n => (s.view.setFilled n).map fun v => { s with view := v }
  | .clear => some { s with view := { s.view with filled := 0 } }
  | .initializeUnfilled => initializeUnfilledTo s s.view.remaining
  | .initializeUnfilledTo n => initializeUnfilledTo s n
  | .write offset bytes =>
    if offset + bytes.length ≤ s.view.initialized then
      some { s with memory := store s.memory (s.view.start + offset) bytes }
    else none
  | .writeUninit offset bytes =>
    if offset + bytes.length ≤ s.view.capacity then
      some { s with memory := store s.memory (s.view.start + offset) bytes }
    else none
  | .assumeInit n => (s.view.assumeInit n).map fun v => { s with view := v }
  | .take n => (s.view.take n).map fun v => ⟨s.memory, v, s.view :: s.parents⟩
  | .drop =>
    match s.parents with
    | [] => none
    | v :: parents => some ⟨s.memory, v, parents⟩

def step (s : Sys) (op : Op) : Option (Sys × List Empty) := (call s op).map fun s => (s, [])

/-- **The contract of `assume_init`**: the bytes have been written. -/
def Contract (_ : List Empty) (s : Sys) : Op → Prop
  | .assumeInit n => ∀ i < n, s.memory (s.view.start + s.view.filled + i) ≠ none
  | _ => True

/-! ## What is written stays so -/

variable {m m' : Memory} {v : View} {s s' : Sys} {op : Op} {tr es : List Empty}
  {bytes : List Byte} {start n : ℕ}

theorem store_of_lt {i : ℕ} (h : i < start) : store m start bytes i = m i := if_pos h

theorem store_add {k : ℕ} : store m start bytes (start + k) = bytes[k]?.or (m (start + k)) := by
  unfold store
  rw [if_neg (by omega), Nat.add_sub_cancel_left]

/-- What was written is written. -/
def Grows (m m' : Memory) : Prop := ∀ i, m i ≠ none → m' i ≠ none

theorem grows_store : Grows m (store m start bytes) := by
  intro i hi
  unfold store
  split_ifs
  · exact hi
  · rw [Ne, or_eq_none_iff]
    exact fun hnone => hi hnone.2

/-- **A view is sound.** -/
structure Ok (m : Memory) (v : View) : Prop where
  filled : v.filled ≤ v.initialized
  initialized : v.initialized ≤ v.capacity
  written : ∀ i < v.initialized, m (v.start + i) ≠ none

theorem Ok.grows (h : Ok m v) (hm : Grows m m') : Ok m' v :=
  ⟨h.filled, h.initialized, fun i hi => hm _ (h.written i hi)⟩

/-- The view is a part of the unfilled region of its parent. -/
def Inside (v parent : View) : Prop :=
  v.start = parent.start + parent.filled ∧ parent.filled + v.capacity ≤ parent.capacity

/-- **Every view is sound**, and each is inside of the one that it was taken from. -/
structure Inv (s : Sys) : Prop where
  sound : ∀ v ∈ s.view :: s.parents, Ok s.memory v
  inside : List.IsChain Inside (s.view :: s.parents)

theorem Inv.view (h : Inv s) (hm : Grows s.memory m) (hv : Ok m v)
    (hstart : v.start = s.view.start) (hcapacity : v.capacity = s.view.capacity) :
    Inv ⟨m, v, s.parents⟩ := by
  refine ⟨fun v' hv' => ?_, ?_⟩
  · rcases mem_cons.mp hv' with rfl | hv'
    · exact hv
    · exact (h.sound v' (mem_cons_of_mem _ hv')).grows hm
  · have hinside := h.inside
    rcases hparents : s.parents with _ | ⟨p, ps⟩
    · exact .singleton v
    · rw [hparents, isChain_cons_cons] at hinside
      refine isChain_cons_cons.mpr ⟨?_, hinside.2⟩
      unfold Inside at hinside ⊢
      rw [hstart, hcapacity]
      exact hinside.1

/-! ## The operations -/

theorem initializeUnfilledTo_spec (h : Ok s.memory s.view)
    (hs : initializeUnfilledTo s n = some s') :
    ∃ m initialized,
      s' = { s with memory := m, view := { s.view with initialized := initialized } } ∧
      Grows s.memory m ∧ Ok m { s.view with initialized := initialized } ∧
      s.view.filled + n ≤ initialized ∧
      ∀ i < s.view.start + s.view.initialized, m i = s.memory i := by
  obtain ⟨hfilled, hinit, hwritten⟩ := h
  unfold initializeUnfilledTo View.remaining at hs
  simp only [ite_none_right_eq_some] at hs
  obtain ⟨hn, hs⟩ := hs
  split_ifs at hs with hlt
  · cases hs
    refine ⟨_, _, rfl, grows_store, ⟨Nat.le_add_right _ _, by simp only; omega, fun i hi => ?_⟩,
      Nat.le_refl _, fun i hi => store_of_lt hi⟩
    rcases Nat.lt_or_ge i s.view.initialized with hi' | hi'
    · exact grows_store _ (hwritten i hi')
    · obtain ⟨k, rfl⟩ := Nat.exists_eq_add_of_le hi'
      have hi : s.view.initialized + k < s.view.filled + n := hi
      rw [← Nat.add_assoc, store_add, getElem?_replicate, if_pos (by omega)]
      nofun
  · cases hs
    exact ⟨s.memory, s.view.initialized, rfl, fun _ h => h, ⟨hfilled, hinit, hwritten⟩, by omega,
      fun _ _ => rfl⟩

theorem putSlice_spec (h : Ok s.memory s.view) (hs : putSlice s bytes = some s') :
    ∃ m v, s' = ⟨m, v, s.parents⟩ ∧ v.start = s.view.start ∧ v.capacity = s.view.capacity ∧
      Grows s.memory m ∧ Ok m v ∧
      v.filledBytes m = s.view.filledBytes s.memory ++ bytes.map some ∧
      ∀ i < s.view.start + s.view.filled, m i = s.memory i := by
  unfold putSlice at hs
  split_ifs at hs with hroom
  obtain ⟨s₁, hs₁, rfl⟩ := map_eq_some_iff.mp hs
  obtain ⟨m, initialized, rfl, hgrows, hok, hle, hsame⟩ := initializeUnfilledTo_spec h hs₁
  have hkeep : ∀ i < s.view.start + s.view.filled,
      store m (s.view.start + s.view.filled) bytes i = s.memory i := by
    intro i hi
    have hfilled := h.filled
    rw [store_of_lt hi, hsame i (by omega)]
  refine ⟨_, _, rfl, rfl, rfl, fun i hi => grows_store i (hgrows i hi), ⟨hle, hok.initialized,
    fun i hi => grows_store _ (hok.written i hi)⟩, ?_, hkeep⟩
  unfold View.filledBytes
  simp only
  rw [range_add, map_append]
  congr 1
  · refine map_congr_left fun i hi => hkeep _ ?_
    have := mem_range.mp hi
    omega
  · refine ext_getElem (by simp) fun k hk hk' => ?_
    have hlt : k < bytes.length := by simpa using hk'
    simp [← Nat.add_assoc, store_add, hlt]

theorem Ok.take (h : Ok m v) {child : View} (hs : v.take n = some child) :
    Ok m child ∧ Inside child v := by
  obtain ⟨hfilled, hinit, hwritten⟩ := h
  unfold View.take View.assumeInit View.remaining checkedAdd at hs
  simp only [Nat.zero_add, bind_eq_some_iff, ite_none_right_eq_some,
    some.injEq, Nat.zero_max] at hs
  obtain ⟨_, ⟨-, rfl⟩, -, rfl⟩ := hs
  refine ⟨⟨Nat.zero_le _, Nat.min_le_right _ _, fun i hi => ?_⟩, rfl, by simp only; omega⟩
  have hi : i < min (v.initialized - v.filled) (min n (v.capacity - v.filled)) := hi
  rw [Nat.add_assoc]
  exact hwritten _ (by omega)

theorem Inv.setFilled (h : Inv s) (hv : s.view.setFilled n = some v) :
    Inv { s with view := v } := by
  obtain ⟨hle, ⟨⟩⟩ := ite_none_right_eq_some.mp hv
  have hok := h.sound _ mem_cons_self
  exact h.view (fun _ h => h) ⟨hle, hok.initialized, hok.written⟩ rfl rfl

theorem inv_step (h : Inv s) (hC : Contract tr s op) (hs : step s op = some (s', es)) : Inv s' := by
  have hok := h.sound _ mem_cons_self
  obtain ⟨s₁, hcall, ⟨⟩⟩ := map_eq_some_iff.mp hs
  clear hs
  have hself : Grows s.memory s.memory := fun _ h => h
  cases op with
  | putSlice =>
    obtain ⟨m, v, rfl, hstart, hcapacity, hgrows, hv, -⟩ := putSlice_spec hok hcall
    exact h.view hgrows hv hstart hcapacity
  | advance =>
    obtain ⟨v, hv, rfl⟩ := map_eq_some_iff.mp hcall
    obtain ⟨_, -, hv⟩ := bind_eq_some_iff.mp hv
    exact h.setFilled hv
  | setFilled =>
    obtain ⟨v, hv, rfl⟩ := map_eq_some_iff.mp hcall
    exact h.setFilled hv
  | clear =>
    cases hcall
    exact h.view hself ⟨Nat.zero_le _, hok.initialized, hok.written⟩ rfl rfl
  | initializeUnfilled | initializeUnfilledTo n =>
    obtain ⟨m, initialized, rfl, hgrows, hv, -⟩ := initializeUnfilledTo_spec hok hcall
    exact h.view hgrows hv rfl rfl
  | write offset bytes | writeUninit offset bytes =>
    obtain ⟨-, ⟨⟩⟩ := ite_none_right_eq_some.mp hcall
    exact h.view grows_store (hok.grows grows_store) rfl rfl
  | assumeInit n =>
    obtain ⟨v, hv, rfl⟩ := map_eq_some_iff.mp hcall
    obtain ⟨initialized, hadd, hv⟩ := bind_eq_some_iff.mp hv
    obtain ⟨hle, ⟨⟩⟩ := ite_none_right_eq_some.mp hv
    unfold checkedAdd at hadd
    obtain ⟨-, ⟨⟩⟩ := ite_none_right_eq_some.mp hadd
    have hinit := hok.initialized
    have hfilled := hok.filled
    refine h.view hself ⟨by simp only; omega, by simp only; omega, fun i hi => ?_⟩ rfl rfl
    rcases Nat.lt_or_ge i s.view.initialized with hi' | hi'
    · exact hok.written i hi'
    · -- these are the bytes that the contract is about
      have hi : i < max s.view.initialized (s.view.filled + n) := hi
      have hwritten := hC (i - s.view.filled) (by omega)
      rwa [Nat.add_assoc, Nat.add_sub_cancel' (by omega)] at hwritten
  | take =>
    obtain ⟨child, hchild, rfl⟩ := map_eq_some_iff.mp hcall
    obtain ⟨hv, hinside⟩ := hok.take hchild
    refine ⟨fun v' hv' => ?_, isChain_cons_cons.mpr ⟨hinside, h.inside⟩⟩
    rcases mem_cons.mp hv' with rfl | hv'
    · exact hv
    · exact h.sound v' hv'
  | drop =>
    simp only [call] at hcall
    split at hcall
    · cases hcall
    · next v parents hparents =>
      cases hcall
      have hsound := h.sound
      have hinside := h.inside
      rw [hparents] at hsound hinside
      exact ⟨fun v' hv' => hsound v' (mem_cons_of_mem _ hv'),
        (isChain_cons_cons.mp hinside).2⟩

def New (s : Sys) : Prop := (∃ bytes, s = new bytes) ∨ ∃ buf, s = uninit buf

theorem inv_new (h : New s) : Inv s := by
  rcases h with ⟨bytes, rfl⟩ | ⟨buf, rfl⟩
  · refine ⟨fun v hv => ?_, .singleton _⟩
    obtain rfl := mem_singleton.mp hv
    refine ⟨Nat.zero_le _, Nat.le_refl _, fun i hi => ?_⟩
    have hi : i < bytes.length := hi
    simp [new, store, hi]
  · refine ⟨fun v hv => ?_, .singleton _⟩
    obtain rfl := mem_singleton.mp hv
    exact ⟨Nat.le_refl _, Nat.zero_le _, nofun⟩

/-- **The invariant of `ReadBuf`.**  After any operations on a new buffer and on those taken from
it, with `assume_init` called under its contract:

* for every view, `filled ≤ initialized ≤ capacity` and the bytes below `initialized` are written;
* the buffer that a child was taken from sees the bytes of the child in its own unfilled part, and
  what the child has initialized is written there;
* `put_slice` either panics, when there is no room, or appends its bytes to the filled ones, and the
  memory before them stays;
* `initialize_unfilled_to` overwrites nothing below `initialized`. -/
theorem readBuf_invariant {s₀ : Sys} (hnew : New s₀) (h : Run step Contract s₀ tr s) :
    (∀ v ∈ s.view :: s.parents, v.filled ≤ v.initialized ∧ v.initialized ≤ v.capacity ∧
      ∀ i < v.initialized, s.memory (v.start + i) ≠ none) ∧
    List.IsChain (fun child parent => child.start = parent.start + parent.filled ∧
      parent.filled + child.capacity ≤ parent.capacity ∧
      ∀ i < child.initialized, s.memory (parent.start + (parent.filled + i)) ≠ none)
      (s.view :: s.parents) ∧
    (∀ bytes, (putSlice s bytes = none ↔ s.view.remaining < bytes.length) ∧
      ∀ s', putSlice s bytes = some s' →
        s'.view.filledBytes s'.memory = s.view.filledBytes s.memory ++ bytes.map some ∧
        ∀ i < s.view.start + s.view.filled, s'.memory i = s.memory i) ∧
    ∀ n s', initializeUnfilledTo s n = some s' →
      ∀ i < s.view.start + s.view.initialized, s'.memory i = s.memory i := by
  have hinv : Inv s := 
    h.inv (I := fun _ => Inv) (inv_new hnew) fun _ _ _ _ _ hi hC hs => inv_step hi hC hs
  have hok := hinv.sound _ mem_cons_self
  refine ⟨fun v hv => ?_, ?_, fun bytes => ⟨?_, fun s' hs => ?_⟩, fun n s' hs => ?_⟩
  · obtain ⟨hfilled, hinit, hwritten⟩ := hinv.sound v hv
    exact ⟨hfilled, hinit, hwritten⟩
  · refine hinv.inside.imp_of_mem_imp fun child parent hchild _ hinside => ?_
    refine ⟨hinside.1, hinside.2, fun i hi => ?_⟩
    rw [← Nat.add_assoc, ← hinside.1]
    exact (hinv.sound child hchild).written i hi
  · constructor
    · intro hnone
      by_contra hroom
      rw [putSlice, if_pos (by omega), map_eq_none_iff, initializeUnfilledTo,
        if_pos (by omega)] at hnone
      dsimp only at hnone
      split at hnone <;> cases hnone
    · intro hroom
      exact if_neg (by omega)
  · obtain ⟨m, v, rfl, -, -, -, -, hfilled, hkeep⟩ := putSlice_spec hok hs
    exact ⟨hfilled, hkeep⟩
  · obtain ⟨m, initialized, rfl, -, -, -, hkeep⟩ := initializeUnfilledTo_spec hok hs
    exact hkeep

/-- A child that writes two bytes and says so: they are bytes of its parent. -/
theorem readBuf_invariant_child : ∃ s parent, Run step Contract (uninit [none, none, none]) [] s ∧
    s.parents = [parent] ∧ parent.filled = 1 ∧ s.view.initialized = 2 ∧
    ∀ i < 2, s.memory (parent.start + (1 + i)) ≠ none := by
  have hnew : Run step Contract (uninit [none, none, none]) [] _ := .nil
  have hwritten :=
    hnew.exec [.putSlice [7], .take 2, .writeUninit 0 [8, 9]] (by simp [Contract]) rfl
  have hrun := hwritten.snoc (i := .assumeInit 2) (by unfold Contract; decide) rfl
  have hchain := (readBuf_invariant (.inr ⟨_, rfl⟩) hrun).2.1
  exact ⟨_, _, hrun, rfl, rfl, rfl, (isChain_cons_cons.mp hchain).1.2.2⟩

/-! ## The buffers of the readers -/

/-- The buffer that owns its memory, as a view. -/
def ofReadBuf (b : ReadBuf) : Sys :=
  ⟨fun i => b.buf[i]?.join, ⟨0, b.buf.length, b.filled, b.initialized⟩, []⟩

theorem write_bytes {l : List (Option Byte)} (h : n + bytes.length ≤ l.length) :
    (fun i => (write l n (bytes.map some))[i]?.join) = store (fun i => l[i]?.join) n bytes ∧
      (write l n (bytes.map some)).length = l.length := by
  refine ⟨funext fun i => ?_, length_write (by rwa [length_map])⟩
  unfold write store
  grind

theorem ofReadBuf_initializeUnfilledTo {b : ReadBuf} :
    initializeUnfilledTo (ofReadBuf b) n = (b.initializeUnfilledTo n).map ofReadBuf := by
  have hfilled := b.filled_le_length
  unfold initializeUnfilledTo ReadBuf.initializeUnfilledTo
  by_cases hn : n ≤ b.remaining
  · rw [if_pos (show n ≤ (ofReadBuf b).view.remaining from hn), dif_pos hn]
    unfold ReadBuf.remaining at hn
    by_cases hlt : b.initialized < b.filled + n
    · have hzeros := write_bytes (n := b.initialized)
        (show _ + (List.replicate (b.filled + n - b.initialized) 0).length ≤ b.buf.length by
          rw [length_replicate]
          omega)
      rw [map_replicate] at hzeros
      simp [ofReadBuf, ReadBuf.zeroTo, hlt, hzeros]
    · simp [ofReadBuf, hlt]
  · rw [if_neg (show ¬ n ≤ (ofReadBuf b).view.remaining from hn), dif_neg hn]
    rfl

theorem ofReadBuf_putSlice {b : ReadBuf} :
    putSlice (ofReadBuf b) bytes = (b.putSlice bytes).map ofReadBuf := by
  unfold putSlice ReadBuf.putSlice
  by_cases hroom : bytes.length ≤ b.remaining
  · obtain ⟨b', hb', hkeeps, hle⟩ := ReadBuf.initializeUnfilledTo_spec hroom
    rw [← hkeeps.filled] at hle
    have hbytes := write_bytes (Nat.le_trans hle b'.initialized_le)
    rw [if_pos (show bytes.length ≤ (ofReadBuf b).view.remaining from hroom), if_pos hroom,
      ofReadBuf_initializeUnfilledTo, hb', bind_some, ReadBuf.storeUnfilled, dif_pos hle,
      bind_some, ReadBuf.setFilled, dif_pos hle]
    simp [ofReadBuf, hbytes]
  · rw [if_neg (show ¬ bytes.length ≤ (ofReadBuf b).view.remaining from hroom), if_neg hroom]
    rfl

end OhosFfrt.Io.Views
