import OhosFfrt.Io.BufWriter
import OhosFfrt.Io.Cursor

/-!
# `BufWriter` loses nothing

A `BufWriter` is a queue in front of its inner writer (`through`, `bufWriter_lossless`).  A write
may go past the buffer only when it is empty; `Flushed` says when the flush before a write has made
it so.
-/

namespace OhosFfrt.Io.BufWriter

open Basic Lib.Files Lib.Runs Io.Traits List Option

/-! ## Calls on a writer -/

inductive Op
  | write (cx : Waker) (input : List Byte)
  | writeVectored (cx : Waker) (bufs : List (List Byte))
  | flush (cx : Waker)
  | shutdown (cx : Waker)
  deriving DecidableEq, Repr

inductive Ev
  | wrote (input : List Byte) (amount : ℕ)
  | flushed
  | shutdown
  | pending
  | failed (error : Error)
  deriving DecidableEq, Repr

/-- The event of a call, which is `ok` if it has succeeded. -/
abbrev answer {α : Type*} (ok : α → Ev) : Poll (Result α) → Ev := Poll.answer .pending .failed ok

variable {W : Type*}

/-- **One call.** -/
def step [AsyncWrite W] (this : BufWriter W) : Op → Option (BufWriter W × List Ev)
  | .write cx input =>
    (this.pollWrite cx input).map fun (r, this') => (this', [answer (.wrote input) r])
  | .writeVectored cx bufs =>
    (this.pollWriteVectored cx bufs).map fun (r, this') =>
      (this', [answer (.wrote bufs.flatten) r])
  | .flush cx =>
    let (r, this') := this.pollFlush cx
    some (this', [answer (fun _ => .flushed) r])
  | .shutdown cx =>
    let (r, this') := this.pollShutdown cx
    some (this', [answer (fun _ => .shutdown) r])

/-- The bytes accepted. -/
def accepted (tr : List Ev) : List Byte :=
  tr.flatMap fun
    | .wrote input amount => input.take amount
    | _ => []

theorem accepted_append (tr es : List Ev) : accepted (tr ++ es) = accepted tr ++ accepted es :=
  flatMap_append

theorem accepted_answer (input : List Byte) (r : Poll (Result ℕ)) :
    accepted [answer (.wrote input) r] = input.take r.amount := by
  rcases r with _ | (e | k)
  · rfl
  · rfl
  · exact append_nil _

/-! ## The queue -/

/-- The buffer is within its capacity, and what was written of it is a part of it. -/
structure Fits (this : BufWriter W) : Prop where
  written : this.written ≤ this.buf.length
  length : this.buf.length ≤ this.capacity
  capacity : this.capacity ≤ usizeMax

variable [LawfulWriter W] {w w' w₁ : BufWriter W} {cx : Waker} {input : List Byte}
  {r : Poll (Result Unit)} {inner : W}

/-- **All that has gone into the queue**: what the inner writer has taken, and the buffer. -/
def through (this : BufWriter W) : List Byte := LawfulWriter.consumed this.inner ++ this.buffer

/-- What a flush of the buffer does. -/
structure Flushed (w : BufWriter W) (r : Poll (Result Unit)) (w' : BufWriter W) : Prop where
  through : w'.through = w.through
  fits : Fits w'
  capacity : w'.capacity = w.capacity
  empty : r = .ready (.ok ()) → w'.buf = []

theorem flushed_clear (h : Fits w) (hw : w.buf.length ≤ w.written) :
    Flushed w (.ready (.ok ())) { w with buf := [], written := 0 } where
  through := by
    unfold BufWriter.through buffer
    rw [drop_eq_nil_of_le hw, drop_nil]
  fits := ⟨Nat.zero_le _, Nat.zero_le _, h.capacity⟩
  capacity := rfl
  empty := fun _ => rfl

theorem through_write (w : BufWriter W) (cx : Waker) :
    through { w with
      inner := (Traits.pollWrite w.inner cx w.buffer).2
      written := w.written + (Traits.pollWrite w.inner cx w.buffer).1.amount } = w.through := by
  unfold through
  rw [LawfulWriter.consumed_write, append_assoc]
  congr 1
  unfold buffer
  rw [← drop_drop, take_append_drop]

theorem flushed_stop (hw : Fits w) {x : Poll (Result ℕ)}
    (hwrite : Traits.pollWrite w.inner cx w.buffer = (x, inner)) (hx : x.amount = 0)
    (hr : r ≠ .ready (.ok ())) : Flushed w r { w with inner := inner } where
  through := by
    have hthrough := through_write w cx
    rw [hwrite] at hthrough
    simp only [hx] at hthrough
    exact hthrough
  fits := ⟨hw.written, hw.length, hw.capacity⟩
  capacity := rfl
  empty := fun h => absurd h hr

/-- **`poll_flush_buf` moves bytes from the buffer to the inner writer**, and has moved all of them
if it succeeds. -/
theorem pollFlushBuf_flushed (cx : Waker) (hw : Fits w) :
    Flushed w (w.pollFlushBuf cx).1 (w.pollFlushBuf cx).2 := by
  refine pollFlushBuf_rule (P := fun w r => Fits w → Flushed w r.1 r.2) cx ?_ ?_ ?_ ?_ ?_ w hw
  · exact fun w hle hw => flushed_clear hw hle
  · exact fun w inner _ hwrite hw => flushed_stop hw hwrite rfl nofun
  · exact fun w inner e _ hwrite hw => flushed_stop hw hwrite rfl nofun
  · exact fun w inner _ hwrite hw => flushed_stop hw hwrite rfl nofun
  · intro w inner amount r hlt hwrite hrest hw
    have hthrough := through_write w cx
    have hamount := LawfulWriter.amount_write w.inner cx w.buffer
    have hlen : w.buffer.length = w.buf.length - w.written := length_drop
    rw [hwrite] at hthrough hamount
    simp only [Poll.amount] at hthrough hamount
    have hrest := hrest ⟨by simp only; omega, hw.length, hw.capacity⟩
    exact ⟨hrest.through.trans hthrough, hrest.fits, hrest.capacity, hrest.empty⟩

/-! ## Writes -/

/-- **What a write does**: it accepts as much of its input as it says, behind what it accepted
before. -/
structure Accepts (w : BufWriter W) (input : List Byte) (r : Poll (Result ℕ)) (w' : BufWriter W) :
    Prop where
  amount : r.amount ≤ input.length
  through : w'.through = w.through ++ input.take r.amount
  fits : Fits w'
  capacity : w'.capacity = w.capacity

/-- It does not panic, and accepts. -/
def AcceptsSome (w : BufWriter W) (input : List Byte)
    (o : Option (Poll (Result ℕ) × BufWriter W)) : Prop :=
  ∃ r w', o = some (r, w') ∧ Accepts w input r w'

theorem AcceptsSome.of_through {o : Option (Poll (Result ℕ) × BufWriter W)}
    (h : AcceptsSome w₁ input o) (hthrough : w₁.through = w.through)
    (hcapacity : w₁.capacity = w.capacity) : AcceptsSome w input o := by
  obtain ⟨r, w', rfl, hacc⟩ := h
  refine ⟨r, w', rfl, hacc.amount, ?_, hacc.fits, hacc.capacity.trans hcapacity⟩
  rw [← hthrough]
  exact hacc.through

/-- **A write that flushes first, if `full`.**  It accepts nothing if the flush does not succeed,
and goes on otherwise, with an empty buffer if it was `full`. -/
theorem accepts_flush (hw : Fits w) (full : Prop) [Decidable full]
    {next : Unit → BufWriter W → Option (Poll (Result ℕ) × BufWriter W)}
    (hnext : ∀ w₁, Fits w₁ → w₁.capacity = w.capacity → (full → w₁.buf = []) →
      (¬full → w₁ = w) → AcceptsSome w₁ input (next () w₁)) :
    AcceptsSome w input
      (ready (if full then w.pollFlushBuf cx else (.ready (.ok ()), w)) some next) := by
  by_cases hfull : full
  · have hflush := pollFlushBuf_flushed cx hw
    rw [if_pos hfull]
    generalize w.pollFlushBuf cx = p at hflush ⊢
    rcases p with ⟨_ | (e | _), w₁⟩
    iterate 2
      · exact ⟨_, _, rfl, Nat.zero_le _, by rw [hflush.through]; simp [Poll.amount], hflush.fits,
          hflush.capacity⟩
    · exact (hnext w₁ hflush.fits hflush.capacity (fun _ => hflush.empty rfl)
        (absurd hfull)).of_through hflush.through hflush.capacity
  · rw [if_neg hfull]
    exact hnext w hw rfl (fun h => absurd h hfull) fun _ => rfl

theorem accepts_past (hw : Fits w) (hempty : w.buf = []) {r : Poll (Result ℕ)}
    (hamount : r.amount ≤ input.length)
    (hconsumed : LawfulWriter.consumed inner =
      LawfulWriter.consumed w.inner ++ input.take r.amount) :
    Accepts w input r { w with inner := inner } where
  amount := hamount
  through := by
    unfold BufWriter.through buffer
    rw [hempty, drop_nil, append_nil, append_nil]
    exact hconsumed
  fits := ⟨hw.written, hw.length, hw.capacity⟩
  capacity := rfl

theorem accepts_extend (hw : Fits w) (input : List Byte) (k : ℕ) (hk : k ≤ input.length)
    (hroom : w.buf.length + k ≤ w.capacity) :
    Accepts w input (.ready (.ok k)) { w with buf := w.buf ++ input.take k } where
  amount := hk
  through := by
    unfold BufWriter.through buffer
    simp only
    rw [drop_append_of_le_length hw.written, append_assoc]
    rfl
  fits := by
    have hlen : (w.buf ++ input.take k).length = w.buf.length + k := by
      rw [length_append, length_take, Nat.min_eq_left hk]
    have hwritten := hw.written
    refine ⟨?_, ?_, hw.capacity⟩
    · simp only [hlen]
      omega
    · simp only [hlen]
      exact hroom
  capacity := rfl

theorem pollWrite_accepts (hw : Fits w) (cx : Waker) (input : List Byte) :
    AcceptsSome w input (w.pollWrite cx input) := by
  have hfull : (if w.buf = [] then some false
      else (checkedSub w.capacity w.buf.length).map fun room => decide (room < input.length)) =
        some (decide (w.buf ≠ [] ∧ w.capacity - w.buf.length < input.length)) := by
    split_ifs with hnil
    · simp [hnil]
    · rw [checkedSub, if_pos hw.length, map_some]
      simp [hnil]
  unfold pollWrite
  rw [hfull, bind_some]
  simp only [decide_eq_true_eq]
  refine accepts_flush hw _ fun w₁ hw₁ hcapacity hempty hsame => ?_
  split_ifs with hpast
  · exact ⟨_, _, rfl, accepts_past hw₁ hpast.1 (LawfulWriter.amount_write _ _ _)
      (LawfulWriter.consumed_write _ _ _)⟩
  · have hlen := hw₁.length
    rw [checkedSub, if_pos hlen, map_some]
    exact ⟨_, _, rfl, accepts_extend hw₁ _ _ (Nat.min_le_left _ _) (by omega)⟩

omit [LawfulWriter W] in
theorem room_flush {n : ℕ} (hw : Fits w) (hcapacity : w₁.capacity = w.capacity)
    (hempty : w.capacity - w.buf.length < n → w₁.buf = [])
    (hsame : ¬w.capacity - w.buf.length < n → w₁ = w) :
    (w₁.capacity ≤ n → w₁.buf = []) ∧ (n < w₁.capacity → w₁.buf.length + n ≤ w₁.capacity) := by
  by_cases hfull : w.capacity - w.buf.length < n
  · have hnil := hempty hfull
    refine ⟨fun _ => hnil, fun hn => ?_⟩
    rw [hnil, length_nil]
    omega
  · have hlen := hw.length
    obtain rfl := hsame hfull
    refine ⟨fun hn => length_eq_zero_iff.mp (by omega), fun _ => by omega⟩

theorem extendWhile_accepts (bufs : List (List Byte)) : ∀ (w : BufWriter W) (written : ℕ), Fits w →
    ∃ k w', w.extendWhile written bufs = some (.ready (.ok (written + k)), w') ∧
      Accepts w bufs.flatten (.ready (.ok k)) w' := by
  induction bufs with
  | nil =>
    intro w written hw
    exact ⟨0, w, rfl, Nat.le_refl _, (append_nil _).symm, hw, rfl⟩
  | cons buf bufs ih =>
    intro w written hw
    have hlen := hw.length
    unfold extendWhile
    rw [checkedSub, if_pos hlen, bind_some]
    split_ifs with hroom
    · exact ⟨0, w, rfl, Nat.zero_le _, (append_nil _).symm, hw, rfl⟩
    · have hbuf := accepts_extend hw buf buf.length (Nat.le_refl _) (by omega)
      rw [take_length] at hbuf
      obtain ⟨k, w', heq, hrest⟩ := ih _ (written + buf.length) hbuf.fits
      refine ⟨buf.length + k, w', ?_, ?_, ?_, hrest.fits, hrest.capacity⟩
      · rw [heq, Nat.add_assoc]
      · have hk := hrest.amount
        rw [flatten_cons, length_append]
        simp only [Poll.amount] at hk ⊢
        omega
      · rw [hrest.through, hbuf.through, append_assoc, flatten_cons]
        simp only [Poll.amount]
        rw [take_length, take_length_add_append]

theorem foldl_length (bufs : List (List Byte)) : ∀ sum : ℕ, sum ≤ usizeMax →
    bufs.foldl (fun sum buf => min (sum + buf.length) usizeMax) sum =
      min (sum + bufs.flatten.length) usizeMax := by
  induction bufs with
  | nil =>
    intro sum h
    exact (Nat.min_eq_left h).symm
  | cons buf bufs ih =>
    intro sum _
    rw [foldl_cons, ih _ (Nat.min_le_right _ _), flatten_cons, length_append]
    omega

theorem flatten_dropWhile_isEmpty (bufs : List (List Byte)) :
    (bufs.dropWhile List.isEmpty).flatten = bufs.flatten := by
  induction bufs with
  | nil => rfl
  | cons buf bufs ih =>
    rw [dropWhile_cons]
    split_ifs with h
    · rw [ih, flatten_cons, isEmpty_iff.mp h, nil_append]
    · rfl

/-- **`poll_write_vectored` accepts what it says**, whether the inner writer is vectored or not. -/
theorem pollWriteVectored_accepts (hw : Fits w) (cx : Waker) (bufs : List (List Byte)) :
    AcceptsSome w bufs.flatten (w.pollWriteVectored cx bufs) := by
  unfold pollWriteVectored
  split_ifs with hvectored
  · rw [foldl_length bufs 0 (Nat.zero_le _), Nat.zero_add, checkedSub, if_pos hw.length]
    simp only [bind_some]
    refine accepts_flush hw _ fun w₁ hw₁ hcapacity hempty hsame => ?_
    obtain ⟨hpast, hroom⟩ := room_flush hw hcapacity hempty hsame
    split_ifs with hle
    · exact ⟨_, _, rfl, accepts_past hw₁ (hpast hle) (LawfulWriter.amount_writeVectored _ _ _)
        (LawfulWriter.consumed_writeVectored _ _ _)⟩
    · -- a saturated sum would not be less than the capacity
      have hsmall := hw₁.capacity
      have htotal : min bufs.flatten.length usizeMax = bufs.flatten.length := by omega
      rw [htotal] at hroom hle ⊢
      have hext := accepts_extend hw₁ bufs.flatten _ (Nat.le_refl _)
        (hroom (by omega))
      rw [take_length] at hext
      exact ⟨_, _, rfl, hext⟩
  · have hflatten := flatten_dropWhile_isEmpty bufs
    rcases hbufs : bufs.dropWhile List.isEmpty with _ | ⟨first, rest⟩
    · exact ⟨_, _, rfl, Nat.zero_le _, (append_nil _).symm, hw, rfl⟩
    · rw [hbufs, flatten_cons] at hflatten
      rw [← hflatten]
      simp only [checkedSub, if_pos hw.length, bind_some]
      refine accepts_flush hw _ fun w₁ hw₁ hcapacity hempty hsame => ?_
      obtain ⟨hpast, hroom⟩ := room_flush hw hcapacity hempty hsame
      split_ifs with hle
      · have hamount := LawfulWriter.amount_write w₁.inner cx first
        refine ⟨_, _, rfl, accepts_past hw₁ (hpast hle) ?_ ?_⟩
        · rw [length_append]
          omega
        · rw [LawfulWriter.consumed_write, take_append_of_le_length hamount]
      · have hfirst := accepts_extend hw₁ first first.length (Nat.le_refl _)
          (hroom (by omega))
        rw [take_length] at hfirst
        obtain ⟨k, w', heq, hrest⟩ := extendWhile_accepts rest _ first.length hfirst.fits
        refine ⟨_, w', heq, ?_, ?_, hrest.fits, hrest.capacity⟩
        · have hk := hrest.amount
          rw [length_append]
          simp only [Poll.amount] at hk ⊢
          omega
        · rw [hrest.through, hfirst.through, append_assoc]
          simp only [Poll.amount]
          rw [take_length, take_length_add_append]

/-! ## Runs -/

theorem flushed_then (hw : Fits w) (cx : Waker) (f : W → Poll (Result Unit) × W)
    (hf : ∀ inner, LawfulWriter.consumed (f inner).2 = LawfulWriter.consumed inner) :
    Flushed w
      (ready (w.pollFlushBuf cx) id fun _ w => ((f w.inner).1, { w with inner := (f w.inner).2 })).1
      (ready (w.pollFlushBuf cx) id fun _ w =>
        ((f w.inner).1, { w with inner := (f w.inner).2 })).2 := by
  have hflush := pollFlushBuf_flushed cx hw
  generalize w.pollFlushBuf cx = p at hflush ⊢
  rcases p with ⟨_ | (e | _), w₁⟩
  iterate 2
    · exact ⟨hflush.through, hflush.fits, hflush.capacity, nofun⟩
  · refine ⟨?_, ⟨hflush.fits.written, hflush.fits.length, hflush.fits.capacity⟩, hflush.capacity,
      fun _ => hflush.empty rfl⟩
    rw [← hflush.through]
    unfold BufWriter.through
    rw [← hf w₁.inner]
    rfl

/-- **What a call does**: the queue grows by what is accepted, and a flush that succeeds empties the
buffer. -/
structure Called (w : BufWriter W) (es : List Ev) (w' : BufWriter W) : Prop where
  one : ∃ ev, es = [ev]
  through : w'.through = w.through ++ accepted es
  fits : Fits w'
  capacity : w'.capacity = w.capacity
  amount : ∀ input amount, .wrote input amount ∈ es → amount ≤ input.length
  empty : .flushed ∈ es ∨ .shutdown ∈ es → w'.buffer = []

theorem called_write {r : Poll (Result ℕ)} (h : Accepts w input r w') :
    Called w [answer (.wrote input) r] w' where
  one := ⟨_, rfl⟩
  through := by rw [accepted_answer, h.through]
  fits := h.fits
  capacity := h.capacity
  amount := by
    intro input' amount hmem
    rcases r with _ | (e | k)
    · simp [answer] at hmem
    · simp [answer] at hmem
    · simp only [Poll.answer, mem_singleton, Ev.wrote.injEq] at hmem
      obtain ⟨rfl, rfl⟩ := hmem
      exact h.amount
  empty := by
    intro hmem
    rcases r with _ | (e | k) <;> simp [answer] at hmem

theorem called_flush (h : Flushed w r w') {ok : Ev}
    (hok : ok = .flushed ∨ ok = .shutdown) : Called w [answer (fun _ => ok) r] w' where
  one := ⟨_, rfl⟩
  through := by
    rw [h.through]
    rcases r with _ | (e | k)
    · exact (append_nil _).symm
    · exact (append_nil _).symm
    · rcases hok with rfl | rfl <;> exact (append_nil _).symm
  fits := h.fits
  capacity := h.capacity
  amount := by
    intro input amount hmem
    rcases r with _ | (e | k)
    · simp [answer] at hmem
    · simp [answer] at hmem
    · rcases hok with rfl | rfl <;> simp [answer] at hmem
  empty := by
    intro hmem
    rcases r with _ | (e | k)
    · simp [answer] at hmem
    · simp [answer] at hmem
    · unfold buffer
      rw [h.empty rfl, drop_nil]

theorem step_called (hw : Fits w) (op : Op) : ∃ w' es, step w op = some (w', es) ∧
    Called w es w' := by
  rcases op with ⟨cx, input⟩ | ⟨cx, bufs⟩ | cx | cx
  · obtain ⟨r, w', heq, hacc⟩ := pollWrite_accepts hw cx input
    exact ⟨w', _, by rw [step, heq]; rfl, called_write hacc⟩
  · obtain ⟨r, w', heq, hacc⟩ := pollWriteVectored_accepts hw cx bufs
    exact ⟨w', _, by rw [step, heq]; rfl, called_write hacc⟩
  · have hflush := flushed_then hw cx (fun inner => Traits.pollFlush inner cx)
      fun inner => LawfulWriter.consumed_flush inner cx
    exact ⟨_, _, rfl, called_flush hflush (.inl rfl)⟩
  · have hflush := flushed_then hw cx (fun inner => Traits.pollShutdown inner cx)
      fun inner => LawfulWriter.consumed_shutdown inner cx
    exact ⟨_, _, rfl, called_flush hflush (.inr rfl)⟩

theorem called_of_step (hw : Fits w) {op : Op} {es : List Ev} (h : step w op = some (w', es)) :
    Called w es w' := by
  obtain ⟨w'', es', heq, hcalled⟩ := step_called hw op
  simp only [h] at heq
  cases heq
  exact hcalled

theorem run_called {tr : List Ev} (hw : Fits w) (h : Run step Any w tr w') : Fits w' ∧
    w'.capacity = w.capacity ∧ w'.through = w.through ++ accepted tr ∧
    ∀ input amount, .wrote input amount ∈ tr → amount ≤ input.length := by
  refine h.inv (I := fun tr w' => Fits w' ∧ w'.capacity = w.capacity ∧
    w'.through = w.through ++ accepted tr ∧
    ∀ input amount, .wrote input amount ∈ tr → amount ≤ input.length) ?_ ?_
  · exact ⟨hw, rfl, (append_nil _).symm, by simp⟩
  · rintro tr s op s' es ⟨hfits, hcapacity, hthrough, hamount⟩ - hs
    have hcalled := called_of_step hfits hs
    refine ⟨hcalled.fits, hcalled.capacity.trans hcapacity, ?_, ?_⟩
    · rw [hcalled.through, hthrough, accepted_append, append_assoc]
    · intro input amount hmem
      rcases mem_append.mp hmem with hmem | hmem
      · exact hamount _ _ hmem
      · exact hcalled.amount _ _ hmem

theorem fits_withCapacity {capacity : ℕ}
    (h : withCapacity capacity inner = some w) : Fits w ∧ w.capacity = capacity ∧
      w.through = LawfulWriter.consumed inner := by
  unfold withCapacity at h
  split_ifs at h with hcapacity
  cases h
  refine ⟨⟨Nat.le_refl _, Nat.zero_le _, ?_⟩, rfl, append_nil _⟩
  simp only [usizeMax]
  omega

/-- **`BufWriter` is a lossless queue in front of its inner writer**, of every capacity, over every
writer that takes what it says, and whatever calls are made.

* What the inner writer has taken, and then the buffer, are the bytes that were reported as
  accepted, in order, after those it had before, and none are accepted that were not offered.
* The buffer does not exceed its capacity, and every call can be made: nothing underflows.
* A call that is pending or fails leaves the queue as it was, so nothing of its input is accepted,
  and the buffer is empty after a flush or a shutdown that succeeds. -/
theorem bufWriter_lossless {capacity : ℕ} {inner : W} {w₀ : BufWriter W} {tr : List Ev}
    (h₀ : withCapacity capacity inner = some w₀) (h : Run step Any w₀ tr w) :
    LawfulWriter.consumed w.inner ++ w.buffer =
        LawfulWriter.consumed inner ++ accepted tr ∧
      (∀ input amount, .wrote input amount ∈ tr → amount ≤ input.length) ∧
      w.buf.length ≤ w.capacity ∧ w.capacity = capacity ∧
      (∀ op, (step w op).isSome) ∧
      ∀ op w' es, step w op = some (w', es) →
        (.pending ∈ es ∨ (∃ e, .failed e ∈ es) →
          LawfulWriter.consumed w'.inner ++ w'.buffer =
            LawfulWriter.consumed w.inner ++ w.buffer) ∧
        (.flushed ∈ es ∨ .shutdown ∈ es → w'.buffer = []) := by
  obtain ⟨hfits₀, hcapacity₀, hthrough₀⟩ := fits_withCapacity h₀
  obtain ⟨hfits, hcapacity, hthrough, hamount⟩ := run_called hfits₀ h
  rw [hthrough₀] at hthrough
  refine ⟨hthrough, hamount, hfits.length, hcapacity.trans hcapacity₀, ?_, ?_⟩
  · intro op
    obtain ⟨w', es, heq, -⟩ := step_called hfits op
    rw [heq]
    rfl
  · intro op w' es hs
    have hcalled := called_of_step hfits hs
    refine ⟨?_, hcalled.empty⟩
    intro hnone
    obtain ⟨ev, rfl⟩ := hcalled.one
    have haccepted : accepted [ev] = [] := by
      rcases hnone with hmem | ⟨e, hmem⟩
      · rw [← mem_singleton.mp hmem]
        rfl
      · rw [← mem_singleton.mp hmem]
        rfl
    have hgrown := hcalled.through
    rw [haccepted, append_nil] at hgrown
    exact hgrown

/-- Writes to a slice of three bytes: the second makes the buffer be flushed, and the last flush
finds room for one of its bytes and fails. -/
theorem bufWriter_lossless_cursor : ∃ (w₀ w : BufWriter Cursor) (tr : List Ev),
    withCapacity 4 (⟨[0, 0, 0], 0⟩ : Cursor) = some w₀ ∧ Run step Any w₀ tr w ∧
    tr = [.wrote [1, 2] 2, .wrote [3, 4, 5] 3,
      .failed ⟨.writeZero, "failed to flush buffered writer"⟩] ∧
    w.buffer = [4, 5] ∧ LawfulWriter.consumed w.inner ++ w.buffer = accepted tr := by
  obtain ⟨w₀, h₀⟩ : ∃ w₀, withCapacity 4 (⟨[0, 0, 0], 0⟩ : Cursor) = some w₀ := ⟨_, rfl⟩
  obtain ⟨w, tr, hrun, hw, htr⟩ : ∃ w tr, Run step Any w₀ tr w ∧ w.buffer = [4, 5] ∧
      tr = [.wrote [1, 2] 2, .wrote [3, 4, 5] 3,
        .failed ⟨.writeZero, "failed to flush buffered writer"⟩] := by
    cases h₀
    refine ⟨_, _, run_exec [.write 0 [1, 2], .writeVectored 0 [[], [3, 4], [5]], .flush 0] rfl, ?_⟩
    decide
  exact ⟨w₀, w, tr, h₀, hrun, htr, hw, (bufWriter_lossless h₀ hrun).1⟩

end OhosFfrt.Io.BufWriter
