import OhosFfrt.Lib.WaitQueue

/-!
# A first-in-first-out lock

`Lock` is what a fair lock is for: it is held or free, and clients stand in line for it.  `act` says
which acts it allows.

A wait queue of ids implements the line: `Names q held cs` says that `cs` are the clients of the
queue `q`, in its order; `Names.register`, `Names.grant` and `Names.cancel` are its moves.
-/

namespace OhosFfrt.Lib.FifoLock

open Lib.WaitQueue List Option

variable {ι κ ω : Type*}

/-- The acts of clients at a lock. -/
inductive Act (ι : Type*)
  | barge
  | join (i : ι)
  | serve (i : ι)
  | leave (i : ι)
  | unlock
  deriving DecidableEq, Repr

/-- A lock and the clients in line for it. -/
structure Lock (ι : Type*) where
  locked : Bool
  line : List ι
  deriving DecidableEq, Repr

/-- Nobody holds or waits. -/
def Lock.free : Lock ι := ⟨false, []⟩

/-- **What the lock allows**, and what comes of it. -/
def act [DecidableEq ι] (l : Lock ι) : Act ι → Option (Lock ι)
  | .barge => if l = Lock.free then some ⟨true, []⟩ else none
  | .join i => if l ≠ Lock.free ∧ i ∉ l.line then some ⟨l.locked, l.line ++ [i]⟩ else none
  | .serve i => if l.locked = false ∧ l.line.head? = some i then some ⟨true, l.line.tail⟩ else none
  | .leave i => if i ∈ l.line then some ⟨l.locked, l.line.erase i⟩ else none
  | .unlock => if l.locked = true then some ⟨false, l.line⟩ else none

/-- The lock after some acts, if it allows them one after the other. -/
def acts [DecidableEq ι] (l : Lock ι) (as : List (Act ι)) : Option (Lock ι) := as.foldlM act l

theorem acts_append [DecidableEq ι] {l l' : Lock ι} {as as' : List (Act ι)}
    (h : acts l as = some l') : acts l (as ++ as') = acts l' as' := by
  unfold acts at *
  rw [foldlM_append, h]
  rfl

/-! ## The line as a wait queue -/

/-- The clients `cs` are those that wait in `q`, in order. -/
def Names (q : List (Waiter κ ω)) (held : ι → Option (ℕ × κ)) (cs : List ι) : Prop :=
  cs.map (fun i => (held i).map Prod.fst) = q.map fun e => some e.id

variable {q : List (Waiter κ ω)} {held : ι → Option (ℕ × κ)} {cs : List ι} {i : ι} {k : κ}
  {id p : ℕ} {e : Waiter κ ω}

theorem Names.nil : Names ([] : List (Waiter κ ω)) (fun _ : ι => none) [] := rfl

theorem Names.eq_nil (h : Names q held cs) : cs = [] ↔ q = [] := by
  have hl : cs.length = q.length := by simpa using congrArg List.length h
  rw [← List.length_eq_zero_iff, ← List.length_eq_zero_iff, hl]

theorem Names.nodup (h : Names q held cs) (hl : Linked q held) : cs.Nodup := by
  refine List.Nodup.of_map (fun i => (held i).map Prod.fst) ?_
  rw [show cs.map _ = _ from h]
  have hid := hl.nodup.map (f := some) fun _ _ hab => some.inj hab
  rwa [List.map_map] at hid

theorem Names.not_mem (h : Names q held cs) (hi : held i = none) : i ∉ cs := by
  intro hc
  have hmem := mem_map_of_mem (f := fun i => (held i).map Prod.fst) hc
  rw [show cs.map _ = _ from h, hi] at hmem
  simp at hmem

theorem Names.setWaker [DecidableEq ω] (h : Names q held cs) (w : ω) :
    Names (setWaker q p w) held cs := by
  unfold Names
  rw [map_setWaker _ fun _ => rfl]
  exact h

section update
variable [DecidableEq ι]

theorem names_update {x : Option (ℕ × κ)} (hi : i ∉ cs) :
    cs.map (fun j => (Function.update held i x j).map Prod.fst) =
      cs.map fun j => (held j).map Prod.fst := by
  refine map_congr_left fun j hj => ?_
  rw [Function.update_of_ne]
  rintro rfl
  exact hi hj

theorem Names.register (h : Names q held cs) (hi : held i = none) (w : ω) :
    Names (q ++ [⟨id, k, w⟩]) (Function.update held i (some (id, k))) (cs ++ [i]) := by
  unfold Names at *
  have hni := Names.not_mem h hi
  rw [map_append, names_update hni, h]
  simp

theorem Names.grant (h : Names (e :: q) held cs) (hl : Linked (e :: q) held)
    (hi : held i = some (e.id, k)) :
    ∃ cs', cs = i :: cs' ∧ Names q (Function.update held i none) cs' := by
  have hnd := h.nodup hl
  unfold Names at h
  rcases cs with _ | ⟨c, cs⟩
  · simp at h
  · simp only [map_cons, List.cons.injEq] at h
    obtain ⟨hc, hcs⟩ := h
    obtain ⟨⟨id', k'⟩, hc', hid⟩ := map_eq_some_iff.mp hc
    simp only at hid
    subst hid
    have hci : c = i := hl.inj _ _ _ _ _ hc' hi
    subst hci
    refine ⟨cs, rfl, ?_⟩
    unfold Names
    rw [names_update (nodup_cons.mp hnd).1]
    exact hcs

theorem Names.cancel (h : Names q held cs) (hl : Linked q held) (hi : held i = some (id, k))
    (hp : position q id = some p) :
    i ∈ cs ∧ Names (q.eraseIdx p) (Function.update held i none) (cs.erase i) := by
  have hnd := h.nodup hl
  obtain ⟨q₁, e, q₂, rfl, rfl, he, -⟩ := position_some hp
  unfold Names at h
  rw [map_append, map_cons, map_eq_append_iff] at h
  obtain ⟨cs₁, cs', rfl, h1, h2⟩ := h
  rcases cs' with _ | ⟨c, cs₂⟩
  · simp at h2
  · simp only [map_cons, List.cons.injEq] at h2
    obtain ⟨hc, h2⟩ := h2
    obtain ⟨⟨id', k'⟩, hc', hid⟩ := map_eq_some_iff.mp hc
    simp only at hid
    subst hid
    rw [← he] at hi
    have hci : c = i := hl.inj _ _ _ _ _ hc' hi
    subst hci
    have hc12 : c ∉ cs₁ ∧ c ∉ cs₂ := by
      have := (perm_middle.nodup_iff).mp hnd
      rw [nodup_cons, mem_append, not_or] at this
      exact this.1
    refine ⟨by simp, ?_⟩
    unfold Names
    rw [erase_append_right _ hc12.1, erase_cons_head,
      eraseIdx_append_of_length_le (Nat.le_refl _), Nat.sub_self, eraseIdx_cons_zero,
      map_append, map_append, names_update hc12.1, names_update hc12.2, h1, h2]

end update

end OhosFfrt.Lib.FifoLock
