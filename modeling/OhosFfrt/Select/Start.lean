import OhosFfrt.Lib.XorShift
import OhosFfrt.Lib.Runs
import Mathlib.Logic.Function.Iterate

/-!
# `select!`: the generator of the starts

The calls of `__select_start` of all threads share one word.  A call loads it, and then tries to put
the state after it in its place, again and again: if another call was faster, or the exchange fails
for no reason, it goes on with what it has found.  The word never becomes `0`
(`generator_never_degenerates`).
-/

namespace OhosFfrt.Select.Start

open Lib.Runs Lib.XorShift List

/-! ## The machine -/

/-- The state of the generator after `current`. -/
def nextState (current : BitVec 64) : BitVec 64 :=
  let next := current ^^^ (current <<< 13)
  let next := next ^^^ (next >>> 7)
  next ^^^ (next <<< 17)

/-- Where a call of `__select_start` is. -/
inductive Phase
  | load
  /-- It tries to exchange this for the state after it. -/
  | exchange (current : BitVec 64)
  | over
  deriving DecidableEq, Repr

/-- A call of `select_start`. -/
structure Call where
  branches : ℕ
  phase : Phase
  deriving DecidableEq, Repr

/-- The word, and the calls. -/
structure Sys where
  state : BitVec 64
  calls : List Call
  deriving DecidableEq, Repr

inductive Op
  | call (branches : ℕ)
  | load (c : ℕ)
  /-- `compare_exchange_weak`, which may fail though it finds what it looks for. -/
  | exchange (c : ℕ) (spurious : Bool)
  deriving DecidableEq, Repr

inductive Ev
  | returned (branches index : ℕ)
  deriving DecidableEq, Repr

/-- The first state. -/
def seed : BitVec 64 := 0x9e3779b97f4a7c15

def new : Sys := ⟨seed, []⟩

def step (s : Sys) : Op → Option (Sys × List Ev)
  | .call branches =>
    if branches ≤ 1 then some (s, [.returned branches 0])
    else some ({ s with calls := s.calls ++ [⟨branches, .load⟩] }, [])
  | .load c =>
    match s.calls[c]? with
    | some ⟨branches, .load⟩ =>
      some ({ s with calls := s.calls.set c ⟨branches, .exchange s.state⟩ }, [])
    | _ => none
  | .exchange c spurious =>
    match s.calls[c]? with
    | some ⟨branches, .exchange current⟩ =>
      let next := nextState current
      if s.state = current ∧ spurious = false then
        some (⟨next, s.calls.set c ⟨branches, .over⟩⟩, [.returned branches (next.toNat % branches)])
      else some ({ s with calls := s.calls.set c ⟨branches, .exchange s.state⟩ }, [])
    | _ => none

/-- It has advanced the state. -/
def Ev.advances : Ev → Bool
  | .returned branches _ => decide (1 < branches)

/-- Every call that is kept has more than one branch. -/
def Asked (s : Sys) : Prop := ∀ call ∈ s.calls, 1 < call.branches

/-- **What a step can do**: it leaves the word as it is and no call of more than one branch returns,
or it moves the word on and one such call returns. -/
inductive Moved (s : Sys) : Sys → List Ev → Prop
  | still (calls : List Call) (asked : Asked { s with calls := calls }) :
      Moved s { s with calls := calls } []
  | few (branches : ℕ) (few : branches ≤ 1) : Moved s s [.returned branches 0]
  | advance (branches : ℕ) (calls : List Call) (many : 1 < branches)
      (asked : Asked { s with calls := calls }) :
      Moved s ⟨nextState s.state, calls⟩ [.returned branches ((nextState s.state).toNat % branches)]

variable {s s' : Sys} {op : Op} {es tr : List Ev}

theorem Asked.set {c branches : ℕ} {phase : Phase} (h : Asked s) (hb : 1 < branches) :
    Asked { s with calls := s.calls.set c ⟨branches, phase⟩ } := by
  intro call hcall
  rcases mem_or_eq_of_mem_set hcall with hcall | rfl
  · exact h call hcall
  · exact hb

theorem step_moved (h : Asked s) (hs : step s op = some (s', es)) : Moved s s' es := by
  cases op with
  | call branches =>
    simp only [step] at hs
    split_ifs at hs with hb
    · cases hs
      exact .few branches hb
    · cases hs
      refine .still _ fun call hcall => ?_
      rcases mem_append.mp hcall with hcall | hcall
      · exact h call hcall
      · rw [mem_singleton.mp hcall]
        exact Nat.lt_of_not_le hb
  | load =>
    simp only [step] at hs
    split at hs
    · next branches hc =>
      have hb : 1 < branches := h _ (mem_of_getElem? hc)
      cases hs
      exact .still _ (h.set hb)
    · cases hs
  | exchange =>
    simp only [step] at hs
    split at hs
    · next branches current hc =>
      have hb : 1 < branches := h _ (mem_of_getElem? hc)
      split_ifs at hs with hfound
      · obtain ⟨rfl, -⟩ := hfound
        cases hs
        exact .advance branches _ hb (h.set hb)
      · cases hs
        exact .still _ (h.set hb)
    · cases hs

/-! ## The word -/

/-- **`nextState` loses nothing**, since none of its three xor-shifts does. -/
theorem nextState_injective : Function.Injective nextState := by
  have hleft : Function.Injective fun x : BitVec 64 => x ^^^ (x <<< 13) :=
    injective_xor_shiftLeft (by decide)
  have hright : Function.Injective fun x : BitVec 64 => x ^^^ (x >>> 7) :=
    injective_xor_ushiftRight (by decide)
  have hlast : Function.Injective fun x : BitVec 64 => x ^^^ (x <<< 17) :=
    injective_xor_shiftLeft (by decide)
  exact hlast.comp (hright.comp hleft)

theorem nextState_ne_zero {current : BitVec 64} (h : current ≠ 0) : nextState current ≠ 0 := by
  have hzero : nextState 0 = 0 := by decide
  intro hnext
  exact h (nextState_injective (hnext.trans hzero.symm))

/-- **The word has moved on once for each call that has returned.** -/
structure Inv (tr : List Ev) (s : Sys) : Prop where
  asked : Asked s
  nonzero : s.state ≠ 0
  state : s.state = nextState^[tr.countP Ev.advances] seed
  below : ∀ branches index, .returned branches index ∈ tr → 1 ≤ branches → index < branches

theorem inv_step (h : Inv tr s) (hs : step s op = some (s', es)) : Inv (tr ++ es) s' := by
  obtain ⟨hasked, hnonzero, hstate, hbelow⟩ := h
  cases step_moved hasked hs with
  | still calls asked =>
    rw [append_nil]
    exact ⟨asked, hnonzero, hstate, hbelow⟩
  | few branches few =>
    refine ⟨hasked, hnonzero, ?_, fun b index hmem hb => ?_⟩
    · have hnot : Ev.advances (.returned branches 0) = false := by simpa [Ev.advances] using few
      rw [countP_append, countP_singleton, hnot]
      exact hstate
    · rcases mem_append.mp hmem with hmem | hmem
      · exact hbelow b index hmem hb
      · cases mem_singleton.mp hmem
        exact hb
  | advance branches calls many asked =>
    refine ⟨asked, nextState_ne_zero hnonzero, ?_, fun b index hmem hb => ?_⟩
    · have hadv : Ev.advances (.returned branches ((nextState s.state).toNat % branches)) = true :=
        decide_eq_true many
      rw [countP_append, countP_singleton, hadv, if_pos rfl, Function.iterate_succ_apply',
        ← hstate]
    · rcases mem_append.mp hmem with hmem | hmem
      · exact hbelow b index hmem hb
      · cases mem_singleton.mp hmem
        exact Nat.mod_lt _ hb

/-- **The generator never degenerates**: the state-transition function is injective, and in every
run the word is not `0` and is as many successors from the seed as calls with more than one branch
have returned, and every index that is returned is that of a branch. -/
theorem generator_never_degenerates :
    Function.Injective nextState ∧ ∀ tr s, Run step Any new tr s →
      s.state ≠ 0 ∧ s.state = nextState^[tr.countP Ev.advances] seed ∧
        ∀ branches index, .returned branches index ∈ tr → 1 ≤ branches → index < branches := by
  refine ⟨nextState_injective, fun tr s h => ?_⟩
  have hinv : Inv tr s := by
    refine h.inv ⟨nofun, by decide, rfl, nofun⟩ ?_
    intro tr s op s' es hI _ hs
    exact inv_step hI hs
  exact ⟨hinv.nonzero, hinv.state, hinv.below⟩

/-- Two calls that race: the second finds that the first was faster, and tries again. -/
theorem generator_never_degenerates_race : ∃ tr s, Run step Any new tr s ∧
    tr.length = 2 ∧ s.state = nextState (nextState seed) ∧ s.state ≠ 0 := by
  obtain ⟨tr, s, hrun, hlen, hcount⟩ : ∃ tr s, Run step Any new tr s ∧ tr.length = 2 ∧
      tr.countP Ev.advances = 2 :=
    ⟨_, _, run_exec [.call 3, .call 5, .load 0, .load 1, .exchange 0 false, .exchange 1 false,
      .exchange 1 true, .exchange 1 false] rfl, rfl, rfl⟩
  obtain ⟨hne, hstate, -⟩ := generator_never_degenerates.2 tr s hrun
  rw [hcount] at hstate
  exact ⟨tr, s, hrun, hlen, hstate, hne⟩

end OhosFfrt.Select.Start
