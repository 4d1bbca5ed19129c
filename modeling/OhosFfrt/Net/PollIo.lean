import OhosFfrt.Reactor.Clearing
import OhosFfrt.Reactor.Readiness

/-!
# `net`, `process`: operations that would block

A poll of an operation on a socket or a pipe is a loop: the operation is tried, and if it would
block the reactor is asked for readiness; what is cached is cleared, and the operation is tried
again.  Meanwhile the loop of the reactor and other calls act on the same descriptor.  The main
result is `poll_returns`: a poll whose own `epoll_ctl` does not fail goes round at most once more
than the others store a readiness.
-/

namespace OhosFfrt.Net.PollIo

open Basic Lib.Mask Lib.Runs Reactor.State Reactor.Moves Reactor.Readiness List Option
open Reactor.Clearing (generation_store)

/-- Where the call is. -/
inductive Pc
  | attempt
  /-- The operation would block. -/
  | wait
  /-- This was cached, and is to be cleared. -/
  | clear (ready : Mask) (generation : BitVec 32)
  | returned
  deriving DecidableEq, Repr

/-- A descriptor, and a call that polls an operation on it. -/
structure Sys where
  reactor : Reactor.System.Sys
  pc : Pc
  deriving DecidableEq, Repr

/-- What can happen. -/
inductive Op
  /-- A section of the reactor, in a callback or in another call.  The call borrows the descriptor,
  which is not dropped meanwhile. -/
  | reactor (op : Reactor.System.Op) (borrowed : ∀ del, op ≠ .deregister del)
  /-- The call goes on; `blocks` is what comes of the operation, if it is tried. -/
  | go (blocks : Bool) (ctl : Ctl)

/-- What is counted. -/
inductive Ev
  /-- A new readiness is stored by a callback or by another call. -/
  | stored
  /-- The call itself stores one, since its own `epoll_ctl` has failed. -/
  | failed
  /-- The call takes a step. -/
  | went
  deriving DecidableEq, Repr

/-- A section of the reactor has stored a new readiness. -/
def stored (io io' : ScheduledIo) : List Ev :=
  if io'.generation = io.generation then [] else [.stored]

/-- **The loop**, for an interest and the waker of the poll: `UdpSocket::poll_io`,
`poll_stream_io`, `poll_tcp_read`, `poll_pipe_read` and the others. -/
def step (i : Interest) (w : Waker) (s : Sys) : Op → Option (Sys × List Ev)
  | .reactor op _ =>
    (Reactor.System.step s.reactor op).map fun r => (⟨r.1, s.pc⟩, stored s.reactor.io r.1.io)
  | .go blocks ctl =>
    match s.pc with
    | .attempt => some (⟨s.reactor, if blocks then .wait else .returned⟩, [.went])
    | .wait =>
      match s.reactor.io.pollReady w i with
      | (some (ready, generation), io) =>
        some (⟨⟨io, s.reactor.wakes⟩, .clear ready generation⟩, [.went])
      | (none, io) => some (⟨⟨io, s.reactor.wakes⟩, .returned⟩, [.went])
    | .clear ready generation =>
      let r := s.reactor.io.clearReady ready generation ctl
      some (⟨s.reactor.andWake r.1 (!r.2), .attempt⟩, .went :: if r.2 then [] else [.failed])
    | .returned => none

/-- **The `epoll_ctl` of the call itself does not fail.** -/
def Succeeds (_ : List Ev) (s : Sys) : Op → Prop
  | .go _ ctl =>
    match s.pc with
    | .clear ready generation => (s.reactor.io.clearReady ready generation ctl).2 = true
    | _ => True
  | .reactor _ _ => True

instance (tr : List Ev) (s : Sys) (op : Op) : Decidable (Succeeds tr s op) := by
  unfold Succeeds
  split
  · split <;> infer_instance
  · infer_instance

variable {io io' : ScheduledIo} {i : Interest} {w : Waker} {s s' s₀ : Sys} {op : Op}
  {es tr : List Ev} {n k : ℕ} {pc : Pc}

/-! ## What is cached -/

/-- **A section of the reactor** stores a new generation, or nothing that was not cached. -/
structure Calm (io io' : ScheduledIo) : Prop where
  registered : io'.registered = io.registered
  ready : io'.generation = io.generation → ∀ m, Meets io'.ready m → Meets io.ready m

theorem Calm.of_eq (hr : io'.registered = io.registered) (h : io'.readiness = io.readiness) :
    Calm io io' := by
  refine ⟨hr, fun _ m hm => ?_⟩
  rwa [ScheduledIo.ready, h] at hm

theorem updateOrRecord_cases (io : ScheduledIo) (ctl : Ctl) :
    (io.updateOrRecord ctl).1.registered = io.registered ∧
      ((io.updateOrRecord ctl).1.generation = io.generation ∧
        (io.updateOrRecord ctl).1.ready = io.ready ∨
      (io.updateOrRecord ctl).1.generation = io.generation + 1 ∧
        (io.updateOrRecord ctl).2 = false) := by
  obtain ⟨events, armed, heq, -⟩ := updateInterest_spec io ctl
  unfold ScheduledIo.updateOrRecord
  simp only [heq]
  split_ifs
  · exact ⟨rfl, .inl ⟨rfl, rfl⟩⟩
  · exact ⟨rfl, .inr ⟨generation_store .., rfl⟩⟩

theorem callback_calm {events : Mask} {ctl : Ctl} (h : io.callback events ctl = some io') :
    Calm io io' := by
  unfold ScheduledIo.callback at h
  split_ifs at h
  cases h
  obtain ⟨hr, hs⟩ := updateOrRecord_cases (io.store (io.generation + 1) (io.ready ||| events)) ctl
  refine ⟨hr, fun h => ?_⟩
  rw [generation_store] at hs
  rcases hs with ⟨hs, -⟩ | ⟨hs, -⟩ <;> rw [hs] at h <;> bv_omega

theorem clear_calm (io : ScheduledIo) (r : Mask) (g : BitVec 32) (ctl : Ctl) :
    Calm io (io.clearReady r g ctl).1 ∧ (io.registered = true → io.generation = g →
      (io.clearReady r g ctl).2 = true →
      (io.clearReady r g ctl).1.ready = io.ready &&& ~~~r) := by
  unfold ScheduledIo.clearReady
  split_ifs with hreg hg
  · exact ⟨.of_eq rfl rfl, fun h => by simp [h] at hreg⟩
  · exact ⟨.of_eq rfl rfl, fun _ h => absurd h hg⟩
  · rw [not_not] at hg
    obtain ⟨hr, hs⟩ := updateOrRecord_cases (io.store g (io.ready &&& ~~~r)) ctl
    rw [generation_store, ready_store] at hs
    rcases hs with ⟨-, hs⟩ | ⟨hs, hfailed⟩
    · exact ⟨⟨hr, fun _ m hm => (hs ▸ hm).of_removed⟩, fun _ _ _ => hs⟩
    · refine ⟨⟨hr, fun h => by rw [hs] at h; bv_omega⟩, fun _ _ h => ?_⟩
      rw [hfailed] at h
      cases h

theorem section_calm {t t' : Reactor.System.Sys} {op : Reactor.System.Op}
    {xs : List Reactor.System.Ev} (hop : ∀ del, op ≠ .deregister del)
    (h : Reactor.System.step t op = some (t', xs)) : Calm t.io t'.io := by
  cases step_moved h with
  | ready | pending | stale | load | take | wake => exact .of_eq rfl rfl
  | callback hc => exact callback_calm hc
  | clear | clearFailed => exact (clear_calm ..).1
  | deregister => exact absurd rfl (hop _)

/-! ## The bound -/

/-- A call that finds nothing cached is at its last attempt. -/
def spare (io : ScheduledIo) (i : Interest) : ℕ := if io.matches i then 0 else 1

theorem spare_le (io : ScheduledIo) (i : Interest) : spare io i ≤ 1 := by
  unfold spare
  split_ifs <;> omega

/-- **What `n` stores allow**: `k` steps of the call so far. -/
def Paid (io : ScheduledIo) (i : Interest) (n k : ℕ) : Pc → Prop
  | .attempt => k ≤ 3 * (n + spare io i)
  | .wait => k ≤ 3 * (n + spare io i) + 1
  | .clear r g => k < 3 * n ∨ k ≤ 3 * n + 2 ∧ io.generation = g ∧
      ¬ Meets io.ready ((i.bits ||| errorEvents) &&& ~~~r)
  | .returned => k ≤ 3 * n + 5

theorem count_stored (io io' : ScheduledIo) :
    (stored io io').count .stored = (if io'.generation = io.generation then 0 else 1) ∧
      (stored io io').count .went = 0 := by
  unfold stored
  split_ifs <;> exact ⟨rfl, rfl⟩

theorem Paid.calm (h : Paid io i n k pc) (hc : Calm io io') :
    Paid io' i (n + (stored io io').count .stored) k pc := by
  rw [(count_stored io io').1]
  by_cases hg : io'.generation = io.generation
  · have hle : spare io i ≤ spare io' i := by
      unfold spare
      split_ifs with hm hm' hm'
      · exact Nat.zero_le _
      · exact Nat.zero_le _
      · exact absurd (hc.ready hg _ hm') hm
      · exact Nat.le_refl _
    rw [if_pos hg]
    cases pc with
    | attempt | wait | returned => simp only [Paid] at h ⊢; omega
    | clear => exact h.imp_right fun ⟨hk, h, hm⟩ =>
        ⟨hk, hg.trans h, fun h => hm (hc.ready hg _ h)⟩
  · have hle := spare_le io i
    rw [if_neg hg]
    cases pc with
    | attempt | wait | returned => simp only [Paid] at h ⊢; omega
    | clear => exact .inl (by rcases h with h | ⟨h, -⟩ <;> omega)

/-- Each round has been paid for. -/
theorem paid_go {blocks : Bool} {ctl : Ctl} (hreg : s.reactor.io.registered = true)
    (h : Paid s.reactor.io i n k s.pc) (hC : Succeeds tr s (.go blocks ctl))
    (hs : step i w s (.go blocks ctl) = some (s', es)) :
    s'.reactor.io.registered = true ∧
      Paid s'.reactor.io i (n + es.count .stored) (k + es.count .went) s'.pc := by
  obtain ⟨t, pc⟩ := s
  have hle := spare_le t.io i
  cases pc with
  | attempt =>
    cases hs
    change k ≤ 3 * (n + spare t.io i) at h
    cases blocks with
    | false => exact ⟨hreg, show k + 1 ≤ 3 * n + 5 by omega⟩
    | true => exact ⟨hreg, show k + 1 ≤ 3 * (n + spare t.io i) + 1 by omega⟩
  | wait =>
    change k ≤ 3 * (n + spare t.io i) + 1 at h
    simp only [step, ScheduledIo.pollReady] at hs
    by_cases hm : t.io.matches i
    · simp only [if_pos hm] at hs
      cases hs
      rw [spare, if_pos hm] at h
      refine ⟨hreg, .inr ⟨Nat.succ_le_succ h, rfl, fun hmeets => ?_⟩⟩
      -- what is left of the interest would be cached, and so is to be cleared
      obtain ⟨j, h1, h2⟩ := meets_iff.mp hmeets
      rw [BitVec.getLsbD_and, BitVec.getLsbD_not, BitVec.getLsbD_and, h1] at h2
      grind
    · simp only [if_neg hm] at hs
      cases hs
      exact ⟨hreg, show k + 1 ≤ 3 * n + 5 by omega⟩
  | clear r g =>
    obtain ⟨hcalm, hready⟩ := clear_calm t.io r g ctl
    have hok : (t.io.clearReady r g ctl).2 = true := hC
    simp only [step, hok, if_true] at hs
    cases hs
    refine ⟨hcalm.registered.trans hreg, ?_⟩
    show k + 1 ≤ 3 * (n + spare (t.io.clearReady r g ctl).1 i)
    rcases h with h | ⟨hk, hg, hm⟩
    · omega
    · have hno : ¬ (t.io.clearReady r g ctl).1.matches i := by
        rw [ScheduledIo.matches, hready hreg hg hok]
        rwa [Meets, BitVec.and_assoc, BitVec.and_comm (~~~r)]
      rw [spare, if_neg hno]
      omega
  | returned => cases hs

theorem go_isSome (h : s.pc ≠ .returned) (blocks : Bool) (ctl : Ctl) :
    (step i w s (.go blocks ctl)).isSome := by
  obtain ⟨t, pc⟩ := s
  cases pc with
  | attempt | clear => rfl
  | wait =>
    simp only [step]
    split <;> rfl
  | returned => exact absurd rfl h

/-- What the stores allow is never exceeded. -/
theorem paid_run (hreg : s₀.reactor.io.registered = true) (hpc : s₀.pc = .attempt)
    (h : Run (step i w) Succeeds s₀ tr s) : s.reactor.io.registered = true ∧
      Paid s.reactor.io i (tr.count .stored) (tr.count .went) s.pc := by
  refine h.inv (I := fun tr s => s.reactor.io.registered = true ∧
    Paid s.reactor.io i (tr.count .stored) (tr.count .went) s.pc) ⟨hreg, ?_⟩ ?_
  · rw [hpc]
    exact Nat.zero_le _
  · rintro tr s op s' es ⟨hreg, hp⟩ hC hs
    rw [count_append, count_append]
    cases op with
    | reactor op hop =>
      obtain ⟨⟨t, xs⟩, hstep, he⟩ := map_eq_some_iff.mp hs
      cases he
      have hcalm := section_calm hop hstep
      rw [(count_stored ..).2]
      exact ⟨hcalm.registered.trans hreg, hp.calm hcalm⟩
    | go => exact paid_go hreg hp hC hs

/-- **Every poll returns.**  From any state of a registered descriptor, and whatever the reactor,
the other calls on the descriptor and the system do meanwhile, a call that polls an operation can
always go on, and if its own `epoll_ctl` does not fail it has returned a result or `Pending` after
at most `3 * n + 5` steps of its own, where `n` is the number of times that a callback or another
call has stored a new readiness since it began. -/
theorem poll_returns (hreg : s₀.reactor.io.registered = true) (hpc : s₀.pc = .attempt)
    (h : Run (step i w) Succeeds s₀ tr s) :
    (s.pc ≠ .returned → ∀ blocks ctl, (step i w s (.go blocks ctl)).isSome) ∧
      tr.count .went ≤ 3 * tr.count .stored + 5 ∧
      (tr.count .went = 3 * tr.count .stored + 5 → s.pc = .returned) := by
  have hle := spare_le s.reactor.io i
  have hp := (paid_run hreg hpc h).2
  refine ⟨go_isSome, ?_⟩
  rcases hpc : s.pc with _ | _ | _ | _ <;> rw [hpc] at hp <;>
    simp only [Paid, reduceCtorEq, imp_false, implies_true, and_true] at hp ⊢ <;> omega

/-- An event is cached, whose data is gone. -/
def cached : Sys :=
  ⟨⟨⟨.readable, packReadiness 1 epollIn, true, 0, ⟨[], []⟩, none⟩, []⟩, .attempt⟩

/-- The bound is met: five steps, and `Pending`. -/
theorem poll_returns_cached : ∃ s, Run (step .readable 7) Succeeds cached (replicate 5 .went) s ∧
    s.reactor.io.waiters.readers = [7] ∧ s.pc = .returned := by
  obtain ⟨s, h, hw⟩ : ∃ s, Run (step .readable 7) Succeeds cached (replicate 5 .went) s ∧
      s.reactor.io.waiters.readers = [7] :=
    ⟨_, run_execIf (replicate 5 (.go true ⟨true, true⟩)) .nil rfl, rfl⟩
  exact ⟨s, h, hw, (poll_returns rfl rfl h).2.2 rfl⟩

end OhosFfrt.Net.PollIo
