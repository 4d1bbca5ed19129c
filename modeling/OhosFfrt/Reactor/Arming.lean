import OhosFfrt.Reactor.Readiness
import OhosFfrt.Reactor.Registry

/-!
# `reactor`: what a descriptor is armed for

The mask of a descriptor is changed by `EPOLL_CTL_DEL` and `EPOLL_CTL_ADD`, each of which may fail;
a call that fails on the way records an error before it releases the lock of `events`.  Only
`register` records no error: it goes on to `deregister`, and does not return the descriptor.
Callbacks may come as soon as the token is in the registry, before `register` takes the lock.
-/

namespace OhosFfrt.Reactor.Arming

open Lib.Mask Lib.Runs Reactor.State Option
open Reactor.Readiness (updateInterest_spec desired_recordError)
open Reactor.Registry (fresh)

/-- How far the registration is. -/
inductive Stage
  /-- The token is in the registry, and nothing is armed. -/
  | registering
  /-- `update_interest` has failed, and `deregister` is called next. -/
  | failed
  | returned
  deriving DecidableEq, Repr

/-- A descriptor, with the lock of its `events` free. -/
structure Sys where
  io : ScheduledIo
  stage : Stage

/-- The sections under the lock of `events`. -/
inductive Op
  /-- That of `register`. -/
  | update (ctl : Ctl)
  | callback (events : Mask) (ctl : Ctl)
  | clearReady (ready : Mask) (generation : BitVec 32) (ctl : Ctl)
  | deregister (del : Bool)
  deriving DecidableEq, Repr

/-- Before it is armed. -/
def new (interest : Interest) : Sys := ⟨fresh interest, .registering⟩

/-- Only a descriptor that was returned can be cleared; `register` deregisters one that is not. -/
def step (s : Sys) : Op → Option (Sys × List Empty)
  | .update ctl =>
    let r := s.io.updateInterest ctl
    if s.stage = .registering then some (⟨r.1, if r.2 then .returned else .failed⟩, []) else none
  | .callback events ctl => some ({ s with io := (s.io.callback events ctl).getD s.io }, [])
  | .clearReady ready generation ctl =>
    if s.stage = .returned then
      some ({ s with io := (s.io.clearReady ready generation ctl).1 }, [])
    else none
  | .deregister del =>
    if s.stage = .registering then none else some ({ s with io := s.io.deregister del }, [])

/-- **The mask**, of a descriptor that is registered or not; it may be empty as long as `register`
has not returned. -/
structure Inv (interest : Interest) (s : Sys) : Prop where
  interest : s.io.interest = interest
  early : s.stage = .registering → s.io.registered = true
  gone : s.io.registered = false → s.io.events = 0
  mask : s.io.registered = true → s.io.events = s.io.desired ∨ s.stage ≠ .returned ∧ s.io.events = 0

variable {interest : Interest} {s s' : Sys} {op : Op} {tr es : List Empty} {io : ScheduledIo}

/-- **Whatever fails, the mask is right at the end.** -/
theorem updateOrRecord_events (io : ScheduledIo) (ctl : Ctl) :
    (io.updateOrRecord ctl).1.events = (io.updateOrRecord ctl).1.desired ∧
      (io.updateOrRecord ctl).1.interest = io.interest ∧
      (io.updateOrRecord ctl).1.registered = io.registered := by
  obtain ⟨events, armed, heq, -, hev⟩ := updateInterest_spec io ctl
  unfold ScheduledIo.updateOrRecord
  simp only [heq]
  split_ifs at hev ⊢ with hok
  · exact ⟨hev, rfl, rfl⟩
  · refine ⟨?_, rfl, rfl⟩
    rw [desired_recordError]
    exact hev

theorem Inv.store (h : Inv interest s) (hreg : s.io.registered = true) (generation : BitVec 32)
    (ready : Mask) (ctl : Ctl) :
    Inv interest { s with io := ((s.io.store generation ready).updateOrRecord ctl).1 } := by
  obtain ⟨hevents, hinterest, hsame⟩ := updateOrRecord_events (s.io.store generation ready) ctl
  have hreg' := hsame.trans hreg
  refine ⟨hinterest.trans h.interest, fun _ => hreg', fun hgone => ?_, fun _ => .inl hevents⟩
  have hgone : ((s.io.store generation ready).updateOrRecord ctl).1.registered = false := hgone
  rw [hreg'] at hgone
  cases hgone

theorem Inv.callback (h : Inv interest s) (events : Mask) (ctl : Ctl) :
    Inv interest { s with io := (s.io.callback events ctl).getD s.io } := by
  unfold ScheduledIo.callback
  rcases hreg : s.io.registered with _ | _
  · exact h
  · exact h.store hreg _ _ ctl

theorem Inv.clearReady (h : Inv interest s) (ready : Mask) (generation : BitVec 32) (ctl : Ctl) :
    Inv interest { s with io := (s.io.clearReady ready generation ctl).1 } := by
  unfold ScheduledIo.clearReady
  rcases hreg : s.io.registered with _ | _
  · exact h
  · by_cases hgen : s.io.generation = generation
    · simp only [Bool.not_true, Bool.false_eq_true, if_false, hgen, ne_eq, not_true_eq_false]
      exact h.store hreg _ _ ctl
    · simp only [Bool.not_true, Bool.false_eq_true, if_false, ne_eq, hgen, not_false_eq_true,
        if_true]
      exact h

theorem Inv.deregister (h : Inv interest s) (hstage : s.stage ≠ .registering) (del : Bool) :
    Inv interest { s with io := s.io.deregister del } := by
  unfold ScheduledIo.deregister
  rcases hreg : s.io.registered with _ | _
  · exact h
  · by_cases hevents : s.io.events = 0
    · rw [if_neg (by decide), if_neg (not_not.mpr hevents)]
      exact ⟨h.interest, fun hs => absurd hs hstage, fun _ => hevents, nofun⟩
    · rw [if_neg (by decide), if_pos hevents]
      exact ⟨h.interest, fun hs => absurd hs hstage, fun _ => rfl, nofun⟩

theorem inv_step (h : Inv interest s) (hs : step s op = some (s', es)) : Inv interest s' := by
  cases op with
  | update ctl =>
    obtain ⟨hstage, ⟨⟩⟩ := ite_none_right_eq_some.mp hs
    have hreg := h.early hstage
    obtain ⟨events, armed, heq, -, hev⟩ := updateInterest_spec s.io ctl
    rw [heq]
    generalize (s.io.updateInterest ctl).2 = ok at hev ⊢
    refine ⟨h.interest, fun _ => hreg, fun hgone => ?_, fun _ => ?_⟩
    · exact absurd (hreg.symm.trans hgone) nofun
    · rcases ok with _ | _
      · exact .inr ⟨nofun, hev⟩
      · exact .inl hev
  | callback events ctl =>
    cases hs
    exact h.callback events ctl
  | clearReady ready generation ctl =>
    obtain ⟨-, ⟨⟩⟩ := ite_none_right_eq_some.mp hs
    exact h.clearReady ready generation ctl
  | deregister del =>
    obtain ⟨hstage, ⟨⟩⟩ := ite_none_left_eq_some.mp hs
    exact h.deregister hstage del

/-- **The arming invariant**, in every state in which the lock of `events` is free.  The mask of a
descriptor that `register` has returned and that is registered is `0` if an error or a hang-up is
cached, and otherwise its interest without what is cached; that of one that is deregistered is `0`.
While `register` has not returned, the mask is as it should be or still `0`. -/
theorem arming_invariant (interest : Interest) (h : Run step Any (new interest) tr s) :
    (s.stage = .returned → s.io.registered = true →
      s.io.events =
        if Meets s.io.ready errorEvents then 0 else interest.bits &&& ~~~s.io.ready) ∧
    (s.io.registered = false → s.io.events = 0) ∧
    (s.stage ≠ .returned → s.io.events = 0 ∨ s.io.events =
      if Meets s.io.ready errorEvents then 0 else interest.bits &&& ~~~s.io.ready) := by
  have hinv : Inv interest s := by
    refine h.inv ?_ fun _ _ _ _ _ hI _ hs => inv_step hI hs
    exact ⟨rfl, fun _ => rfl, nofun, fun _ => .inr ⟨nofun, rfl⟩⟩
  have hdesired : s.io.desired =
      if Meets s.io.ready errorEvents then 0 else interest.bits &&& ~~~s.io.ready := by
    rw [← hinv.interest]
    rfl
  rw [← hdesired]
  refine ⟨fun hstage hreg => ?_, hinv.gone, fun _ => ?_⟩
  · exact (hinv.mask hreg).resolve_right fun hno => hno.1 hstage
  · rcases hreg : s.io.registered with _ | _
    · exact .inl (hinv.gone hreg)
    · exact (hinv.mask hreg).symm.imp_left fun hno => hno.2

/-- A descriptor that becomes readable while `EPOLL_CTL_ADD` fails: an error is cached, and nothing
is armed. -/
theorem arming_invariant_failing : ∃ s, Run step Any (new (.add .readable .writable)) [] s ∧
    s.stage = .returned ∧ s.io.registered = true ∧ Meets s.io.ready errorEvents ∧
      s.io.events = 0 := by
  obtain ⟨s, hrun, hstage, hreg, hready⟩ : ∃ s,
      Run step Any (new (.add .readable .writable)) [] s ∧ s.stage = .returned ∧
        s.io.registered = true ∧ Meets s.io.ready errorEvents :=
    ⟨_, run_exec [.update ⟨true, true⟩, .callback epollIn ⟨true, false⟩] rfl, rfl, rfl, by decide⟩
  have hevents := (arming_invariant _ hrun).1 hstage hreg
  rw [if_pos hready] at hevents
  exact ⟨s, hrun, hstage, hreg, hready, hevents⟩

end OhosFfrt.Reactor.Arming
