import OhosFfrt.Reactor.System

/-!
# `reactor`: what a step can do

`step_moved` lists what a step can do to a descriptor and the calls of `wake_ready`.
-/

namespace OhosFfrt.Reactor.Moves

open Basic Reactor.State Reactor.System

variable {s s' : Sys} {op : Op} {es : List Ev}

/-- **What a step can do.** -/
inductive Moved (s : Sys) : Op → Sys → List Ev → Prop
  | ready {w : Waker} {i : Interest} {ready : Mask} {generation : BitVec 32} :
      Moved s (.pollReady w i) s [.ready w i ready generation]
  | pending {w : Waker} {i : Interest} (hm : ¬ s.io.matches i) :
      Moved s (.pollReady w i) ⟨{ s.io with waiters := s.io.waiters.join w i }, s.wakes⟩
        [.pending w i]
  /-- A callback for a descriptor that is not registered any more. -/
  | stale {events : Mask} {ctl : Ctl} : Moved s (.callback events ctl) s []
  | callback {events : Mask} {ctl : Ctl} {io : ScheduledIo}
      (hc : s.io.callback events ctl = some io) :
      Moved s (.callback events ctl) ⟨io, s.wakes ++ [.start]⟩ []
  | clear {ready : Mask} {generation : BitVec 32} {ctl : Ctl}
      (hok : (s.io.clearReady ready generation ctl).2 = true) :
      Moved s (.clearReady ready generation ctl)
        ⟨(s.io.clearReady ready generation ctl).1, s.wakes⟩ []
  /-- `clear_ready` could not arm the descriptor and goes on to `wake_ready`. -/
  | clearFailed {ready : Mask} {generation : BitVec 32} {ctl : Ctl} :
      Moved s (.clearReady ready generation ctl)
        ⟨(s.io.clearReady ready generation ctl).1, s.wakes ++ [.start]⟩ []
  | deregister {del : Bool} : Moved s (.deregister del) ⟨s.io.deregister del, s.wakes⟩ []
  | load {k : ℕ} (hk : s.wakes[k]? = some .start) :
      Moved s (.load k) ⟨s.io, s.wakes.set k (.loaded s.io.ready)⟩ []
  | take {k : ℕ} {ready : Mask} (hk : s.wakes[k]? = some (.loaded ready)) :
      Moved s (.take k)
        ⟨(s.io.takeReady ready).2, s.wakes.set k (.waking (s.io.takeReady ready).1)⟩ []
  | wake {k : ℕ} {w : Waker} {ws : List Waker} (hk : s.wakes[k]? = some (.waking (w :: ws))) :
      Moved s (.wake k) ⟨s.io, s.wakes.set k (.waking ws)⟩ [.woke w]

theorem step_moved (h : step s op = some (s', es)) : Moved s op s' es := by
  rcases op with ⟨w, i⟩ | ⟨events, ctl⟩ | ⟨r, generation, ctl⟩ | del | k | k | k
  · simp only [step, ScheduledIo.pollReady] at h
    by_cases hm : s.io.matches i
    · simp only [if_pos hm] at h
      cases h
      exact .ready
    · simp only [if_neg hm] at h
      cases h
      exact .pending hm
  · simp only [step] at h
    rcases hc : s.io.callback events ctl with _ | io
    · simp only [hc] at h
      cases h
      exact .stale
    · simp only [hc] at h
      cases h
      exact .callback hc
  · simp only [step, Sys.andWake, Option.some.injEq, Prod.mk.injEq] at h
    obtain ⟨rfl, rfl⟩ := h
    by_cases hok : (s.io.clearReady r generation ctl).2 = true
    · rw [if_neg (by simp [hok])]
      exact .clear hok
    · rw [if_pos (by simp [hok])]
      exact .clearFailed
  · cases h
    exact .deregister
  all_goals
    simp only [step] at h
    split at h <;> cases h
  · exact .load ‹_›
  · exact .take ‹_›
  · exact .wake ‹_›

end OhosFfrt.Reactor.Moves
