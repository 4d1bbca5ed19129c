import OhosFfrt.Semaphore.Moves

/-!
# `sync::Semaphore`: permits are conserved

`addedBy`, `reducedBy`, `forgotBy` and `lostBy` are the permits that an event adds to or takes out
of circulation; the others are available or held (`semaphore_conservation`).
-/

namespace OhosFfrt.Semaphore.Conservation

open Basic Lib.Arena Lib.Runs Lib.WaitQueue List Option
open Semaphore.State Semaphore.System Semaphore.Moves

/-- The permits added. -/
def addedBy : Ev → ℕ
  | .other (.added n) => n
  | _ => 0

/-- The permits removed. -/
def reducedBy : Ev → ℕ
  | .other (.reduced n) => n
  | _ => 0

/-- The permits forgotten. -/
def forgotBy : Ev → ℕ
  | .other (.forgot n) => n
  | _ => 0

/-- The permits lost. -/
def lostBy : Ev → ℕ
  | .other (.lost n) => n
  | _ => 0

/-- All that left for good. -/
def outOf (es : List Ev) : ℕ := total reducedBy es + total forgotBy es + total lostBy es

/-- Nothing was added or left. -/
def Still (es : List Ev) : Prop := total addedBy es = 0 ∧ outOf es = 0

theorem outOf_append (es es' : List Ev) : outOf (es ++ es') = outOf es + outOf es' := by
  unfold outOf
  simp only [total_append]
  omega

theorem still_nil : Still [] := ⟨rfl, rfl⟩

theorem still_of {es : List Ev} (h : ∀ x ∈ es, ∀ e, x ≠ .other e) : Still es := by
  have hz : ∀ f : Ev → ℕ, (∀ x, (∀ e, x ≠ .other e) → f x = 0) → total f es = 0 :=
    fun f hf => total_eq_zero fun x hx => hf x (h x hx)
  unfold Still outOf
  rw [hz addedBy ?_, hz reducedBy ?_, hz forgotBy ?_, hz lostBy ?_]
  · exact ⟨rfl, rfl⟩
  all_goals
    intro x hx
    rcases x with _ | _ | _ | _ | _ | _ | e <;> first | rfl | exact absurd rfl (hx e)

theorem still_wake (o : Option Waker) : Still (wake o) := by
  refine still_of fun x hx e he => ?_
  obtain ⟨w, -, rfl⟩ := mem_map.mp hx
  cases he

theorem still_cons_wake {x : Ev} (h : ∀ e, x ≠ .other e) (o : Option Waker) :
    Still (x :: wake o) := by
  refine still_of fun y hy => ?_
  rcases mem_cons.mp hy with rfl | hy
  · exact h
  · obtain ⟨w, -, rfl⟩ := mem_map.mp hy
    exact fun e he => by cases he

theorem Still.added {es : List Ev} (h : Still es) (n : ℕ) :
    total addedBy (.other (.added n) :: es) = n ∧ outOf (.other (.added n) :: es) = 0 := by
  obtain ⟨h1, h2⟩ := h
  unfold outOf at h2 ⊢
  simp only [total_cons, addedBy, reducedBy, forgotBy, lostBy]
  omega

/-- **The balance of a step.** -/
def Balance (s s' : Sys) (es : List Ev) : Prop :=
  s'.state.permits + s'.held + outOf es = s.state.permits + s.held + total addedBy es

variable {s s' : Sys} {op : Op} {es tr : List Ev} {pm : SemaphorePermit} {g : ℕ}

theorem Still.balance (h : Still es)
    (heq : s'.state.permits + s'.held = s.state.permits + s.held) : Balance s s' es := by
  unfold Balance
  rw [h.1, h.2, heq]

theorem held_set (pm' : SemaphorePermit) (hg : s.permits[g]? = some pm) :
    total SemaphorePermit.numPermits (s.permits.set g pm') + pm.numPermits =
      s.held + pm'.numPermits := total_set hg

theorem numPermits_gone (pm : SemaphorePermit) : pm.gone.numPermits = 0 := rfl

theorem drop_balance (pm : SemaphorePermit) (h : s.drop g pm = (s', es)) :
    s'.state.permits + outOf es = s.state.permits + pm.permits ∧ total addedBy es = 0 ∧
      s'.held = total SemaphorePermit.numPermits (s.permits.set g pm.gone) := by
  rcases drop_cases s g pm with hd | ⟨-, hd⟩ | ⟨-, hd⟩ <;> rw [hd] at h <;> cases h
  · simp [outOf, reducedBy, forgotBy, lostBy, addedBy, Sys.held]
  · obtain ⟨h1, h2⟩ := still_wake
      (nextWaker { s.state with permits := s.state.permits + pm.permits })
    exact ⟨by rw [h2]; rfl, h1, rfl⟩
  · simp [outOf, reducedBy, forgotBy, lostBy, addedBy, Sys.held]

theorem drop_step_balance (pm1 : SemaphorePermit)
    (hg : s.permit? g = some pm) (hn : pm1.permits = pm.permits)
    (h : s.drop g pm1 = (s', es)) : Balance s s' es := by
  obtain ⟨h1, hlive, h2⟩ := permit?_some hg
  obtain ⟨h3, h4, h5⟩ := drop_balance pm1 h
  have h6 := held_set pm1.gone h1
  rw [numPermits_gone, h2, ← h5] at h6
  unfold Balance
  omega

theorem unwind_balance (hg : s.permit? g = some pm)
    (h : s.unwind g pm = some (s', es)) : Balance s s' es := by
  obtain ⟨h1, hlive, h2⟩ := permit?_some hg
  obtain ⟨r, hr, ⟨⟩⟩ := map_eq_some_iff.mp h
  obtain ⟨-, rfl⟩ := addPermits_some hr
  refine (still_wake _).balance ?_
  have h3 := held_set pm.gone h1
  rw [numPermits_gone, h2] at h3
  simp only [Sys.held] at h3 ⊢
  omega

theorem merge_balance {other : ℕ} {pm' : SemaphorePermit} (hg : s.permit? g = some pm)
    (hg' : s.permit? other = some pm') (hne : g ≠ other)
    (h : s.merge g other pm pm' = some (s', es)) : Balance s s' es := by
  unfold Sys.merge at h
  rcases hc : checkedAdd pm.permits pm'.permits with _ | n <;> rw [hc] at h
  · exact unwind_balance hg' h
  · simp only [some.injEq] at h
    obtain ⟨h1, h2, h3⟩ := drop_balance _ h
    obtain ⟨h4, hlive, h5⟩ := permit?_some hg
    obtain ⟨h6, -, h7⟩ := permit?_some hg'
    have hn : n = pm.permits + pm'.permits := by
      unfold checkedAdd at hc
      split_ifs at hc
      exact (some.inj hc).symm
    -- first `g` grows by what `other` has, then `other` is gone
    have h8 := held_set { pm with permits := n } h4
    have h9 : ({ pm with permits := n } : SemaphorePermit).numPermits = n := by
      simp [SemaphorePermit.numPermits, hlive]
    have h10 : (s.permits.set g { pm with permits := n })[other]? = some pm' := by
      rw [getElem?_set_ne hne]; exact h6
    have h11 := total_set (f := SemaphorePermit.numPermits)
      (b := ({ pm' with permits := 0 } : SemaphorePermit).gone) h10
    rw [numPermits_gone] at h11
    simp only at h1 h3
    unfold Balance
    omega

theorem poll_balance {f : ℕ} {cx : Waker} (h : step s (.poll f cx) = some (s', es)) :
    Balance s s' es := by
  obtain ⟨fut, -, ⟨⟩⟩ := map_eq_some_iff.mp h
  rcases hc : s.state.closed with _ | _
  · rcases pollAcquire_open fut.waiter fut.permits cx hc with
      ⟨-, -, hn, he⟩ | ⟨-, -, he⟩ | ⟨e, q, -, -, -, hn, he⟩ | ⟨id, p, -, -, -, he⟩ <;>
      simp only [he]
    · refine Still.balance (still_of (by simp)) ?_
      simp only [enough, decide_eq_true_eq] at hn
      simp [Sys.held, newPermit, SemaphorePermit.numPermits]
      omega
    · exact Still.balance (still_of (by simp)) rfl
    · refine Still.balance (still_cons_wake (by simp) _) ?_
      simp only [enough, decide_eq_true_eq] at hn
      simp [popTake, Sys.held, newPermit, SemaphorePermit.numPermits]
      omega
    · exact Still.balance (still_of (by simp)) rfl
  · simp only [pollAcquire_closed _ _ _ hc]
    exact Still.balance ⟨rfl, rfl⟩ rfl

theorem cancel_balance {f : ℕ} (h : step s (.dropFuture f) = some (s', es)) :
    Balance s s' es := by
  obtain ⟨fut, -, ⟨⟩⟩ := map_eq_some_iff.mp h
  rcases fut.waiter with _ | id
  · exact still_nil.balance rfl
  · unfold cancelWaiter
    rcases hp : position s.state.waiters id with _ | p
    · simp only [hp]
      exact (still_wake _).balance rfl
    · simp only [hp]
      exact Still.balance (still_cons_wake (by simp) _) rfl

theorem tryAcquire_balance {n : UInt32} {owned : Bool}
    (h : step s (.tryAcquireMany n owned) = some (s', es)) : Balance s s' es := by
  simp only [step] at h
  rcases ht : tryTake s.state n.toNat with e | st <;> rw [ht] at h
  · rcases e with _ | _ <;> cases h <;> exact Still.balance ⟨rfl, rfl⟩ rfl
  · cases h
    obtain ⟨-, -, hn, rfl⟩ := tryTake_ok ht
    refine Still.balance (still_of (by simp)) ?_
    simp [Sys.held, newPermit, SemaphorePermit.numPermits]
    omega

theorem split_balance {n : ℕ} (h : step s (.split g n) = some (s', es)) : Balance s s' es := by
  simp only [step, map_eq_some_iff] at h
  obtain ⟨pm, hg, h⟩ := h
  split_ifs at h with hn <;> cases h
  · exact still_nil.balance rfl
  · obtain ⟨h1, hlive, h2⟩ := permit?_some hg
    have h3 := held_set { pm with permits := pm.permits - n } h1
    refine still_nil.balance ?_
    simp [Sys.held, newPermit, SemaphorePermit.numPermits, hlive] at h3 ⊢
    omega

theorem balance_step (h : step s op = some (s', es)) : Balance s s' es := by
  cases op with
  | acquireMany =>
    cases h
    exact still_nil.balance rfl
  | poll => exact poll_balance h
  | dropFuture => exact cancel_balance h
  | tryAcquireMany => exact tryAcquire_balance h
  | dropPermit =>
    simp only [step, map_eq_some_iff] at h
    obtain ⟨pm, hg, h⟩ := h
    exact drop_step_balance pm hg rfl h
  | forget =>
    simp only [step, map_eq_some_iff] at h
    obtain ⟨pm, hg, h⟩ := h
    exact drop_step_balance { pm with forgotten := true } hg rfl h
  | merge =>
    simp only [step, bind_eq_some_iff] at h
    obtain ⟨pm, hg, pm', hg', h⟩ := h
    split_ifs at h with hne
    exact merge_balance hg hg' hne.1 h
  | mergeForeign =>
    simp only [step, bind_eq_some_iff] at h
    obtain ⟨pm, hg, h⟩ := h
    exact unwind_balance hg h
  | split => exact split_balance h
  | addPermits n =>
    simp only [step] at h
    rcases ha : addPermits s.state n with _ | r <;> rw [ha] at h <;> cases h
    · exact Still.balance ⟨rfl, rfl⟩ rfl
    · obtain ⟨-, rfl⟩ := addPermits_some ha
      unfold Balance
      rw [((still_wake _).added n).1, ((still_wake _).added n).2]
      simp only [Sys.held]
      omega
  | forgetPermits =>
    simp only [step, forgetPermits, some.injEq, Prod.mk.injEq] at h
    obtain ⟨rfl, rfl⟩ := h
    unfold Balance outOf
    simp only [total_cons, total_nil, addedBy, reducedBy, forgotBy, lostBy, Sys.held]
    omega
  | close =>
    cases h
    refine Still.balance (still_of fun x hx e he => ?_) rfl
    subst he
    simp [close] at hx

/-! ## The limit -/

theorem max_step (hm : s.state.permits ≤ maxPermits) (h : step s op = some (s', es)) :
    s'.state.permits ≤ maxPermits := by
  cases step_moved h with
  | create | close => exact hm
  | poll => exact (pollAcquire_counters ..).2.trans hm
  | cancel =>
    rw [cancelWaiter_eq]
    exact hm
  | lower hst hn | take hc hq hst hn => exact hn.trans hm
  | give es hst hm' => exact hm'

theorem lost_step {n : ℕ} (h : step s op = some (s', es)) (hl : .other (.lost n) ∈ es) :
    maxPermits < s.state.permits + s.held := by
  have hwake : ∀ o : Option Waker, (.other (.lost n) : Ev) ∉ wake o := by
    intro o hx
    obtain ⟨w, -, hw⟩ := mem_map.mp hx
    cases hw
  cases step_moved h with
  | create | take => simp at hl
  | @poll f cx fut =>
    rcases hc : s.state.closed with _ | _
    · rcases pollAcquire_open fut.waiter fut.permits cx hc with
        ⟨-, -, -, he⟩ | ⟨-, -, he⟩ | ⟨e, q, -, -, -, -, he⟩ | ⟨id, p, -, -, -, he⟩ <;>
        simp [he, hwake] at hl
    · simp [pollAcquire_closed _ _ _ hc] at hl
  | @cancel f fut =>
    rcases hw : fut.waiter with _ | id <;> rw [hw] at hl
    · simp [cancelWaiter] at hl
    · unfold cancelWaiter at hl
      rcases hp : position s.state.waiters id with _ | p <;> simp [hp, hwake] at hl
  | lower hst hn hfu hes hlost => exact hlost n hl
  | give es hst hm hfu hes hlost =>
    rcases mem_append.mp hl with hl | hl
    · exact absurd hl (hlost n)
    · exact absurd hl (hwake _)
  | close => simp [close] at hl

/-- The permits add up. -/
theorem balance_run {p : ℕ} {s₀ : Sys} (h0 : new p = some s₀) (h : Run step Any s₀ tr s) :
    s.state.permits + s.held + outOf tr = p + total addedBy tr ∧ s.state.permits ≤ maxPermits := by
  refine h.inv (I := fun tr s => s.state.permits + s.held + outOf tr = p + total addedBy tr ∧
    s.state.permits ≤ maxPermits) ?_ ?_
  · unfold new constNew at h0
    split_ifs at h0 with hp
    · simp only [map_some, some.injEq] at h0
      subst h0
      exact ⟨rfl, hp⟩
    · simp at h0
  · rintro tr s op s' es ⟨h1, h2⟩ - hs
    have h3 := balance_step hs
    unfold Balance at h3
    rw [outOf_append, total_append]
    exact ⟨by omega, max_step h2 hs⟩

/-- No permit is lost below the maximum. -/
theorem not_lost_run {p : ℕ} {s₀ : Sys} (h0 : new p = some s₀) (h : Run step Any s₀ tr s)
    (hr : ∀ tr', tr' <+: tr →
      p + total addedBy tr' ≤ maxPermits + total reducedBy tr' + total forgotBy tr') :
    ∀ n, .other (.lost n) ∉ tr := by
  have hal := h.along fun tr s hrun => balance_run h0 hrun
  refine hal.inv (I := fun tr _ => (∀ tr', tr' <+: tr →
    p + total addedBy tr' ≤ maxPermits + total reducedBy tr' + total forgotBy tr') →
    ∀ n, .other (.lost n) ∉ tr) (fun _ n => by simp) ?_ hr
  rintro tr s op s' es hI ⟨-, hb, -⟩ hs hr n hn
  have hold := hI fun tr' hp => hr tr' (hp.trans (prefix_append _ _))
  have hcirc := hr tr (prefix_append _ _)
  have hzero : total lostBy tr = 0 := by
    refine total_eq_zero fun x hx => ?_
    rcases x with _ | _ | _ | _ | _ | _ | e <;> try rfl
    cases e with
    | lost m => exact absurd hx (hold m)
    | _ => rfl
  rcases mem_append.mp hn with hn | hn
  · exact hold n hn
  · have hmax := lost_step hs hn
    unfold outOf at hb
    omega

/-- **Permits are conserved.**  Available and held permits, with those taken out by `forget_permits`
and `forget` and those lost in a drop that panicked, are the initial and the added ones; no more
than `MAX_PERMITS` are available; and if initial and added permits, less those taken out, never
exceed `MAX_PERMITS`, no drop of a permit has panicked, nor would one now. -/
theorem semaphore_conservation {p : ℕ} {s₀ : Sys} (h0 : new p = some s₀)
    (h : Run step Any s₀ tr s) :
    s.state.permits + s.held + total reducedBy tr + total forgotBy tr + total lostBy tr =
      p + total addedBy tr ∧
    s.state.permits ≤ maxPermits ∧
    ((∀ tr', tr' <+: tr →
        p + total addedBy tr' ≤ maxPermits + total reducedBy tr' + total forgotBy tr') →
      (∀ n, .other (.lost n) ∉ tr) ∧
      ∀ g pm, s.permit? g = some pm → addPermits s.state pm.permits ≠ none) := by
  obtain ⟨hb, hm⟩ := balance_run h0 h
  unfold outOf at hb
  refine ⟨by omega, hm, fun hr => ⟨not_lost_run h0 h hr, fun g pm hg hn => ?_⟩⟩
  have hle := permits_le_held hg
  have hmax := addPermits_none hn
  have hcirc := hr tr prefix_rfl
  omega

/-- Two of three permits are acquired, one of them is forgotten after a split. -/
theorem semaphore_conservation_split : ∃ s₀ s tr, new 3 = some s₀ ∧
    exec step s₀ [.tryAcquireMany 2 false, .split 0 1, .forget 1] = some (s, tr) ∧
    s.held = 1 ∧ s.state.permits + s.held + total reducedBy tr + total forgotBy tr +
      total lostBy tr = 3 + total addedBy tr := by
  refine ⟨_, _, _, rfl, rfl, rfl, ?_⟩
  exact (semaphore_conservation (p := 3) rfl (run_exec [.tryAcquireMany 2 false, .split 0 1,
    .forget 1] rfl)).1

/-- A permit is added while another is held, then the held one cannot be given back. -/
theorem permit_lost : ¬ ∀ p s₀ s tr, new p = some s₀ → Run step Any s₀ tr s →
    s.state.permits + s.held + total reducedBy tr + total forgotBy tr = p + total addedBy tr := by
  intro h
  have := h maxPermits _ _ _ rfl (run_exec [.tryAcquireMany 1 false, .addPermits 1, .dropPermit 0]
    rfl)
  revert this
  decide

end OhosFfrt.Semaphore.Conservation
