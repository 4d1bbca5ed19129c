import OhosFfrt.Mpsc.Permits

/-!
# `signal::mpsc`: what draining a channel can satisfy

Receives and permits that are used or given up (`Drains`) can bring every open channel to the state
in which nothing is queued and nothing reserved.  So it can serve a request that fits its capacity
(`request_satisfiable`).
-/

namespace OhosFfrt.Mpsc.Draining

open Basic Lib.Arena Lib.Runs
open Mpsc.Shared Mpsc.System Mpsc.Moves Mpsc.Steps
open Mpsc.Permits

variable {T : Type*} {s s₀ s' : Sys T} {op : Op T} {es tr : List (Ev T)} {o : Obj T} {j n k : ℕ}
  {cx : Waker}

/-! ### Requests -/

/-- The slots it waits for. -/
def request : Obj T → Option ℕ
  | .send .. | .reserve _ | .reserveOwned => some 1
  | .reserveMany _ permits => some permits
  | _ => none

/-- Its poll. -/
def pollOf (o : Obj T) (j : ℕ) (cx : Waker) : Op T :=
  match o with
  | .send .. => .pollSend j cx
  | _ => .pollReserve j cx

/-- What a request becomes when it is satisfied. -/
def granted : Obj T → Obj T
  | .reserve tx => .permit tx
  | .reserveMany tx permits => .permitIterator tx permits
  | .reserveOwned => .ownedPermit
  | _ => .gone

/-- **The poll of the request is `Ready(Ok)`**: it has its slots, or its value is accepted. -/
def Satisfied (s : Sys T) (j : ℕ) (o : Obj T) (cx : Waker) : Prop :=
  ∃ s' es, step s (pollOf o j cx) = some (s', es) ∧ s'.objs[j]? = some (granted o) ∧
    ∀ op v, o.pending = some (op, v) → .settled op v .accepted ∈ es

/-- **The poll of the request is `Pending`**: it stays what it is. -/
def Pending (s : Sys T) (j : ℕ) (o : Obj T) (cx : Waker) : Prop :=
  ∃ s' es, step s (pollOf o j cx) = some (s', es) ∧ s'.objs[j]? = some o

/-- **Only receives, and permits that are used or given up.** -/
def Drains (_ : List (Ev T)) (s : Sys T) : Op T → Prop
  | .tryRecv | .pollRecv _ | .pollRecvMany _ _ | .recv | .recvMany _ | .recvTimeout | .pollRx _
  | .sleepRx _ | .drain | .blockingRecv | .blockingRecvMany _ | .resumeRecv => True
  | .permitSend _ _ | .permitRelease _ => True
  | .drop i => ∃ x, s.objs[i]? = some x ∧ 0 < x.slots
  | _ => False

/-! ### The receiver is there -/

theorem settle_rx {op : ℕ} {v : T} {r : Fate × Inner T × List (Ev T)} {o o' : Obj T}
    {es' : List (Ev T)} : (s.settle j op v r o o' es').1.rx = s.rx := by
  unfold Sys.settle
  split_ifs <;> rfl

theorem reserving_rx {o o' : Obj T} : (s.reserving j n cx o o').1.rx = s.rx := by
  unfold Sys.reserving
  rcases pollReserve_cases s.inner n cx with hr | ⟨-, -, hr⟩ | ⟨-, -, hr⟩ <;> simp only [hr] <;> rfl

theorem release_rx (h : s.release j n o = some (s', es)) : s'.rx = s.rx := by
  obtain ⟨r, -, he⟩ := Option.map_eq_some_iff.mp h
  rw [← (Prod.mk.inj he).1]

theorem dropSender_rx (h : s.dropSender j = some (s', es)) : s'.rx = s.rx := by
  obtain ⟨r, -, he⟩ := Option.map_eq_some_iff.mp h
  rw [← (Prod.mk.inj he).1]

theorem taken_rx {r : Taken T} {got : Rx} {wait : Sys T × List (Ev T)} (hg : got ≠ .dropped)
    (hw : wait.1.rx ≠ .dropped) : (s.taken r got wait).1.rx ≠ .dropped := by
  unfold Sys.taken
  split
  · exact hg
  · simp
  · exact hw

theorem drop_rx (h : s.drop j = some (s', es)) : s'.rx = s.rx := by
  unfold Sys.drop at h
  split at h
  · split_ifs at h
    exact dropSender_rx h
  · exact dropSender_rx h
  · exact dropSender_rx h
  · exact release_rx h
  · exact release_rx h
  · exact release_rx h
  all_goals first
    | cases h; done
    | rw [← (Prod.mk.inj (Option.some.inj h)).1]; rfl

theorem pollSend_rx (h : s.pollSend j cx = some (s', es)) : s'.rx = s.rx := by
  unfold Sys.pollSend at h
  split at h
  · rw [← settle_rx (s := s), Option.some.inj h]
  · rw [← settle_rx (s := s), Option.some.inj h]
  · split_ifs at h <;> rw [← (Prod.mk.inj (Option.some.inj h)).1]
  · cases h

theorem pollSleep_rx {elapsed : Bool} (h : s.pollSleep j elapsed = some (s', es)) :
    s'.rx = s.rx := by
  unfold Sys.pollSleep at h
  split at h
  · split_ifs at h <;> rw [← (Prod.mk.inj (Option.some.inj h)).1] <;> rfl
  · rw [← (Prod.mk.inj (Option.some.inj h)).1]; rfl
  · cases h

theorem pollReserve_rx (h : s.pollReserve j cx = some (s', es)) :
    s'.rx = s.rx := by
  unfold Sys.pollReserve at h
  split at h
  iterate 3
    · rw [← reserving_rx (s := s), Option.some.inj h]
  · cases h

theorem blockingRound_rx (limit : Option ℕ) : (s.blockingRound limit).1.rx ≠ .dropped := by
  refine taken_rx ?_ (by simp [Sys.parkRecv])
  cases limit <;> simp [afterFirst]

theorem pollRecvMany_rx {limit : ℕ} (hrx : s.rx ≠ .dropped) :
    (s.pollRecvMany cx limit).1.rx ≠ .dropped := by
  unfold Sys.pollRecvMany
  dsimp only
  split_ifs
  · exact hrx
  · exact hrx
  · simp [Sys.waitRecv]

theorem pollRx_rx (h : s.pollRx cx = some (s', es)) : s'.rx ≠ .dropped := by
  have htaken : ∀ {r : Taken T} {got rx : Rx}, got ≠ .dropped → rx ≠ .dropped →
      some (s.taken r got (s.waitRecv cx rx)) = some (s', es) → s'.rx ≠ .dropped := by
    intro r got rx hg hx h
    have hrx : (s.taken r got (s.waitRecv cx rx)).1.rx ≠ .dropped := taken_rx hg hx
    rwa [Option.some.inj h] at hrx
  unfold Sys.pollRx at h
  split at h
  · exact htaken (by simp) (by simp) h
  · rw [← (Prod.mk.inj (Option.some.inj h)).1]
    simp
  · exact htaken (by simp) (by simp) h
  · exact htaken (by simp) (by simp) h
  · cases h

theorem drain_rx (h : s.drain = some (s', es)) : s'.rx ≠ .dropped := by
  unfold Sys.drain at h
  split at h
  · split_ifs at h
    · split at h <;> rw [← (Prod.mk.inj (Option.some.inj h)).1] <;> simp
    · rw [← (Prod.mk.inj (Option.some.inj h)).1]
      simp
  · cases h

theorem rx_step (h : step s op = some (s', es)) (hop : op ≠ .dropReceiver)
    (hrx : s.rx ≠ .dropped) : s'.rx ≠ .dropped := by
  -- what a guard lets through
  have hguard : ∀ {c : Bool} {x : Sys T × List (Ev T)}, guarded c x = some (s', es) →
      x.1.rx ≠ .dropped → s'.rx ≠ .dropped := by
    intro c x hg hx
    obtain ⟨-, hg⟩ := guarded_some hg
    rwa [hg] at hx
  cases op with
  | recv | recvMany | recvTimeout => exact hguard h (by simp)
  | blockingSend =>
    refine hguard h ?_
    split_ifs <;> exact hrx
  | tryReserve | tryReserveMany | tryReserveOwned =>
    refine hguard h ?_
    dsimp only
    split_ifs <;> exact hrx
  | resumeSend =>
    simp only [step] at h
    split at h
    · rw [← settle_rx (s := s), Option.some.inj h] at hrx
      exact hrx
    · cases h
  | pollSend => rwa [pollSend_rx h]
  | pollSleep => rwa [pollSleep_rx h]
  | pollReserve => rwa [pollReserve_rx h]
  | drop => rwa [drop_rx h]
  | permitSend =>
    simp only [step, Sys.permitSend] at h
    split at h
    iterate 2
      · obtain ⟨r, -, he⟩ := Option.map_eq_some_iff.mp h
        rwa [← (Prod.mk.inj he).1]
    · cases h
  | permitNext j | cloneWeak j =>
    simp only [step] at h
    split at h
    · rwa [← (Prod.mk.inj (Option.some.inj h)).1]
    all_goals first
      | cases h; done
      | rwa [← (Prod.mk.inj (Option.some.inj h)).1]
  | permitRelease =>
    simp only [step] at h
    split at h
    · rwa [release_rx h]
    · cases h
  | upgrade j | pollClosed j cx =>
    simp only [step] at h
    split at h
    · split at h <;> rwa [← (Prod.mk.inj (Option.some.inj h)).1]
    · cases h
  | tryRecv => exact hguard h (taken_rx (by simp) hrx)
  | pollRecv => exact hguard h (taken_rx (by simp) (by simp [Sys.waitRecv]))
  | pollRecvMany =>
    refine hguard h ?_
    split_ifs
    · exact hrx
    · exact pollRecvMany_rx hrx
  | pollRx => exact pollRx_rx h
  | sleepRx =>
    refine hguard h ?_
    dsimp only
    split_ifs <;> simp
  | drain => exact drain_rx h
  | dropRx =>
    simp only [step] at h
    split at h
    all_goals first
      | cases h; done
      | rw [← (Prod.mk.inj (Option.some.inj h)).1]; simp
  | blockingRecv => exact hguard h (blockingRound_rx _)
  | blockingRecvMany =>
    refine hguard h ?_
    split_ifs
    · exact hrx
    · exact blockingRound_rx _
  | resumeRecv =>
    simp only [step] at h
    split at h
    · next limit _ =>
      have := blockingRound_rx (s := s) limit
      rwa [Option.some.inj h] at this
    · cases h
  | dropReceiver => exact absurd rfl hop
  | _ => exact hguard h hrx

theorem alive_step (h : step s op = some (s', es)) (hal : s'.inner.receiverAlive = true) :
    s.inner.receiverAlive = true := by
  cases step_moved h with
  | keep hi | refuse hi | begin hi | settle hi | pushNew hi | pushPending hi | pushReserved _ hi
  | waitSend hi | parkSend hi | reserve hi | addSender hi | waitClose hi | pop _ _ _ hi | ended hi
  | waitRecv hi | parkRecv hi =>
    rw [hi] at hal
    exact hal
  | release hn hi =>
    obtain ⟨r, w, -, hi, -⟩ := releaseReserved_some hn hi
    rw [hi] at hal
    exact hal
  | dropSender hi =>
    obtain ⟨n, w, -, hi, -⟩ := dropSender_some hi
    rw [hi] at hal
    exact hal
  | shut _ hi =>
    obtain ⟨ws, hsh, -⟩ := shut_eq s.inner
    rw [hi, hsh] at hal
    cases hal

theorem rx_of_alive {C : List (Ev T) → Sys T → Op T → Prop} (h0 : s₀ = Sys.new (some n))
    (h : Run step C s₀ tr s) : s.inner.receiverAlive = true → s.rx ≠ .dropped := by
  refine h.inv (I := fun _ s => s.inner.receiverAlive = true → s.rx ≠ .dropped) ?_ ?_
  · intro _
    rw [h0]
    simp [Sys.new]
  · intro tr s op s' es hI _ hs hal
    by_cases hop : op = .dropReceiver
    · subst hop
      obtain ⟨-, hs⟩ := guarded_some hs
      obtain ⟨ws, hsh, -⟩ := shut_eq s.inner
      rw [← (Prod.mk.inj hs).1, hsh] at hal
      cases hal
    · exact rx_step hs hop (hI (alive_step hs hal))

/-! ### Draining -/

/-- An open channel with `n` slots, in which the request `o` waits at `j`. -/
structure Waiting (n : ℕ) (j : ℕ) (o : Obj T) (s : Sys T) : Prop where
  accounts : Accounts (some n) s
  alive : s.inner.receiverAlive = true
  rx : s.rx ≠ .dropped
  get : s.objs[j]? = some o

/-- The steps that a receive takes before it looks at the queue again. -/
def detour : Rx → ℕ
  | .recvMany 0 | .recvTimeout true | .draining .. => 1
  | _ => 0

/-- What is left to drain. -/
def left (s : Sys T) : ℕ := s.slots + 2 * s.inner.queue.length + detour s.rx

/-- There is a step after which less is left to drain. -/
def Drained (tr : List (Ev T)) (n j : ℕ) (o : Obj T) (s : Sys T) : Prop :=
  ∃ op s' es, Drains tr s op ∧ step s op = some (s', es) ∧ Waiting n j o s' ∧ left s' < left s

theorem drop_slots {i : ℕ} {x : Obj T} (hi : s.objs[i]? = some x) (hx : 0 < x.slots) :
    ∃ b : Obj T, s.drop i = s.release i x.slots b := by
  unfold Sys.drop
  cases x with
  | permit | permitIterator => exact ⟨.gone, by rw [hi]; rfl⟩
  | ownedPermit => exact ⟨.dropping, by rw [hi]; rfl⟩
  | _ => cases hx

theorem release_one (tr : List (Ev T)) (h : Waiting n j o s) (ho : o.slots = 0)
    (hs : s.slots ≠ 0) : Drained tr n j o s := by
  have hex : ∃ x ∈ s.objs, 0 < x.slots := by
    by_contra hno
    refine hs (total_eq_zero fun x hx => ?_)
    by_contra hx'
    exact hno ⟨x, hx, Nat.pos_of_ne_zero hx'⟩
  obtain ⟨x, hx, hpos⟩ := hex
  obtain ⟨i, hi⟩ := List.mem_iff_getElem?.mp hx
  obtain ⟨b, hdrop⟩ := drop_slots hi hpos
  obtain ⟨⟨i', es⟩, hrel⟩ :=
    Option.ne_none_iff_exists'.mp (releaseReserved_ne_none (h.accounts.slots_le hx))
  obtain ⟨r, w, hres, hi', -⟩ := releaseReserved_some hpos hrel
  have hstep : step s (.drop i) = some ({ s with inner := i', objs := s.objs.set i b }, es) := by
    show s.drop i = _
    rw [hdrop, Sys.release, hrel]
    rfl
  have hacc := accounts_step h.accounts hstep
  have hij : i ≠ j := by
    rintro rfl
    rw [h.get] at hi
    cases hi
    omega
  refine ⟨.drop i, _, es, ⟨x, hi, hpos⟩, hstep, ⟨hacc, ?_, h.rx, ?_⟩, ?_⟩
  · show i'.receiverAlive = true
    rw [hi']
    exact h.alive
  · show (s.objs.set i b)[j]? = some o
    rw [List.getElem?_set_ne hij]
    exact h.get
  · have h1 := h.accounts.reserved
    have h2 := hacc.reserved
    simp only [left] at h2 ⊢
    rw [← h1, ← h2, hi']
    dsimp only
    omega

theorem taken_pop {v : T} {q : List T} (hq : s.inner.queue = v :: q) (d : Bool) (got : Rx)
    (wait : Sys T × List (Ev T)) : ∃ ws es, s.taken (take s.inner d) got wait =
      ({ s with inner := { s.inner with queue := q, sendWakers := ws }, rx := got }, es) := by
  unfold take
  rw [hq]
  cases d
  · exact ⟨_, _, rfl⟩
  · exact ⟨_, _, rfl⟩

theorem drained_pop {v : T} {q : List T} (op : Op T) (got : Rx) (h : Waiting n j o s)
    (hq : s.inner.queue = v :: q) (hD : Drains tr s op) (hgot : got ≠ .dropped)
    (hle : detour got ≤ 1)
    (hs : ∃ ws es, step s op =
      some ({ s with inner := { s.inner with queue := q, sendWakers := ws }, rx := got }, es)) :
    Drained tr n j o s := by
  obtain ⟨ws, es, hs⟩ := hs
  refine ⟨op, _, es, hD, hs, ⟨accounts_step h.accounts hs, h.alive, hgot, h.get⟩, ?_⟩
  simp only [left, Sys.slots, hq, List.length_cons]
  omega

theorem drained_detour (op : Op T) (got : Rx) (h : Waiting n j o s) (hD : Drains tr s op)
    (hgot : got ≠ .dropped) (hlt : detour got < detour s.rx)
    (hs : step s op = some ({ s with rx := got }, [])) : Drained tr n j o s := by
  refine ⟨op, _, [], hD, hs, ⟨accounts_step h.accounts hs, h.alive, hgot, h.get⟩, ?_⟩
  simp only [left, Sys.slots]
  omega

theorem receive_one (h : Waiting n j o s) (hq : s.inner.queue ≠ []) : Drained tr n j o s := by
  obtain ⟨v, q, hq⟩ := List.exists_cons_of_ne_nil hq
  cases hrx : s.rx with
  | idle =>
    obtain ⟨ws, es, ht⟩ := taken_pop hq s.inner.capacity.isSome .idle (s, [])
    refine drained_pop .tryRecv .idle h hq trivial (by simp) (by simp [detour]) ⟨ws, es, ?_⟩
    rw [← ht]
    simp [step, guarded, hrx, tryRecv]
  | recv =>
    obtain ⟨ws, es, ht⟩ := taken_pop hq true .idle (s.waitRecv 0 .recv)
    refine drained_pop (.pollRx 0) .idle h hq trivial (by simp) (by simp [detour]) ⟨ws, es, ?_⟩
    rw [← ht]
    simp [step, Sys.pollRx, hrx, pollRecvShared]
  | recvMany limit =>
    cases limit with
    | zero =>
      refine drained_detour (.pollRx 0) .idle h trivial (by simp) (by simp [hrx, detour]) ?_
      simp [step, Sys.pollRx, hrx]
    | succ limit =>
      obtain ⟨ws, es, ht⟩ := taken_pop hq true (.draining (limit + 1) 1)
        (s.waitRecv 0 (.recvMany (limit + 1)))
      refine drained_pop (.pollRx 0) (.draining (limit + 1) 1) h hq trivial (by simp)
        (by simp [detour]) ⟨ws, es, ?_⟩
      rw [← ht]
      simp [step, Sys.pollRx, hrx, pollRecvShared]
  | recvTimeout sleeping =>
    cases sleeping with
    | false =>
      obtain ⟨ws, es, ht⟩ := taken_pop hq s.inner.capacity.isSome .idle
        (s.waitRecv 0 (.recvTimeout true))
      refine drained_pop (.pollRx 0) .idle h hq trivial (by simp) (by simp [detour]) ⟨ws, es, ?_⟩
      rw [← ht]
      simp [step, Sys.pollRx, hrx, pollRecvTimeout]
    | true =>
      refine drained_detour (.sleepRx true) .idle h trivial (by simp) (by simp [hrx, detour]) ?_
      simp [step, guarded, hrx]
  | blocking limit =>
    obtain ⟨ws, es, ht⟩ := taken_pop hq s.inner.capacity.isSome (afterFirst limit)
      (s.parkRecv limit)
    refine drained_pop .resumeRecv (afterFirst limit) h hq trivial ?_ ?_ ⟨ws, es, ?_⟩
    · cases limit <;> simp [afterFirst]
    · cases limit <;> simp [afterFirst, detour]
    · rw [← ht]
      simp [step, hrx, Sys.blockingRound, blockingRecv]
  | draining limit got =>
    by_cases hgot : got < limit
    · have hcap : s.inner.capacity.isSome = true := by rw [h.accounts.capacity]; rfl
      refine drained_pop .drain (.draining limit (got + 1)) h hq trivial (by simp)
        (by simp [detour]) ⟨[], .received v :: (wakeSend s.inner ++ [.broadcast]), ?_⟩
      simp [step, Sys.drain, hrx, hgot, tryRecv, take, hq, hcap]
    · refine drained_detour .drain .idle h trivial (by simp) (by simp [hrx, detour]) ?_
      simp [step, Sys.drain, hrx, hgot]
  | dropped => exact absurd hrx h.rx

/-! ### Requests that can be satisfied -/

theorem slots_of_request (h : request o = some k) : o.slots = 0 := by
  cases o with
  | send | reserve | reserveOwned | reserveMany => rfl
  | _ => cases h

theorem satisfied_of_empty (h : Waiting n j o s) (ho : request o = some k) (hk : k ≤ n)
    (hn : 0 < n) (hs : s.slots = 0) (hq : s.inner.queue = []) (cx : Waker) :
    Satisfied s j o cx := by
  have hres : s.inner.reserved = 0 := h.accounts.reserved.trans hs
  have hfree : s.inner.free = n := by
    rw [free_eq h.accounts.capacity, hq, hres]
    rfl
  have hlt : j < s.objs.length := lt_length h.get
  -- a reservation
  have hreserve : ∀ (k : ℕ) (g o' : Obj T), k ≤ n → ∃ s' es,
      s.reserving j k cx g o' = (s', es) ∧ s'.objs[j]? = some g := by
    intro k g o' hk
    rcases pollReserve_cases s.inner k cx with hr | ⟨-, -, hr⟩ | ⟨-, hlt', -⟩
    · unfold Shared.pollReserve at hr
      rw [h.alive, hfree] at hr
      simp [hk] at hr
    · refine ⟨_, _, rfl, ?_⟩
      simp only [hr, Sys.put]
      exact List.getElem?_set_self hlt
    · omega
  have hjoin := h.get
  unfold Satisfied pollOf
  cases o with
  | send tx op v =>
    have hfull : s.inner.full = false := by
      unfold Inner.full
      rw [h.accounts.capacity, hq, hres]
      simp only [Option.any_some, List.length_nil, decide_eq_false_iff_not]
      omega
    have hpoll : Shared.pollSend s.inner v cx = (.accepted, push s.inner v) := by
      simp [Shared.pollSend, offer, h.alive, hfull]
    have hstep : step s (.pollSend j cx) =
        some ({ s with inner := (push s.inner v).1, objs := s.objs.set j .gone },
          .settled op v .accepted :: (push s.inner v).2) := by
      simp [step, Sys.pollSend, hjoin, hpoll, Sys.settle]
    refine ⟨_, _, hstep, List.getElem?_set_self hlt, fun op' v' hp => ?_⟩
    obtain ⟨rfl, rfl⟩ : op = op' ∧ v = v' := by simpa [Obj.pending] using hp
    exact List.mem_cons_self
  | reserve tx =>
    obtain rfl : 1 = k := by simpa [request] using ho
    obtain ⟨s', es, hs', hg⟩ := hreserve 1 (.permit tx) .gone hk
    refine ⟨s', es, ?_, hg, by simp [Obj.pending]⟩
    simp only [step, Sys.pollReserve, hjoin, hs']
  | reserveMany tx permits =>
    obtain rfl : permits = k := by simpa [request] using ho
    obtain ⟨s', es, hs', hg⟩ := hreserve permits (.permitIterator tx permits) .gone hk
    refine ⟨s', es, ?_, hg, by simp [Obj.pending]⟩
    simp only [step, Sys.pollReserve, hjoin, hs']
  | reserveOwned =>
    obtain rfl : 1 = k := by simpa [request] using ho
    obtain ⟨s', es, hs', hg⟩ := hreserve 1 .ownedPermit .dropping hk
    refine ⟨s', es, ?_, hg, by simp [Obj.pending]⟩
    simp only [step, Sys.pollReserve, hjoin, hs']
  | _ => cases ho

/-- **A request for more slots than the channel has is never satisfied**, and it waits as long as
the channel is open. -/
theorem pending_of_large {tx : ℕ} (h : Accounts (some n) s)
    (hj : s.objs[j]? = some (.reserveMany tx k)) (hk : n < k) :
    ¬ Satisfied s j (.reserveMany tx k) cx ∧
      (s.inner.receiverAlive = true → Pending s j (.reserveMany tx k) cx) := by
  have hfree : s.inner.free < k := by
    rw [free_eq h.capacity]
    omega
  have hlt : j < s.objs.length := lt_length hj
  have hstep : step s (.pollReserve j cx) =
      some (s.reserving j k cx (.permitIterator tx k) .gone) := by
    simp only [step, Sys.pollReserve, hj]
  rcases pollReserve_cases s.inner k cx with hr | ⟨-, hle, -⟩ | ⟨-, -, hr⟩
  · have hres : s.reserving j k cx (.permitIterator tx k) .gone = (s.put j .gone, []) := by
      simp only [Sys.reserving, hr]
    rw [hres] at hstep
    refine ⟨?_, fun hal => ?_⟩
    · rintro ⟨s', es, hs, hg, -⟩
      rw [show pollOf (.reserveMany tx k) j cx = .pollReserve j cx from rfl, hstep] at hs
      obtain ⟨rfl, -⟩ := Prod.mk.inj (Option.some.inj hs)
      rw [Sys.put, List.getElem?_set_self hlt] at hg
      cases hg
    · unfold Shared.pollReserve at hr
      rw [hal, if_neg (by simp), if_neg (by omega)] at hr
      cases hr
  · omega
  · have hres : s.reserving j k cx (.permitIterator tx k) .gone =
        ({ s with inner := waitSend s.inner cx k }, []) := by
      simp only [Sys.reserving, hr]
    rw [hres] at hstep
    refine ⟨?_, fun _ => ⟨_, _, hstep, hj⟩⟩
    rintro ⟨s', es, hs, hg, -⟩
    rw [show pollOf (.reserveMany tx k) j cx = .pollReserve j cx from rfl, hstep] at hs
    obtain ⟨rfl, -⟩ := Prod.mk.inj (Option.some.inj hs)
    rw [show s.objs[j]? = _ from hj] at hg
    cases hg

/-- **A request can be satisfied if and only if it is for at most as many slots as the channel
has**: from every state of an open channel, receives and permits that are used or given up lead to a
state in which the request is still there and its poll is ready. -/
theorem request_satisfiable {k : ℕ} {cx : Waker} (h0 : channel n = some s₀)
    (h : Run step Any s₀ tr s) (hal : s.inner.receiverAlive = true) (hj : s.objs[j]? = some o)
    (ho : request o = some k) :
    (∃ tr' s', Run step Drains s tr' s' ∧ s'.objs[j]? = some o ∧ Satisfied s' j o cx) ↔ k ≤ n := by
  have hnew := channel_some h0
  have hn : 0 < n := by
    unfold channel at h0
    split_ifs at h0 with hpos
    exact hpos
  have hW : Waiting n j o s := ⟨accounts_run hnew h, hal, rx_of_alive hnew h hal, hj⟩
  constructor
  · rintro ⟨tr', s', hrun, hj', hsat⟩
    have hrun' : Run step Any s tr' s' := hrun.along_inputs (f := id) fun _ _ _ _ => trivial
    have hacc := accounts_run hnew (h.trans hrun')
    -- all other requests are for one slot
    cases o with
    | reserveMany tx permits =>
      obtain rfl : permits = k := by simpa [request] using ho
      by_contra hlt
      exact (pending_of_large hacc hj' (by omega)).1 hsat
    | send | reserve | reserveOwned =>
      obtain rfl : 1 = k := by simpa [request] using ho
      exact hn
    | _ => cases ho
  · intro hk
    have hstart : Run step Drains s [] s := .nil
    obtain ⟨tr', s', hrun, hW', hs, hq⟩ :=
      hstart.reach (K := Waiting n j o) (G := fun s => s.slots = 0 ∧ s.inner.queue = [])
        (m := left) hW fun tr s hW hG => by
          by_cases hs : s.slots = 0
          · exact receive_one hW fun hq => hG ⟨hs, hq⟩
          · exact release_one tr hW (slots_of_request ho) hs
    exact ⟨tr', s', hrun, hW'.get, satisfied_of_empty hW' ho hk hn hs hq cx⟩

/-- A request for two slots of two, with one slot in a permit, one value queued and a `recv_many`
under way. -/
def crowd : List (Op ℕ) :=
  [.clone 0, .trySend 0 7, .tryReserve 0, .recvMany 3, .reserveMany 1 2, .pollReserve 3 0]

theorem request_satisfiable_crowd : ∃ (s₀ s : Sys ℕ) (tr : List (Ev ℕ)), channel 2 = some s₀ ∧
    Run step Any s₀ tr s ∧ Pending s 3 (.reserveMany 1 2) 0 ∧
    ∃ tr' s', Run step Drains s tr' s' ∧ s'.objs[3]? = some (.reserveMany 1 2) ∧
      Satisfied s' 3 (.reserveMany 1 2) 0 := by
  refine ⟨_, _, _, rfl, run_exec crowd rfl, ⟨_, _, rfl, rfl⟩, ?_⟩
  exact (request_satisfiable (n := 2) (k := 2) rfl (run_exec crowd rfl) rfl rfl rfl).mpr
    (Nat.le_refl 2)

/-- **`reserve_many(2)` of a channel with one slot**: it is pending, and after every continuation,
whatever is received and whatever permits are given up, it still is. -/
theorem reserve_many_stuck : ∃ (s₀ s : Sys ℕ) (tr : List (Ev ℕ)), channel 1 = some s₀ ∧
    Run step Any s₀ tr s ∧ s.inner.receiverAlive = true ∧
    Pending s 1 (.reserveMany 0 2) 0 ∧
    ∀ tr' s' cx, Run step Any s tr' s' → s'.objs[1]? = some (.reserveMany 0 2) →
      ¬ Satisfied s' 1 (.reserveMany 0 2) cx ∧
        (s'.inner.receiverAlive = true → Pending s' 1 (.reserveMany 0 2) cx) := by
  have hrun : Run step Any (Sys.new (some 1) : Sys ℕ) _ _ := run_exec [.reserveMany 0 2] rfl
  refine ⟨_, _, _, rfl, hrun, rfl, ⟨_, _, rfl, rfl⟩, fun tr' s' cx hrun' hj => ?_⟩
  exact pending_of_large (accounts_run rfl (hrun.trans hrun')) hj (by decide)

end OhosFfrt.Mpsc.Draining
