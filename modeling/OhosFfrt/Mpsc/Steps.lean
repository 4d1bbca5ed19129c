import OhosFfrt.Mpsc.Moves

/-!
# `signal::mpsc`: every step is a move

Operations that share a section share a lemma here; `step_moved` is the result.
-/

namespace OhosFfrt.Mpsc.Steps

open Basic Lib.Arena Mpsc.Shared Mpsc.System
open Mpsc.Moves

variable {T : Type*} {L : Prop} {s s' : Sys T} {es es' : List (Ev T)} {a b o o' : Obj T}
  {j tx n op : ℕ} {cx : Waker} {v : T} {r : Fate × Inner T × List (Ev T)}

/-! ## Channels and sends -/

theorem isSender_some (h : s.isSender tx = true) : s.objs[tx]? = some .sender := by
  unfold Sys.isSender at h
  split at h
  · assumption
  · cases h

theorem isBounded_some (h : s.isBounded tx = true) :
    s.inner.capacity.isSome = true ∧ s.objs[tx]? = some .sender := by
  unfold Sys.isBounded at h
  rw [Bool.and_eq_true] at h
  exact ⟨h.1, isSender_some h.2⟩

theorem unborrowed_some (h : s.unborrowed tx = true) :
    ∀ o ∈ s.objs, o.borrows ≠ some tx := by
  unfold Sys.unborrowed at h
  simpa using h

theorem channel_some (h : channel n = some s) : s = Sys.new (some n) := by
  unfold channel at h
  split_ifs at h
  exact (Option.some.inj h).symm

theorem new_of_channel (h : (∃ n, channel n = some s) ∨ s = unboundedChannel) :
    ∃ c, s = Sys.new c := by
  rcases h with ⟨n, h⟩ | h
  · exact ⟨some n, channel_some h⟩
  · exact ⟨none, h⟩

theorem guarded_some {α : Type*} {c : Bool} {x y : α} (h : guarded c x = some y) :
    c = true ∧ x = y := by
  unfold guarded at h
  split_ifs at h with hc
  exact ⟨hc, Option.some.inj h⟩

theorem offer_cases (i : Inner T) (v : T) :
    (offer i v = (.closed, i, [])) ∨ (NoRoom i ∧ offer i v = (.full, i, [])) ∨
    (Room i ∧ offer i v = (.accepted, push i v)) := by
  unfold offer
  split_ifs with h1 h2
  · exact .inl rfl
  · exact .inr (.inl ⟨⟨by simpa using h1, h2⟩, rfl⟩)
  · exact .inr (.inr ⟨⟨by simpa using h1, by simpa using h2⟩, rfl⟩)

theorem free_of_noRoom {i : Inner T} (h : NoRoom i) : i.free < 1 := by
  obtain ⟨-, h⟩ := h
  unfold Inner.full at h
  unfold Inner.free
  rcases hc : i.capacity with _ | c
  · rw [hc] at h
    cases h
  · rw [hc] at h
    simp only [Option.any_some, decide_eq_true_eq] at h
    simp only [Option.getD_some]
    omega

theorem backed_of_get (hj : s.objs[j]? = some a)
    (h : a.isSender = true ∨ a.borrows ≠ none) : Backed s.objs :=
  ⟨a, List.mem_of_getElem? hj, h⟩

theorem moved_sent (hr : r = offer s.inner v)
    (hbk : Backed s.objs) (h : s.sent v r = (s', es)) : Moved L s s' es := by
  subst hr
  unfold Sys.sent at h
  rcases offer_cases s.inner v with ho | ⟨-, ho⟩ | ⟨hroom, ho⟩ <;> rw [ho] at h <;>
    simp only [Prod.mk.injEq] at h <;> obtain ⟨rfl, rfl⟩ := h
  · exact .refuse rfl rfl rfl (by decide)
  · exact .refuse rfl rfl rfl (by decide)
  · exact .pushNew rfl rfl rfl hroom hbk

theorem pollSend_cases (i : Inner T) (v : T) (cx : Waker) :
    (pollSend i v cx = (.closed, i, [])) ∨
    (NoRoom i ∧ pollSend i v cx = (.full, waitSend i cx 1, [])) ∨
    (Room i ∧ pollSend i v cx = (.accepted, push i v)) := by
  rcases offer_cases i v with ho | ⟨h, ho⟩ | ⟨h, ho⟩
  · exact .inl (by simp [pollSend, ho])
  · exact .inr (.inl ⟨h, by simp [pollSend, ho]⟩)
  · exact .inr (.inr ⟨h, by simp [pollSend, ho]⟩)

/-- **A pending send that is tried again**: `o` is its object once it is settled, and it may go on
waiting for room. -/
theorem moved_settle (hj : s.objs[j]? = some a) (h : s.settle j op v r o o' es' = (s', es))
    (hp : a.pending = some (op, v)) (ho : o.pending = none) (hao : Alike a o)
    (hb : o.borrows = none) (hbk : a.borrows ≠ none ∨ L)
    (hr : r = (.closed, s.inner, []) ∨ (NoRoom s.inner ∧ r.1 = .full) ∨
      (Room s.inner ∧ r = (.accepted, push s.inner v)))
    (hwait : NoRoom s.inner → Moved L s { s with inner := r.2.1, objs := s.objs.set j o' } es') :
    Moved L s s' es := by
  have hns : a ≠ .sender := by rintro rfl; cases hp
  have ht : Trade s.objs (s.objs.set j o) a o := trade_set hj (.inl hb) fun h => absurd h hns
  unfold Sys.settle at h
  rcases hr with rfl | ⟨hno, hr⟩ | ⟨hroom, rfl⟩
  · cases h
    exact .settle rfl rfl ht hao hp ho nofun
  · simp only [if_pos hr] at h
    cases h
    exact hwait hno
  · cases h
    have hbk' := hbk.imp_left fun h => backed_of_get hj (.inr h)
    exact .pushPending rfl rfl ht hao hp ho hroom hbk'

theorem trade_like (hj : s.objs[j]? = some a) (hns : a ≠ .sender)
    (hb : b.borrows = none ∨ b.borrows = a.borrows) : Trade s.objs (s.objs.set j b) a b :=
  trade_set hj hb fun h => absurd h hns

theorem moved_put (hj : s.objs[j]? = some a) (h : (s.put j b, []) = (s', es))
    (hns : a ≠ .sender) (hb : b.borrows = none ∨ b.borrows = a.borrows) (hab : Alike a b)
    (hp : a.pending = b.pending) : Moved L s s' es := by
  unfold Sys.put at h
  cases h
  exact .keep rfl rfl (trade_like hj hns hb) hab hp

theorem moved_fail {f : Fate} (hj : s.objs[j]? = some a)
    (h : (s.put j b, [.settled op v f]) = (s', es)) (hp : a.pending = some (op, v))
    (hb : b.pending = none) (hab : Alike a b) (hbb : b.borrows = none) (hf : f ≠ .accepted) :
    Moved L s s' es := by
  have hns : a ≠ .sender := by rintro rfl; cases hp
  unfold Sys.put at h
  cases h
  exact .settle rfl rfl (trade_like hj hns (.inl hbb)) hab hp hb hf

theorem moved_settle_poll
    (hj : s.objs[j]? = some a) (h : s.settle j op v (pollSend s.inner v cx) o o' [] = (s', es))
    (hp : a.pending = some (op, v)) (ho : o.pending = none) (hao : Alike a o)
    (hb : o.borrows = none) (hbk : a.borrows ≠ none ∨ L)
    (ho' : a.pending = o'.pending) (hao' : Alike a o')
    (hb' : o'.borrows = none ∨ o'.borrows = a.borrows) : Moved L s s' es := by
  have hns : a ≠ .sender := by rintro rfl; cases hp
  refine moved_settle hj h hp ho hao hb hbk ?_ fun hno => ?_
  · rcases pollSend_cases s.inner v cx with hr | ⟨hno, hr⟩ | ⟨hroom, hr⟩ <;> rw [hr]
    · exact .inl rfl
    · exact .inr (.inl ⟨hno, rfl⟩)
    · exact .inr (.inr ⟨hroom, rfl⟩)
  · have hr : (pollSend s.inner v cx).2.1 = waitSend s.inner cx 1 := by
      simp [pollSend, offer, hno.1, hno.2]
    exact .waitSend hr rfl (trade_like hj hns hb') hao' ho' hno.1 (free_of_noRoom hno)

theorem moved_pollSend (h : s.pollSend j cx = some (s', es)) :
    Moved (pollsTimeout s (.pollSend j cx) = true) s s' es := by
  unfold Sys.pollSend at h
  split at h
  · next tx op v hj =>
    exact moved_settle_poll hj (Option.some.inj h) rfl rfl ⟨rfl, rfl⟩ rfl
      (.inl (by simp [Obj.borrows])) rfl ⟨rfl, rfl⟩ (.inr rfl)
  · next op v hj =>
    exact moved_settle_poll hj (Option.some.inj h) rfl rfl ⟨rfl, rfl⟩ rfl
      (.inr (by simp [pollsTimeout, hj])) rfl ⟨rfl, rfl⟩ (.inr rfl)
  · next op hj =>
    split_ifs at h with hno <;> cases h
    · rw [Bool.and_eq_true] at hno
      exact .waitSend rfl rfl (trade_like hj (by simp) (.inr rfl)) ⟨rfl, rfl⟩ rfl hno.1
        (free_of_noRoom hno)
    · exact .keep rfl rfl (trade_self _ .gone) ⟨rfl, rfl⟩ rfl
  · cases h

theorem moved_pollSleep {elapsed : Bool} (h : s.pollSleep j elapsed = some (s', es)) :
    Moved L s s' es := by
  unfold Sys.pollSleep at h
  split at h
  · next op v hj =>
    split_ifs at h
    · exact moved_fail hj (Option.some.inj h) rfl rfl ⟨rfl, rfl⟩ rfl (by decide)
    · exact moved_put hj (Option.some.inj h) (by simp) (.inr rfl) ⟨rfl, rfl⟩ rfl
  · next op hj => exact moved_put hj (Option.some.inj h) (by simp) (.inr rfl) ⟨rfl, rfl⟩ rfl
  · cases h

/-! ## Reservations -/

theorem reserveNow_ok {i : Inner T} (h : (reserveNow i n).1 = .ok) :
    i.receiverAlive = true ∧ n ≤ i.free ∧
      (reserveNow i n).2 = { i with reserved := i.reserved + n } := by
  unfold reserveNow at h ⊢
  split_ifs at h ⊢ with h1 h2
  exact ⟨by simpa using h1, by omega, rfl⟩

theorem pollReserve_cases (i : Inner T) (n : ℕ) (cx : Waker) :
    (pollReserve i n cx = (.closed, i)) ∨
    (i.receiverAlive = true ∧ n ≤ i.free ∧
      pollReserve i n cx = (.ok, { i with reserved := i.reserved + n })) ∨
    (i.receiverAlive = true ∧ i.free < n ∧ pollReserve i n cx = (.full, waitSend i cx n)) := by
  unfold pollReserve
  split_ifs with h1 h2
  · exact .inl rfl
  · exact .inr (.inl ⟨by simpa using h1, h2, rfl⟩)
  · exact .inr (.inr ⟨by simpa using h1, by omega, rfl⟩)

theorem moved_reserving (hj : s.objs[j]? = some a)
    (h : s.reserving j n cx o o' = (s', es)) (hns : a ≠ .sender) (ho : o.slots = a.slots + n)
    (hb : o.borrows = none ∨ o.borrows = a.borrows) (hab : a.isSender = o.isSender)
    (hp : a.pending = o.pending) (hab' : Alike a o') (hp' : a.pending = o'.pending)
    (hb' : o'.borrows = none) (hbk : a.isSender = true ∨ a.borrows ≠ none) : Moved L s s' es := by
  unfold Sys.reserving Sys.put at h
  rcases pollReserve_cases s.inner n cx with hr | ⟨hal, hn, hr⟩ | ⟨hal, hn, hr⟩ <;>
    simp only [hr, Prod.mk.injEq] at h <;> obtain ⟨rfl, rfl⟩ := h
  · exact .keep rfl rfl (trade_like hj hns (.inl hb')) hab' hp'
  · exact .reserve rfl rfl (trade_like hj hns hb) hab ho hp hal hn (backed_of_get hj hbk)
  · exact .waitSend rfl rfl (trade_self _ .gone) ⟨rfl, rfl⟩ rfl hal hn

theorem moved_pollReserve (h : s.pollReserve j cx = some (s', es)) :
    Moved L s s' es := by
  unfold Sys.pollReserve at h
  split at h
  · next tx hj =>
    exact moved_reserving hj (Option.some.inj h) (by simp) rfl (.inr rfl) rfl rfl ⟨rfl, rfl⟩ rfl
      rfl (.inr (by simp [Obj.borrows]))
  · next tx n hj =>
    exact moved_reserving hj (Option.some.inj h) (by simp) (Nat.zero_add n).symm (.inr rfl) rfl
      rfl ⟨rfl, rfl⟩ rfl rfl (.inr (by simp [Obj.borrows]))
  · next hj =>
    exact moved_reserving hj (Option.some.inj h) (by simp) rfl (.inl rfl) rfl rfl ⟨rfl, rfl⟩ rfl
      rfl (.inl rfl)
  · cases h

theorem moved_permitSend (h : s.permitSend j v = some (s', es)) :
    Moved L s s' es := by
  have hsent : ∀ (a o : Obj T), s.objs[j]? = some a → a ≠ .sender → o.borrows = none →
      a.isSender = o.isSender → a.slots = o.slots + 1 → a.pending = o.pending →
      ((sendReserved s.inner v).map fun r => (s.put j o).sent v (.accepted, r)) = some (s', es) →
      Moved L s s' es := by
    intro a o hj hns hb hab hsl hp h
    obtain ⟨r, hr, ⟨⟩⟩ := Option.map_eq_some_iff.mp h
    obtain ⟨n, hn, rfl⟩ := Option.map_eq_some_iff.mp hr
    exact .pushReserved (checkedSub_eq_some hn) rfl rfl (trade_like hj hns (.inl hb)) hab hsl hp
  unfold Sys.permitSend at h
  split at h
  · next tx hj => exact hsent _ .gone hj (by simp) rfl rfl rfl rfl h
  · next hj => exact hsent _ .sender hj (by simp) rfl rfl rfl rfl h
  · cases h

theorem moved_release (hj : s.objs[j]? = some a)
    (h : s.release j n o = some (s', es)) (hns : a ≠ .sender) (hb : o.borrows = none)
    (hab : a.isSender = o.isSender) (hsl : a.slots = o.slots + n) (hp : a.pending = o.pending) :
    Moved L s s' es := by
  unfold Sys.release at h
  rcases n with _ | n
  · simp only [releaseReserved, if_true, Option.map_some] at h
    cases h
    exact .keep rfl rfl (trade_like hj hns (.inl hb)) ⟨hab, hsl⟩ hp
  · rw [Option.map_eq_some_iff] at h
    obtain ⟨⟨i, es1⟩, hr, h⟩ := h
    cases h
    exact .release (Nat.succ_pos n) hr rfl (trade_like hj hns (.inl hb)) hab hsl hp

theorem moved_dropSender (hj : s.objs[j]? = some a) (h : s.dropSender j = some (s', es))
    (ha : a.isSender = true) (hsl : a.slots = 0) (hp : a.pending = none)
    (hs : a = .sender → ∀ o ∈ s.objs, o.borrows ≠ some j) : Moved L s s' es := by
  unfold Sys.dropSender at h
  rw [Option.map_eq_some_iff] at h
  obtain ⟨⟨i, es1⟩, hr, h⟩ := h
  cases h
  exact .dropSender hr rfl (trade_set hj (.inl rfl) fun h => .inr (hs h)) ha rfl hsl hp

theorem moved_drop (h : s.drop j = some (s', es)) : Moved L s s' es := by
  unfold Sys.drop at h
  split at h
  · next hj =>
    split_ifs at h with hun
    exact moved_dropSender hj h rfl rfl rfl fun _ => unborrowed_some hun
  iterate 2
    · next hj => exact moved_dropSender hj h rfl rfl rfl (by simp)
  · next tx hj => exact moved_release hj h (by simp) rfl rfl rfl rfl
  · next tx n hj => exact moved_release hj h (by simp) rfl rfl (Nat.zero_add n).symm rfl
  · next hj => exact moved_release hj h (by simp) rfl rfl rfl rfl
  · next tx op v hj => exact moved_fail hj (Option.some.inj h) rfl rfl ⟨rfl, rfl⟩ rfl (by decide)
  · next op v hj => exact moved_fail hj (Option.some.inj h) rfl rfl ⟨rfl, rfl⟩ rfl (by decide)
  iterate 5
    · next hj => exact moved_put hj (Option.some.inj h) (by simp) (.inl rfl) ⟨rfl, rfl⟩ rfl
  · cases h

theorem moved_permitNext (hj : s.objs[j]? = some (.permitIterator tx (n + 1)))
    (h : ((s.put j (.permitIterator tx n)).add (.permit tx), []) = (s', es)) : Moved L s s' es := by
  have hset : Trade s.objs (s.objs.set j (.permitIterator tx n)) (.permitIterator tx (n + 1))
      (.permitIterator tx n) := trade_like hj (by simp) (.inr rfl)
  have hmem : .permitIterator tx n ∈ s.objs.set j (.permitIterator tx n) :=
    List.mem_set (lt_length hj) _
  have hadd := trade_add (b := .permit tx) fun hl tx' htx => hl _ hmem tx' htx
  have hsenders := hset.senders.trans (Nat.add_zero _)
  have hslots := hset.slots
  have hslots' := hadd.slots
  unfold Sys.put Sys.add at h
  cases h
  refine .keep rfl rfl (a := .gone) (b := .gone)
    ⟨?_, ?_, ?_, fun hl => hadd.borrow (hset.borrow hl)⟩ ⟨rfl, rfl⟩ rfl
  · exact hadd.senders.trans hsenders
  · simp only [Obj.slots] at hslots hslots' ⊢
    omega
  · exact hadd.pend.trans hset.pend

/-! ## The receiver -/

theorem take_cases (i : Inner T) {d : Bool} (hd : i.capacity ≠ none → d = true) :
    (∃ v q ws es, i.queue = v :: q ∧ (i.capacity ≠ none → ws = []) ∧ (∀ x ∈ es, ∃ w, x = .woke w) ∧
      take i d = .value v { i with queue := q, sendWakers := ws } (es ++ [.broadcast])) ∨
    (i.queue = [] ∧ i.finished = true ∧ take i d = .ended) ∨ (Waits i ∧ take i d = .empty) := by
  unfold take
  rcases hq : i.queue with _ | ⟨v, q⟩
  · by_cases hf : i.finished = true
    · exact .inr (.inl ⟨rfl, hf, by simp [hf]⟩)
    · exact .inr (.inr ⟨⟨hq, by simpa using hf⟩, by simp [hf]⟩)
  · rcases d with _ | _
    · exact .inl ⟨v, q, i.sendWakers, [], rfl, fun h => absurd (hd h) (by simp), by simp, rfl⟩
    · exact .inl ⟨v, q, [], wakeSend i, rfl, fun _ => rfl, by simp [wakeSend], rfl⟩

theorem moved_taken {d : Bool} {got : Rx} {wait : Sys T × List (Ev T)}
    (h : s.taken (take s.inner d) got wait = (s', es)) (hd : s.inner.capacity ≠ none → d = true)
    (hwait : Waits s.inner → Moved L s wait.1 wait.2) : Moved L s s' es := by
  unfold Sys.taken at h
  rcases take_cases s.inner hd with ⟨v, q, ws, es₁, hq, hws, hes, ht⟩ | ⟨hq, hf, ht⟩ | ⟨hw, ht⟩ <;>
    rw [ht] at h
  · cases h
    exact .pop [v] hq (by simp) rfl hws hes rfl rfl
  · cases h
    exact .ended rfl rfl rfl hq hf
  · have := hwait hw
    rwa [show wait = (s', es) from h] at this

theorem isSome_of_ne {c : Option ℕ} (h : c ≠ none) : c.isSome = true :=
  Option.isSome_iff_ne_none.mpr h

theorem moved_blockingRound {limit : Option ℕ} (h : s.blockingRound limit = (s', es)) :
    Moved L s s' es :=
  moved_taken h isSome_of_ne fun hw => .parkRecv rfl rfl rfl hw

theorem popUpTo_append (n : ℕ) (q : List T) : (popUpTo n q).1 ++ (popUpTo n q).2 = q := by
  induction n generalizing q with
  | zero => rfl
  | succ n ih =>
    rcases q with _ | ⟨v, q⟩
    · rfl
    · exact congrArg (v :: ·) (ih q)

theorem popUpTo_eq_nil {q : List T} (hn : n ≠ 0) (h : (popUpTo n q).1 = []) : q = [] := by
  rcases n with _ | n
  · exact absurd rfl hn
  · rcases q with _ | ⟨v, q⟩
    · rfl
    · cases h

theorem moved_pollRecvMany (hn : n ≠ 0) (h : s.pollRecvMany cx n = (s', es)) : Moved L s s' es := by
  unfold Sys.pollRecvMany at h
  have happ := popUpTo_append n s.inner.queue
  by_cases hvs : (popUpTo n s.inner.queue).1 = []
  · have hq := popUpTo_eq_nil hn hvs
    simp only [hvs, ne_eq, not_true_eq_false, if_false] at h
    split_ifs at h with hf
    · cases h
      exact .ended rfl rfl rfl hq hf
    · unfold Sys.waitRecv at h
      cases h
      exact .waitRecv rfl rfl rfl ⟨hq, by simpa using hf⟩
  · simp only [ne_eq, hvs, not_false_eq_true, if_true] at h
    cases h
    exact .pop _ happ.symm hvs rfl (fun _ => rfl) (by simp [wakeSend]) rfl rfl

theorem moved_rx {rx : Rx} (h : ({ s with rx := rx }, []) = (s', es)) : Moved L s s' es := by
  cases h
  exact .keep rfl rfl (trade_self _ .gone) ⟨rfl, rfl⟩ rfl

theorem moved_pollRx (h : s.pollRx cx = some (s', es)) : Moved L s s' es := by
  unfold Sys.pollRx at h
  split at h
  · exact moved_taken (Option.some.inj h) (fun _ => rfl) fun hw => .waitRecv rfl rfl rfl hw
  · exact moved_rx (Option.some.inj h)
  · exact moved_taken (Option.some.inj h) (fun _ => rfl) fun hw => .waitRecv rfl rfl rfl hw
  · exact moved_taken (Option.some.inj h) isSome_of_ne fun hw => .waitRecv rfl rfl rfl hw
  · cases h

theorem moved_drain (h : s.drain = some (s', es)) : Moved L s s' es := by
  unfold Sys.drain at h
  split at h
  · split_ifs at h
    · unfold tryRecv at h
      rcases take_cases s.inner isSome_of_ne with
        ⟨v, q, ws, es₁, hq, hws, hes, ht⟩ | ⟨-, -, ht⟩ | ⟨-, ht⟩ <;> rw [ht] at h
      · cases h
        exact .pop [v] hq (by simp) rfl hws hes rfl rfl
      · exact moved_rx (Option.some.inj h)
      · exact moved_rx (Option.some.inj h)
    · exact moved_rx (Option.some.inj h)
  · cases h

/-! ## The steps -/

theorem moved_begun (h : s.begun v b es' = (s', es))
    (hb : ∀ tx, b.borrows = some tx → s.objs[tx]? = some .sender) (hal : Alike .gone b)
    (hp : b.pending = some (s.sends, v))
    (hes : es' = [] ∨ ∃ j, es' = [.parked (.sender j)] ∧ NoRoom s.inner) : Moved L s s' es := by
  unfold Sys.begun at h
  cases h
  exact .begin rfl rfl (trade_add fun _ => hb) hal hp hes

theorem moved_add (h : (s.add b, []) = (s', es))
    (hb : ∀ tx, b.borrows = some tx → s.objs[tx]? = some .sender) (hal : Alike .gone b)
    (hp : b.pending = none) : Moved L s s' es := by
  unfold Sys.add at h
  cases h
  exact .keep rfl rfl (trade_add fun _ => hb) hal hp.symm

theorem borrows_one (hj : s.objs[tx]? = some .sender) (hb : b.borrows = some tx) :
    ∀ tx', b.borrows = some tx' → s.objs[tx']? = some .sender := by
  intro tx' h
  rw [hb, Option.some.injEq] at h
  exact h ▸ hj

theorem moved_blockingSend (hj : s.objs[tx]? = some .sender)
    (h : (if (blockingSend s.inner v).1 = .full then
        s.begun v (.blockingSend tx s.sends v) [.parked (.sender s.objs.length)]
      else s.sent v (blockingSend s.inner v)) = (s', es)) : Moved L s s' es := by
  split_ifs at h with hf
  · have hno : NoRoom s.inner := by
      unfold blockingSend at hf
      rcases offer_cases s.inner v with ho | ⟨hno, -⟩ | ⟨-, ho⟩
      · rw [ho] at hf
        cases hf
      · exact hno
      · rw [ho] at hf
        cases hf
    exact moved_begun h (borrows_one hj rfl) ⟨rfl, rfl⟩ rfl (.inr ⟨_, rfl, hno⟩)
  · exact moved_sent rfl (backed_of_get hj (.inl rfl)) h

theorem moved_resumeSend (hj : s.objs[j]? = some (.blockingSend tx op v))
    (h : s.settle j op v (blockingSend s.inner v) .gone (.blockingSend tx op v)
      [.parked (.sender j)] = (s', es)) : Moved L s s' es := by
  have hnone : (offer s.inner v).2.1 = s.inner ∨ Room s.inner := by
    rcases offer_cases s.inner v with ho | ⟨-, ho⟩ | ⟨hr, -⟩
    · exact .inl (by rw [ho])
    · exact .inl (by rw [ho])
    · exact .inr hr
  refine moved_settle hj h rfl rfl ⟨rfl, rfl⟩ rfl (.inl (by simp [Obj.borrows])) ?_ fun hno => ?_
  · unfold blockingSend
    rcases offer_cases s.inner v with ho | ⟨hno, ho⟩ | ⟨hroom, ho⟩ <;> rw [ho]
    · exact .inl rfl
    · exact .inr (.inl ⟨hno, rfl⟩)
    · exact .inr (.inr ⟨hroom, rfl⟩)
  · refine .parkSend ?_ rfl (trade_like hj (by simp) (.inr rfl)) hno
    rcases hnone with h | h
    · exact h
    · rw [NoRoom, h.2] at hno
      cases hno.2

theorem moved_reserveNow {s₁ : Sys T} (hbk : Backed s.objs)
    (h : (if (reserveNow s.inner n).1 = .ok then (s₁, []) else (s, [])) = (s', es))
    (hi : s₁.inner = (reserveNow s.inner n).2) (hs : s₁.sends = s.sends)
    (ht : Trade s.objs s₁.objs a b) (hab : a.isSender = b.isSender) (hsl : b.slots = a.slots + n)
    (hp : a.pending = b.pending) : Moved L s s' es := by
  split_ifs at h with hok <;> rw [Prod.mk.injEq] at h <;> obtain ⟨rfl, rfl⟩ := h
  · obtain ⟨hal, hn, hr⟩ := reserveNow_ok hok
    exact .reserve (hi.trans hr) hs ht hab hsl hp hal hn hbk
  · exact .keep rfl rfl (trade_self _ .gone) ⟨rfl, rfl⟩ rfl

theorem trade_moved (hj : s.objs[tx]? = some .sender) (hun : s.unborrowed tx = true)
    (hb : b.borrows = none) : Trade s.objs (s.objs.set tx b) .sender b :=
  trade_set hj (.inl hb) fun _ => .inr (unborrowed_some hun)

theorem moved_same (h : (s, []) = (s', es)) : Moved L s s' es := by
  cases h
  exact .keep rfl rfl (trade_self _ .gone) ⟨rfl, rfl⟩ rfl

theorem step_moved {op : Op T} (h : step s op = some (s', es)) :
    Moved (pollsTimeout s op = true) s s' es := by
  -- an object without a borrow borrows senders only
  have hfree : ∀ {tx : ℕ} {o : Obj T}, (none : Option ℕ) = some tx → s.objs[tx]? = some o :=
    nofun
  cases op with
  | trySend =>
    obtain ⟨hb, h⟩ := guarded_some h
    exact moved_sent rfl (backed_of_get (isBounded_some hb).2 (.inl rfl)) h
  | blockingSend =>
    obtain ⟨hb, h⟩ := guarded_some h
    exact moved_blockingSend (isBounded_some hb).2 h
  | resumeSend =>
    simp only [step] at h
    split at h
    · next hj => exact moved_resumeSend hj (Option.some.inj h)
    · cases h
  | send =>
    obtain ⟨hb, h⟩ := guarded_some h
    exact moved_begun h (borrows_one (isBounded_some hb).2 rfl) ⟨rfl, rfl⟩ rfl (.inl rfl)
  | sendTimeout =>
    obtain ⟨-, h⟩ := guarded_some h
    exact moved_begun h (fun _ h => hfree h) ⟨rfl, rfl⟩ rfl (.inl rfl)
  | pollSend => exact moved_pollSend h
  | pollSleep => exact moved_pollSleep h
  | unboundedSend tx v =>
    obtain ⟨hb, h⟩ := guarded_some h
    rw [Bool.and_eq_true] at hb
    -- without a capacity the channel is never full
    have hr : unboundedSend s.inner v = offer s.inner v := by
      have hc : s.inner.capacity = none := by simpa using hb.1
      simp [unboundedSend, offer, Inner.full, hc]
    exact moved_sent hr (backed_of_get (isSender_some hb.2) (.inl rfl)) h
  | tryReserve =>
    obtain ⟨hb, h⟩ := guarded_some h
    have hj := (isBounded_some hb).2
    exact moved_reserveNow (backed_of_get hj (.inl rfl)) h rfl rfl
      (trade_add fun _ => borrows_one hj rfl) rfl rfl rfl
  | tryReserveMany tx n =>
    obtain ⟨hb, h⟩ := guarded_some h
    have hj := (isBounded_some hb).2
    exact moved_reserveNow (backed_of_get hj (.inl rfl)) h rfl rfl
      (trade_add fun _ => borrows_one hj rfl) rfl (Nat.zero_add n).symm rfl
  | tryReserveOwned =>
    obtain ⟨hb, h⟩ := guarded_some h
    rw [Bool.and_eq_true] at hb
    have hj := (isBounded_some hb.1).2
    exact moved_reserveNow (backed_of_get hj (.inl rfl)) h rfl rfl (trade_moved hj hb.2 rfl) rfl
      rfl rfl
  | reserve tx | reserveMany tx n =>
    obtain ⟨hb, h⟩ := guarded_some h
    exact moved_add h (borrows_one (isBounded_some hb).2 rfl) ⟨rfl, rfl⟩ rfl
  | reserveOwned =>
    obtain ⟨hb, h⟩ := guarded_some h
    rw [Bool.and_eq_true] at hb
    cases h
    exact .keep rfl rfl (trade_moved (isBounded_some hb.1).2 hb.2 rfl) ⟨rfl, rfl⟩ rfl
  | pollReserve => exact moved_pollReserve h
  | permitSend => exact moved_permitSend h
  | permitNext =>
    simp only [step] at h
    split at h
    · next hj => exact moved_permitNext hj (Option.some.inj h)
    · exact moved_same (Option.some.inj h)
    · cases h
  | permitRelease =>
    simp only [step] at h
    split at h
    · next hj => exact moved_release hj h (by simp) rfl rfl rfl rfl
    · cases h
  | clone =>
    obtain ⟨hb, h⟩ := guarded_some h
    cases h
    exact .addSender rfl rfl (trade_add fun _ _ h => hfree h)
      (.inr (List.mem_of_getElem? (isSender_some hb)))
  | downgrade tx | closed tx =>
    obtain ⟨-, h⟩ := guarded_some h
    exact moved_add h (fun _ h => hfree h) ⟨rfl, rfl⟩ rfl
  | cloneWeak =>
    simp only [step] at h
    split at h
    · exact moved_add (Option.some.inj h) (fun _ h => hfree h) ⟨rfl, rfl⟩ rfl
    · cases h
  | upgrade =>
    simp only [step, upgrade] at h
    split at h
    · by_cases hc : s.inner.senderCount = 0
      · simp only [hc, if_true] at h
        exact moved_same (Option.some.inj h)
      · simp only [hc, if_false, Sys.add] at h
        cases h
        exact .addSender rfl rfl (trade_add fun _ _ h => hfree h) (.inl hc)
    · cases h
  | pollClosed =>
    simp only [step] at h
    split at h
    · split at h
      · next i hi =>
        unfold pollClosed at hi
        split_ifs at hi with hal
        rw [Option.some.injEq] at hi
        cases h
        exact .waitClose hi.symm rfl rfl (by simpa using hal)
      · exact moved_same (Option.some.inj h)
    · cases h
  | drop => exact moved_drop h
  | tryRecv =>
    obtain ⟨-, h⟩ := guarded_some h
    exact moved_taken h isSome_of_ne fun _ => moved_same rfl
  | pollRecv =>
    obtain ⟨-, h⟩ := guarded_some h
    exact moved_taken h (fun _ => rfl) fun hw => .waitRecv rfl rfl rfl hw
  | pollRecvMany =>
    obtain ⟨-, h⟩ := guarded_some h
    split_ifs at h with hn
    · exact moved_same h
    · exact moved_pollRecvMany hn h
  | recv | recvMany n | recvTimeout | sleepRx elapsed =>
    obtain ⟨-, h⟩ := guarded_some h
    exact moved_rx h
  | pollRx => exact moved_pollRx h
  | drain => exact moved_drain h
  | dropRx =>
    simp only [step] at h
    split at h
    iterate 3
      · exact moved_rx (Option.some.inj h)
    · cases h
  | blockingRecv =>
    obtain ⟨-, h⟩ := guarded_some h
    exact moved_blockingRound h
  | blockingRecvMany =>
    obtain ⟨-, h⟩ := guarded_some h
    split_ifs at h with hn
    · exact moved_same h
    · exact moved_blockingRound h
  | resumeRecv =>
    simp only [step] at h
    split at h
    · exact moved_blockingRound (Option.some.inj h)
    · cases h
  | close =>
    obtain ⟨-, h⟩ := guarded_some h
    cases h
    exact .shut (.inl rfl) rfl rfl rfl
  | dropReceiver =>
    obtain ⟨-, h⟩ := guarded_some h
    cases h
    exact .shut (.inr rfl) rfl rfl rfl

end OhosFfrt.Mpsc.Steps
