import OhosFfrt.Mpsc.System

/-!
# `signal::mpsc`: what a step can do

A step changes the shared state in one of a few ways, which `Moved` lists, and exchanges what the
senders hold.  `Trade` says what such an exchange does to the counts of senders and slots, to the
pending sends and to the borrows.
-/

namespace OhosFfrt.Mpsc.Moves

open Basic Lib.Arena Mpsc.Shared Mpsc.System List Option

variable {T : Type*}

/-! ## Exchanges -/

/-- The sends that the objects are in the middle of. -/
def pendings (l : List (Obj T)) : List (ℕ × T) := l.filterMap Obj.pending

/-- What is borrowed is a sender. -/
def Borrowed (l : List (Obj T)) : Prop :=
  ∀ o ∈ l, ∀ tx, o.borrows = some tx → l[tx]? = some .sender

/-- **An exchange**: `l'` has what `l` has, with `b` in place of `a`. -/
structure Trade (l l' : List (Obj T)) (a b : Obj T) : Prop where
  senders : l'.countP Obj.isSender + a.isSender.toNat = l.countP Obj.isSender + b.isSender.toNat
  slots : total Obj.slots l' + a.slots = total Obj.slots l + b.slots
  pend : (pendings l' ++ a.pending.toList).Perm (pendings l ++ b.pending.toList)
  borrow : Borrowed l → Borrowed l'

variable {l : List (Obj T)} {a b : Obj T} {i : ℕ} {es : List (Ev T)} {p : Ev T → Bool}

theorem trade_self (l : List (Obj T)) (a : Obj T) : Trade l l a a := ⟨rfl, rfl, .refl _, id⟩

theorem trade_set (h : l[i]? = some a) (hb : b.borrows = none ∨ b.borrows = a.borrows)
    (hs : a = .sender → b = .sender ∨ ∀ o ∈ l, o.borrows ≠ some i) : Trade l (l.set i b) a b := by
  refine ⟨countP_set h, total_set h, perm_set h, fun hl o ho tx htx => ?_⟩
  have hmem : a ∈ l := mem_of_getElem? h
  have hlt : i < l.length := lt_length h
  -- the borrower is there already, or it is `b`, which borrows what `a` borrowed
  have hold : ∃ o' ∈ l, o'.borrows = some tx := by
    rcases mem_or_eq_of_mem_set ho with ho | rfl
    · exact ⟨o, ho, htx⟩
    · rcases hb with hb | hb
      · rw [hb] at htx
        cases htx
      · exact ⟨a, hmem, hb ▸ htx⟩
  obtain ⟨o', ho', htx'⟩ := hold
  have hsend := hl o' ho' tx htx'
  by_cases hti : tx = i
  · subst hti
    rw [h, some.injEq] at hsend
    rcases hs hsend with rfl | hun
    · exact getElem?_set_self hlt
    · exact absurd htx' (hun o' ho')
  · rw [getElem?_set_ne (Ne.symm hti)]
    exact hsend

theorem trade_add (hb : Borrowed l → ∀ tx, b.borrows = some tx → l[tx]? = some .sender) :
    Trade l (l ++ [b]) .gone b := by
  refine ⟨?_, ?_, ?_, fun hl o ho tx htx => ?_⟩
  · rw [countP_append, countP_singleton]
    cases b.isSender <;> rfl
  · simp [Obj.slots]
  · have : pendings (l ++ [b]) = pendings l ++ b.pending.toList := by
      unfold pendings
      rw [filterMap_append]
      rcases hb : b.pending with _ | x <;> simp [hb]
    rw [this]
    simp [Obj.pending]
  · have hsend : l[tx]? = some .sender := by
      rcases mem_append.mp ho with ho | ho
      · exact hl o ho tx htx
      · rw [mem_singleton] at ho
        subst ho
        exact hb hl tx htx
    exact get_append hsend _

/-! ## Moves -/

/-- The objects count for the same number of senders and slots. -/
def Alike (a b : Obj T) : Prop := a.isSender = b.isSender ∧ a.slots = b.slots

/-- A send would succeed. -/
def Room (i : Inner T) : Prop := i.receiverAlive = true ∧ i.full = false

/-- A send would have to wait. -/
def NoRoom (i : Inner T) : Prop := i.receiverAlive = true ∧ i.full = true

/-- A receive would have to wait. -/
def Waits (i : Inner T) : Prop := i.queue = [] ∧ i.finished = false

/-- Some object is, has or borrows a sender. -/
def Backed (l : List (Obj T)) : Prop := ∃ o ∈ l, o.isSender = true ∨ o.borrows ≠ none

/-- A `send_timeout` future that still has its value is polled. -/
def pollsTimeout (s : Sys T) : Op T → Bool
  | .pollSend j _ =>
    match s.objs[j]? with
    | some (.sendTimeout _ (some _) false) => true
    | _ => false
  | _ => false

/-- **What a step can do.**  `L` says that it polls a `send_timeout` future with its value, which is
the one way to send without a sender. -/
inductive Moved (L : Prop) (s s' : Sys T) : List (Ev T) → Prop
  | keep {a b : Obj T} (hi : s'.inner = s.inner) (hs : s'.sends = s.sends)
      (ht : Trade s.objs s'.objs a b) (hab : Alike a b) (hp : a.pending = b.pending) :
      Moved L s s' []
  | refuse {v : T} {f : Fate} (hi : s'.inner = s.inner) (hs : s'.sends = s.sends + 1)
      (ho : s'.objs = s.objs) (hf : f ≠ .accepted) :
      Moved L s s' [.started s.sends v, .settled s.sends v f]
  | begin {v : T} {b : Obj T} {es : List (Ev T)} (hi : s'.inner = s.inner)
      (hs : s'.sends = s.sends + 1) (ht : Trade s.objs s'.objs .gone b) (hb : Alike .gone b)
      (hp : b.pending = some (s.sends, v))
      (hes : es = [] ∨ ∃ j, es = [.parked (.sender j)] ∧ NoRoom s.inner) :
      Moved L s s' (.started s.sends v :: es)
  | settle {op : ℕ} {v : T} {f : Fate} {a b : Obj T} (hi : s'.inner = s.inner)
      (hs : s'.sends = s.sends) (ht : Trade s.objs s'.objs a b) (hab : Alike a b)
      (ha : a.pending = some (op, v)) (hb : b.pending = none) (hf : f ≠ .accepted) :
      Moved L s s' [.settled op v f]
  | pushNew {v : T} (hi : s'.inner = (push s.inner v).1) (hs : s'.sends = s.sends + 1)
      (ho : s'.objs = s.objs) (hr : Room s.inner) (hbk : Backed s.objs) :
      Moved L s s' (.started s.sends v :: .settled s.sends v .accepted :: (push s.inner v).2)
  | pushPending {op : ℕ} {v : T} {a b : Obj T} (hi : s'.inner = (push s.inner v).1)
      (hs : s'.sends = s.sends) (ht : Trade s.objs s'.objs a b) (hab : Alike a b)
      (ha : a.pending = some (op, v)) (hb : b.pending = none) (hr : Room s.inner)
      (hbk : Backed s.objs ∨ L) :
      Moved L s s' (.settled op v .accepted :: (push s.inner v).2)
  | pushReserved {v : T} {r : ℕ} {a b : Obj T} (hres : s.inner.reserved = r + 1)
      (hi : s'.inner = (push { s.inner with reserved := r } v).1) (hs : s'.sends = s.sends + 1)
      (ht : Trade s.objs s'.objs a b) (hab : a.isSender = b.isSender) (hsl : a.slots = b.slots + 1)
      (hp : a.pending = b.pending) :
      Moved L s s' (.started s.sends v :: .settled s.sends v .accepted :: (push s.inner v).2)
  | waitSend {cx : Waker} {n : ℕ} {a b : Obj T} (hi : s'.inner = waitSend s.inner cx n)
      (hs : s'.sends = s.sends) (ht : Trade s.objs s'.objs a b) (hab : Alike a b)
      (hp : a.pending = b.pending) (hal : s.inner.receiverAlive = true) (hn : s.inner.free < n) :
      Moved L s s' []
  | parkSend {j : ℕ} (hi : s'.inner = s.inner) (hs : s'.sends = s.sends)
      {a : Obj T} (ht : Trade s.objs s'.objs a a) (hr : NoRoom s.inner) :
      Moved L s s' [.parked (.sender j)]
  | reserve {n : ℕ} {a b : Obj T}
      (hi : s'.inner = { s.inner with reserved := s.inner.reserved + n })
      (hs : s'.sends = s.sends) (ht : Trade s.objs s'.objs a b) (hab : a.isSender = b.isSender)
      (hsl : b.slots = a.slots + n) (hp : a.pending = b.pending)
      (hal : s.inner.receiverAlive = true) (hn : n ≤ s.inner.free) (hbk : Backed s.objs) :
      Moved L s s' []
  | release {n : ℕ} {a b : Obj T} {es : List (Ev T)} (hn : 0 < n)
      (hi : releaseReserved s.inner n = some (s'.inner, es)) (hs : s'.sends = s.sends)
      (ht : Trade s.objs s'.objs a b) (hab : a.isSender = b.isSender)
      (hsl : a.slots = b.slots + n) (hp : a.pending = b.pending) : Moved L s s' es
  | addSender (hi : s'.inner = addSender s.inner) (hs : s'.sends = s.sends)
      (ht : Trade s.objs s'.objs .gone .sender)
      (hc : s.inner.senderCount ≠ 0 ∨ .sender ∈ s.objs) : Moved L s s' []
  | dropSender {a b : Obj T} {es : List (Ev T)}
      (hi : Shared.dropSender s.inner = some (s'.inner, es)) (hs : s'.sends = s.sends)
      (ht : Trade s.objs s'.objs a b) (ha : a.isSender = true) (hb : b.isSender = false)
      (hsl : a.slots = b.slots) (hp : a.pending = b.pending) : Moved L s s' es
  | waitClose {cx : Waker}
      (hi : s'.inner = { s.inner with closeWaiters := s.inner.closeWaiters ++ [cx] })
      (hs : s'.sends = s.sends) (ho : s'.objs = s.objs) (hal : s.inner.receiverAlive = true) :
      Moved L s s' []
  | pop (vs : List T) {q : List T} {ws : List SendWaker} {es : List (Ev T)}
      (hq : s.inner.queue = vs ++ q) (hvs : vs ≠ [])
      (hi : s'.inner = { s.inner with queue := q, sendWakers := ws })
      (hws : s.inner.capacity ≠ none → ws = []) (hes : ∀ x ∈ es, ∃ w, x = .woke w)
      (hs : s'.sends = s.sends) (ho : s'.objs = s.objs) :
      Moved L s s' (vs.map .received ++ es ++ [.broadcast])
  | ended (hi : s'.inner = s.inner) (hs : s'.sends = s.sends) (ho : s'.objs = s.objs)
      (hq : s.inner.queue = []) (hf : s.inner.finished = true) : Moved L s s' [.ended]
  | waitRecv {cx : Waker} (hi : s'.inner = waitRecv s.inner cx) (hs : s'.sends = s.sends)
      (ho : s'.objs = s.objs) (hw : Waits s.inner) : Moved L s s' [.recvRegistered]
  | parkRecv (hi : s'.inner = s.inner) (hs : s'.sends = s.sends) (ho : s'.objs = s.objs)
      (hw : Waits s.inner) : Moved L s s' [.parked .receiver]
  | shut {x : Ev T} (hx : x = .closeCalled ∨ x = .receiverDropped)
      (hi : s'.inner = (shut s.inner).1) (hs : s'.sends = s.sends) (ho : s'.objs = s.objs) :
      Moved L s s' (x :: (shut s.inner).2)

/-! ## What sections return -/

/-- Only wake-ups. -/
def Wakes (es : List (Ev T)) : Prop := ∀ x ∈ es, x = .broadcast ∨ ∃ w, x = .woke w

theorem wakes_wakeRecv (i : Inner T) : Wakes (wakeRecv i) := by
  intro x hx
  obtain ⟨w, -, rfl⟩ := mem_map.mp hx
  exact .inr ⟨w, rfl⟩

theorem wakes_wakeSend (i : Inner T) : Wakes (wakeSend i) := by
  intro x hx
  obtain ⟨w, -, rfl⟩ := mem_map.mp hx
  exact .inr ⟨w.waker, rfl⟩

theorem Wakes.append {es' : List (Ev T)} (h : Wakes es) (h' : Wakes es') :
    Wakes (es ++ es') := by
  intro x hx
  rcases mem_append.mp hx with hx | hx
  · exact h x hx
  · exact h' x hx

theorem wakes_broadcast : Wakes [(.broadcast : Ev T)] :=
  fun _ hx => .inl (mem_singleton.mp hx)

theorem wakes_push (i : Inner T) (v : T) : Wakes (push i v).2 :=
  (wakes_wakeRecv i).append wakes_broadcast

theorem broadcast_push (i : Inner T) (v : T) : .broadcast ∈ (push i v).2 :=
  mem_append_right _ (mem_singleton_self _)

/-- No event is a `p`. -/
def Free (p : Ev T → Bool) (es : List (Ev T)) : Prop := ∀ x ∈ es, p x = false

theorem free_nil : Free p [] := nofun

theorem free_cons {x : Ev T} (hx : p x = false) (h : Free p es) : Free p (x :: es) :=
  forall_mem_cons.mpr ⟨hx, h⟩

theorem Wakes.free (h : Wakes es) (hb : p .broadcast = false)
    (hw : ∀ w, p (.woke w) = false) : Free p es := by
  intro x hx
  rcases h x hx with rfl | ⟨w, rfl⟩
  · exact hb
  · exact hw w

theorem finished_iff {i : Inner T} : i.finished = true ↔
    i.senderCount = 0 ∨ (i.receiverAlive = false ∧ i.reserved = 0) := by
  unfold Inner.finished
  rw [Bool.or_eq_true, decide_eq_true_eq, Bool.and_eq_true, decide_eq_true_eq, Bool.not_eq_true']

theorem finished_eq_false {i : Inner T} : i.finished = false ↔
    i.senderCount ≠ 0 ∧ (i.receiverAlive = true ∨ i.reserved ≠ 0) := by
  rw [← Bool.not_eq_true, finished_iff, not_or, not_and_or, Bool.not_eq_false]

theorem releaseReserved_some {i i' : Inner T} {n : ℕ} (hn : 0 < n)
    (h : releaseReserved i n = some (i', es)) : ∃ r w, i.reserved = r + n ∧
      i' = { i with reserved := r, recvWaker := w, sendWakers := [] } ∧
      (w = none ∨ (w = i.recvWaker ∧ (i.receiverAlive = true ∨ r ≠ 0))) ∧
      Wakes es ∧ .broadcast ∈ es := by
  rw [releaseReserved, if_neg (by omega)] at h
  obtain ⟨r, hr, h⟩ := map_eq_some_iff.mp h
  replace hr := checkedSub_eq_some hr
  split_ifs at h with hend <;> cases h
  · exact ⟨r, none, hr, rfl, .inl rfl,
      ((wakes_wakeRecv i).append (wakes_wakeSend i)).append wakes_broadcast, by simp⟩
  · refine ⟨r, i.recvWaker, hr, rfl, .inr ⟨rfl, ?_⟩,
      (wakes_wakeSend i).append wakes_broadcast, by simp⟩
    by_cases hal : i.receiverAlive = true
    · exact .inl hal
    · exact .inr (by simpa [hal] using hend)

theorem dropSender_some {i i' : Inner T} (h : dropSender i = some (i', es)) :
    ∃ n w, i.senderCount = n + 1 ∧ i' = { i with senderCount := n, recvWaker := w } ∧
      ((w = none ∧ .broadcast ∈ es) ∨ (w = i.recvWaker ∧ i'.finished = false)) ∧ Wakes es := by
  obtain ⟨n, hn, h⟩ := map_eq_some_iff.mp h
  replace hn := checkedSub_eq_some hn
  dsimp only at h
  split_ifs at h with hend <;> cases h
  · exact ⟨n, none, hn, rfl, .inl ⟨rfl, by simp⟩, (wakes_wakeRecv i).append wakes_broadcast⟩
  · exact ⟨n, i.recvWaker, hn, rfl, .inr ⟨rfl, by simpa using hend⟩, nofun⟩

theorem shut_eq (i : Inner T) : ∃ ws, (shut i).1 =
      { i with receiverAlive := false, closeWaiters := [], sendWakers := ws } ∧
    (i.capacity ≠ none → ws = []) ∧ Wakes (shut i).2 ∧ .broadcast ∈ (shut i).2 := by
  have hclose : Wakes (i.closeWaiters.map .woke : List (Ev T)) := by
    intro x hx
    obtain ⟨w, -, rfl⟩ := mem_map.mp hx
    exact .inr ⟨w, rfl⟩
  unfold shut
  by_cases hc : i.capacity.isSome = true
  · rw [if_pos hc]
    exact ⟨[], rfl, fun _ => rfl, (hclose.append (wakes_wakeSend i)).append wakes_broadcast,
      by simp⟩
  · rw [if_neg hc]
    exact ⟨i.sendWakers, rfl, fun h => absurd (isSome_iff_ne_none.mpr h) hc,
      hclose.append wakes_broadcast, by simp⟩

end OhosFfrt.Mpsc.Moves
