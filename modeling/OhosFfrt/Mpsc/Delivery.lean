import OhosFfrt.Mpsc.Steps

/-!
# `signal::mpsc`: delivery

What the receiver has obtained, with the queue behind it, is what has been accepted, in that order
(`Delivers`).  Sends are numbered when they begin; each of them is pending or settled, once and with
the value it began with (`Settles`).  Together: `mpsc_delivery`.
-/

namespace OhosFfrt.Mpsc.Delivery

open Lib.Runs List Option
open Mpsc.Shared Mpsc.System Mpsc.Moves Mpsc.Steps

variable {T : Type*} {s s₀ s' : Sys T} {op : Op T} {es tr : List (Ev T)} {v : T} {k : ℕ} {f : Fate}
  {b : Obj T}

/-- The values received. -/
def obtained (tr : List (Ev T)) : List T :=
  tr.filterMap fun
    | .received v => some v
    | _ => none

/-- The sends begun. -/
def started (tr : List (Ev T)) : List (ℕ × T) :=
  tr.filterMap fun
    | .started op v => some (op, v)
    | _ => none

/-- The sends settled. -/
def settled (tr : List (Ev T)) : List (ℕ × T) :=
  tr.filterMap fun
    | .settled op v _ => some (op, v)
    | _ => none

/-- The sends that have been accepted, in that order, with their values. -/
def accepted (tr : List (Ev T)) : List (ℕ × T) :=
  tr.filterMap fun
    | .settled op v .accepted => some (op, v)
    | _ => none

section Logs

variable (tr es)

@[simp] theorem obtained_append : obtained (tr ++ es) = obtained tr ++ obtained es :=
  filterMap_append

@[simp] theorem started_append : started (tr ++ es) = started tr ++ started es :=
  filterMap_append

@[simp] theorem settled_append : settled (tr ++ es) = settled tr ++ settled es :=
  filterMap_append

@[simp] theorem accepted_append : accepted (tr ++ es) = accepted tr ++ accepted es :=
  filterMap_append

end Logs

/-- Sends and receives do not occur in the events. -/
structure Silent (es : List (Ev T)) : Prop where
  obtained : obtained es = []
  started : started es = []
  settled : settled es = []
  accepted : accepted es = []

/-- The event is of a send or a receive. -/
def logged : Ev T → Bool
  | .started _ _ | .settled _ _ _ | .received _ => true
  | _ => false

theorem silent_nil : Silent ([] : List (Ev T)) := ⟨rfl, rfl, rfl, rfl⟩

theorem Silent.cons {x : Ev T} (hx : logged x = false) (h : Silent es) : Silent (x :: es) := by
  have hone : Silent [x] := by
    cases x with
    | started | settled | received => cases hx
    | _ => exact ⟨rfl, rfl, rfl, rfl⟩
  rw [← singleton_append]
  refine ⟨?_, ?_, ?_, ?_⟩
  · rw [obtained_append, hone.obtained, h.obtained, nil_append]
  · rw [started_append, hone.started, h.started, nil_append]
  · rw [settled_append, hone.settled, h.settled, nil_append]
  · rw [accepted_append, hone.accepted, h.accepted, nil_append]

theorem silent_of_free (h : Free logged es) : Silent es := by
  induction es with
  | nil => exact silent_nil
  | cons x es ih =>
    obtain ⟨hx, hes⟩ := forall_mem_cons.mp h
    exact (ih hes).cons hx

theorem silent_of_wakes (h : Wakes es) : Silent es := silent_of_free (h.free rfl fun _ => rfl)

/-! ## One step -/

/-- **The queue through a step**: values leave it at the front and join it at the back. -/
def Delivers (s s' : Sys T) (es : List (Ev T)) : Prop :=
  obtained es ++ s'.inner.queue = s.inner.queue ++ (accepted es).map Prod.snd

/-- **The sends through a step**: a send that is settled was pending or has just begun. -/
def Settles (s s' : Sys T) (es : List (Ev T)) : Prop :=
  (settled es ++ pendings s'.objs).Perm (pendings s.objs ++ started es) ∧
  (((started es).map Prod.fst = [] ∧ s'.sends = s.sends) ∨
    ((started es).map Prod.fst = [s.sends] ∧ s'.sends = s.sends + 1))

theorem delivers_same (ho : obtained es = []) (ha : accepted es = [])
    (hq : s'.inner.queue = s.inner.queue) : Delivers s s' es := by
  unfold Delivers
  rw [ho, ha, hq, map_nil, append_nil, nil_append]

theorem Silent.delivers (h : Silent es) (hq : s'.inner.queue = s.inner.queue) : Delivers s s' es :=
  delivers_same h.obtained h.accepted hq

theorem accepted_failed (hf : f ≠ .accepted) :
    accepted (.settled k v f :: es) = accepted es := by
  cases f with
  | accepted => exact absurd rfl hf
  | _ => rfl

theorem Silent.settles {a : Obj T} (h : Silent es) (ht : Trade s.objs s'.objs a b)
    (hp : a.pending = b.pending) (hs : s'.sends = s.sends) : Settles s s' es := by
  unfold Settles
  rw [h.settled, h.started, nil_append, append_nil]
  have hpend := ht.pend
  rw [hp] at hpend
  exact ⟨(perm_append_right_iff _).mp hpend, .inl ⟨rfl, hs⟩⟩

theorem settles_at_once {a : Obj T} (h : Silent es)
    (ht : Trade s.objs s'.objs a b) (hp : a.pending = b.pending) (hs : s'.sends = s.sends + 1) :
    Settles s s' (.started s.sends v :: .settled s.sends v f :: es) := by
  have hpend := ht.pend
  rw [hp] at hpend
  have hpend := (perm_append_right_iff _).mp hpend
  have h1 : started (.started s.sends v :: .settled s.sends v f :: es) = [(s.sends, v)] := by
    rw [show started (.started s.sends v :: .settled s.sends v f :: es) = (s.sends, v) :: started es
      from rfl, h.started]
  have h2 : settled (.started s.sends v :: .settled s.sends v f :: es) = [(s.sends, v)] := by
    rw [show settled (.started s.sends v :: .settled s.sends v f :: es) = (s.sends, v) :: settled es
      from rfl, h.settled]
  unfold Settles
  rw [h1, h2]
  exact ⟨(hpend.cons _).trans (perm_append_singleton _ _).symm, .inr ⟨rfl, hs⟩⟩

theorem settles_pending {a : Obj T} {op : ℕ} (h : Silent es)
    (ht : Trade s.objs s'.objs a b) (ha : a.pending = some (op, v)) (hb : b.pending = none)
    (hs : s'.sends = s.sends) : Settles s s' (.settled op v f :: es) := by
  have hpend := ht.pend
  rw [ha, hb, toList_some, toList_none, append_nil] at hpend
  have h1 : started (.settled op v f :: es) = [] := h.started
  have h2 : settled (.settled op v f :: es) = [(op, v)] := by
    rw [show settled (.settled op v f :: es) = (op, v) :: settled es from rfl, h.settled]
  unfold Settles
  rw [h1, h2, append_nil]
  exact ⟨(perm_append_singleton _ _).symm.trans hpend, .inl ⟨rfl, hs⟩⟩

theorem delivers_push (hq : s'.inner.queue = s.inner.queue ++ [v])
    (ho : obtained es = []) (ha : (accepted es).map Prod.snd = [v]) : Delivers s s' es := by
  unfold Delivers
  rw [ho, ha, hq, nil_append]

theorem accepted_push (i : Inner T) :
    (accepted (.settled k v .accepted :: (push i v).2)).map Prod.snd = [v] := by
  have h := (silent_of_wakes (wakes_push i v)).accepted
  rw [show accepted (.settled k v .accepted :: (push i v).2) = (k, v) :: accepted (push i v).2
    from rfl, h]
  rfl

theorem popped_logs (vs : List T) (h : Silent es) :
    obtained (vs.map .received ++ es) = vs ∧ started (vs.map .received ++ es) = [] ∧
    settled (vs.map .received ++ es) = [] ∧ accepted (vs.map .received ++ es) = [] := by
  induction vs with
  | nil => exact ⟨h.obtained, h.started, h.settled, h.accepted⟩
  | cons v vs ih => exact ⟨congrArg (v :: ·) ih.1, ih.2⟩

theorem settles_begun (h : Silent es) (ht : Trade s.objs s'.objs .gone b)
    (hp : b.pending = some (s.sends, v)) (hs : s'.sends = s.sends + 1) :
    Settles s s' (.started s.sends v :: es) := by
  have hpend := ht.pend
  rw [hp, toList_some, show (.gone : Obj T).pending.toList = [] from rfl,
    append_nil] at hpend
  have h1 : started (.started s.sends v :: es) = [(s.sends, v)] := by
    rw [show started (.started s.sends v :: es) = (s.sends, v) :: started es from rfl, h.started]
  have h2 : settled (.started s.sends v :: es) = [] := h.settled
  unfold Settles
  rw [h1, h2, nil_append]
  exact ⟨hpend, .inr ⟨rfl, hs⟩⟩

theorem logs_step (h : step s op = some (s', es)) : Delivers s s' es ∧ Settles s s' es := by
  have hself : s'.objs = s.objs → Trade s.objs s'.objs .gone .gone := fun h =>
    h.symm ▸ trade_self _ _
  -- a step that neither sends nor receives
  have hquiet : ∀ {a b : Obj T}, Silent es → Trade s.objs s'.objs a b → a.pending = b.pending →
      s'.inner.queue = s.inner.queue → s'.sends = s.sends → Delivers s s' es ∧ Settles s s' es :=
    fun hes ht hp hq hs => ⟨hes.delivers hq, hes.settles ht hp hs⟩
  cases step_moved h with
  | keep hi hs ht _ hp | reserve hi hs ht _ _ hp => exact hquiet silent_nil ht hp (by rw [hi]) hs
  | refuse hi hs ho hf =>
    exact ⟨delivers_same rfl (accepted_failed hf) (by rw [hi]),
      settles_at_once silent_nil (hself ho) rfl hs⟩
  | @begin v b es hi hs ht hb hp hes =>
    have hsil : Silent es := by
      rcases hes with rfl | ⟨j, rfl, -⟩ <;> exact ⟨rfl, rfl, rfl, rfl⟩
    exact ⟨delivers_same hsil.obtained hsil.accepted (by rw [hi]), settles_begun hsil ht hp hs⟩
  | settle hi hs ht _ ha hb hf =>
    exact ⟨delivers_same rfl (accepted_failed hf) (by rw [hi]),
      settles_pending silent_nil ht ha hb hs⟩
  | @pushNew v hi hs ho =>
    have hw := silent_of_wakes (wakes_push s.inner v)
    exact ⟨delivers_push (by rw [hi]; rfl) hw.obtained (accepted_push _),
      settles_at_once hw (hself ho) rfl hs⟩
  | @pushPending k v a b hi hs ht _ ha hb =>
    have hw := silent_of_wakes (wakes_push s.inner v)
    exact ⟨delivers_push (by rw [hi]; rfl) hw.obtained (accepted_push _),
      settles_pending hw ht ha hb hs⟩
  | @pushReserved v r a b _ hi hs ht _ _ hp =>
    have hw := silent_of_wakes (wakes_push s.inner v)
    exact ⟨delivers_push (by rw [hi]; rfl) hw.obtained (accepted_push _),
      settles_at_once hw ht hp hs⟩
  | waitSend hi hs ht _ hp => exact hquiet silent_nil ht hp (by rw [hi]; rfl) hs
  | parkSend hi hs ht => exact hquiet ⟨rfl, rfl, rfl, rfl⟩ ht rfl (by rw [hi]) hs
  | release hn hi hs ht _ _ hp =>
    obtain ⟨r, w, -, hi, -, hw, -⟩ := releaseReserved_some hn hi
    exact hquiet (silent_of_wakes hw) ht hp (by rw [hi]) hs
  | addSender hi hs ht => exact hquiet silent_nil ht rfl (by rw [hi]; rfl) hs
  | dropSender hi hs ht _ _ _ hp =>
    obtain ⟨n, w, -, hi, -, hw⟩ := dropSender_some hi
    exact hquiet (silent_of_wakes hw) ht hp (by rw [hi]) hs
  | waitClose hi hs ho => exact hquiet silent_nil (hself ho) rfl (by rw [hi]) hs
  | @pop vs q ws es hq _ hi _ hes hs ho =>
    have hw : Wakes (es ++ [.broadcast]) := .append (fun x hx => .inr (hes x hx)) wakes_broadcast
    obtain ⟨h1, h2, h3, h4⟩ := popped_logs vs (silent_of_wakes hw)
    rw [append_assoc]
    refine ⟨?_, ?_⟩
    · unfold Delivers
      rw [h1, h4, hi, hq, map_nil, append_nil]
    · unfold Settles
      rw [h2, h3, ho, append_nil]
      exact ⟨.refl _, .inl ⟨rfl, hs⟩⟩
  | ended hi hs ho | parkRecv hi hs ho =>
    exact hquiet ⟨rfl, rfl, rfl, rfl⟩ (hself ho) rfl (by rw [hi]) hs
  | waitRecv hi hs ho => exact hquiet ⟨rfl, rfl, rfl, rfl⟩ (hself ho) rfl (by rw [hi]; rfl) hs
  | @shut x hx hi hs ho =>
    obtain ⟨ws, hsh, -, hw, -⟩ := shut_eq s.inner
    have hlog : logged x = false := by
      rcases hx with rfl | rfl <;> rfl
    exact hquiet ((silent_of_wakes hw).cons hlog) (hself ho) rfl (by rw [hi, hsh]) hs

/-! ## Whole runs -/

/-- **The logs of a run.** -/
structure Logs (tr : List (Ev T)) (s : Sys T) : Prop where
  delivery : obtained tr ++ s.inner.queue = (accepted tr).map Prod.snd
  sends : (settled tr ++ pendings s.objs).Perm (started tr)
  numbers : (started tr).map Prod.fst = List.range s.sends

theorem logs_new (c : Option ℕ) : Logs ([] : List (Ev T)) (Sys.new c) := ⟨rfl, .refl _, rfl⟩

theorem Logs.step (h : Logs tr s) (hs : step s op = some (s', es)) : Logs (tr ++ es) s' := by
  obtain ⟨hd, hp, hn⟩ := logs_step hs
  unfold Delivers at hd
  refine ⟨?_, ?_, ?_⟩
  · rw [obtained_append, accepted_append, map_append, ← h.delivery, append_assoc,
      append_assoc, hd]
  · rw [settled_append, started_append, append_assoc]
    have hnow := hp.append_left (settled tr)
    have hbefore := h.sends.append_right (started es)
    rw [append_assoc] at hbefore
    exact hnow.trans hbefore
  · rw [started_append, map_append, h.numbers]
    rcases hn with ⟨h1, h2⟩ | ⟨h1, h2⟩
    · rw [h1, h2, append_nil]
    · rw [h1, h2, range_succ]

theorem logs_run {c : Option ℕ} (h0 : s₀ = Sys.new c) (h : Run step Any s₀ tr s) : Logs tr s := by
  subst h0
  exact h.inv (logs_new c) fun _ _ _ _ _ hl _ hs => hl.step hs

theorem mem_settled (h : .settled k v f ∈ tr) : (k, v) ∈ settled tr :=
  mem_filterMap.mpr ⟨_, h, rfl⟩

theorem settled_number (h : .settled k v f ∈ tr) :
    k ∈ (settled tr).map Prod.fst := mem_map.mpr ⟨(k, v), mem_settled h, rfl⟩

theorem mem_accepted (h : (k, v) ∈ accepted tr) : .settled k v .accepted ∈ tr := by
  obtain ⟨x, hx, hv⟩ := mem_filterMap.mp h
  split at hv
  · cases hv
    exact hx
  · cases hv

theorem Logs.nodup (h : Logs tr s) : ((settled tr ++ pendings s.objs).map Prod.fst).Nodup := by
  rw [(h.sends.map Prod.fst).nodup_iff, h.numbers]
  exact nodup_range

theorem Logs.not_accepted (h : Logs tr s) (hf : f ≠ .accepted)
    (h1 : .settled k v f ∈ tr) (v' : T) : (k, v') ∉ accepted tr := by
  intro hacc
  have h2 := mem_accepted hacc
  obtain ⟨l, r, rfl⟩ := append_of_mem h1
  -- the number of the send occurs nowhere else among the settled ones
  have hnd := h.nodup
  rw [map_append, nodup_append] at hnd
  have hnd := hnd.1
  rw [show settled (l ++ .settled k v f :: r) = settled l ++ (k, v) :: settled r by
    rw [settled_append]; rfl, map_append, map_cons,
    perm_middle.nodup_iff, nodup_cons] at hnd
  refine hnd.1 (mem_append.mpr ?_)
  rcases mem_append.mp h2 with h2 | h2
  · exact .inl (settled_number h2)
  · rcases mem_cons.mp h2 with heq | h2
    · simp only [Ev.settled.injEq] at heq
      exact absurd heq.2.2.symm hf
    · exact .inr (settled_number h2)

theorem Logs.pending_not_accepted (h : Logs tr s)
    (h1 : (k, v) ∈ pendings s.objs) (v' : T) : (k, v') ∉ accepted tr := by
  intro hacc
  have hnd := h.nodup
  rw [map_append, nodup_append] at hnd
  exact hnd.2.2 k (settled_number (mem_accepted hacc)) k
    (mem_map_of_mem (f := Prod.fst) h1) rfl

/-- **Values are delivered once, in the order in which they were accepted**, on both flavours of the
channel.  What was obtained, with the queue behind it, is what was accepted.  Each send that has
begun is settled, once and with its own value, or pending.  A send that failed, was dropped or is
pending is not accepted. -/
theorem mpsc_delivery (h0 : (∃ n, channel n = some s₀) ∨ s₀ = unboundedChannel)
    (h : Run step Any s₀ tr s) :
    obtained tr ++ s.inner.queue = (accepted tr).map Prod.snd ∧
    ((started tr).map Prod.fst).Nodup ∧
    (settled tr ++ pendings s.objs).Perm (started tr) ∧
    (∀ k v f, .settled k v f ∈ tr → f ≠ .accepted →
      (k, v) ∈ started tr ∧ ∀ v', (k, v') ∉ accepted tr) ∧
    ∀ k v, (k, v) ∈ pendings s.objs → ∀ v', (k, v') ∉ accepted tr := by
  obtain ⟨c, hc⟩ := new_of_channel h0
  have hl := logs_run hc h
  refine ⟨hl.delivery, ?_, hl.sends, fun k v f hk hf => ⟨?_, hl.not_accepted hf hk⟩,
    fun k v hk => hl.pending_not_accepted hk⟩
  · rw [hl.numbers]
    exact nodup_range
  · exact hl.sends.mem_iff.mp (mem_append_left _ (mem_settled hk))

/-- In a full channel one pending send is dropped, another waits until its value is accepted, and a
third comes back. -/
theorem mpsc_delivery_full : ∃ (s₀ s : Sys ℕ) (tr : List (Ev ℕ)), channel 1 = some s₀ ∧
    exec step s₀ [.trySend 0 5, .send 0 6, .send 0 7, .pollSend 1 0, .pollSend 2 0, .drop 1,
      .trySend 0 8, .tryRecv, .pollSend 2 0] = some (s, tr) ∧
    obtained tr = [5] ∧ s.inner.queue = [7] ∧ accepted tr = [(0, 5), (2, 7)] ∧
    obtained tr ++ s.inner.queue = (accepted tr).map Prod.snd := by
  refine ⟨_, _, _, rfl, rfl, rfl, rfl, rfl, ?_⟩
  exact (mpsc_delivery (T := ℕ) (.inl ⟨1, rfl⟩) (run_exec [.trySend 0 5, .send 0 6, .send 0 7,
    .pollSend 1 0, .pollSend 2 0, .drop 1, .trySend 0 8, .tryRecv, .pollSend 2 0] rfl)).1

end OhosFfrt.Mpsc.Delivery
