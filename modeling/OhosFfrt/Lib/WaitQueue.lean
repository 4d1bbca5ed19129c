import Mathlib.Data.List.Nodup
import Mathlib.Logic.Function.Basic
import Mathlib.Tactic.Common
import Mathlib.Algebra.Group.Nat.Defs

/-!
# First-in-first-out wait queues

A primitive that makes its clients wait keeps a list of waiters: each has an id, the request `req`
it waits with and the waker of its last poll.  Ids come from a 64-bit counter that skips `0`
(`nextId`).  A client that waits remembers its id; `held i` is the id and the request that client
`i` remembers, if any.

* `Linked q held`: queue and clients agree; a registration keeps this as long as its id is not in
  the queue.
* `Fifo tr q`: of the ids registered in the trace `tr`, without those that left the queue
  otherwise, the granted ones come first and the queued ones are the rest, in the same order.
* `Handed ready tr q`: if the front waiter is ready, its waker was woken after its last poll.
-/

namespace OhosFfrt.Lib.WaitQueue

open List Option

variable {κ ω ε ι : Type*}

structure Waiter (κ ω : Type*) where
  id : ℕ
  req : κ
  waker : ω
  deriving DecidableEq, Repr

/-- What happens at a wait queue.  `other` are the events of the primitive itself. -/
inductive Event (ω ε : Type*)
  | registered (id : ℕ)
  | polled (id : ℕ)
  | granted (id : ℕ)
  | cancelled (id : ℕ)
  | barged
  | woke (w : ω)
  | other (e : ε)
  deriving DecidableEq, Repr

/-! ## The operations -/

/-- The number after `n` in a 64-bit counter that never gives `0`. -/
def nextId (n : ℕ) : ℕ := max ((n + 1) % 2 ^ 64) 1

/-- The place of the waiter with a given id. -/
def position (q : List (Waiter κ ω)) (id : ℕ) : Option ℕ := q.findIdx? fun e => e.id = id

/-- A new poll of the waiter at place `p`: its waker is replaced unless it wakes the same task. -/
def setWaker [DecidableEq ω] (q : List (Waiter κ ω)) (p : ℕ) (w : ω) : List (Waiter κ ω) :=
  q.modify p fun e => if e.waker = w then e else { e with waker := w }

/-- The waker of the front waiter, if its request can be met. -/
def nextWaker (ready : κ → Bool) (q : List (Waiter κ ω)) : Option ω :=
  (q.head?.filter fun e => ready e.req).map Waiter.waker

/-- The event of a wake-up, if any. -/
def wake (w : Option ω) : List (Event ω ε) := w.toList.map .woke

/-- The client that remembers `w` leaves the queue, and the next one is woken if it is ready. -/
def cancel (ready : κ → Bool) (q : List (Waiter κ ω)) :
    Option ℕ → List (Waiter κ ω) × List (Event ω ε)
  | none => (q, [])
  | some id =>
    match position q id with
    | some p => (q.eraseIdx p, .cancelled id :: wake (nextWaker ready (q.eraseIdx p)))
    | none => (q, wake (nextWaker ready q))

variable {q : List (Waiter κ ω)} {id p : ℕ} {e : Waiter κ ω}

theorem nextId_of_lt {n : ℕ} (h : n + 1 < 2 ^ 64) : nextId n = n + 1 := by
  unfold nextId; rw [Nat.mod_eq_of_lt h]; omega

theorem position_none : position q id = none ↔ id ∉ q.map Waiter.id := by
  simp [position, findIdx?_eq_none_iff]

theorem position_some (h : position q id = some p) :
    ∃ q₁ e q₂, q = q₁ ++ e :: q₂ ∧ q₁.length = p ∧ e.id = id ∧ id ∉ q₁.map Waiter.id := by
  rw [position, findIdx?_eq_some_iff_getElem] at h
  obtain ⟨hp, he, hlt⟩ := h
  refine ⟨q.take p, q[p], q.drop (p + 1), ?_, by simp; omega, by simpa using he, ?_⟩
  · rw [getElem_cons_drop, take_append_drop]
  · intro hmem
    obtain ⟨e, hmem', rfl⟩ := mem_map.mp hmem
    obtain ⟨j, hj, rfl⟩ := getElem_of_mem hmem'
    rw [length_take] at hj
    refine hlt j (by omega) ?_
    rw [getElem_take]; simp

theorem position_zero (h : position q id = some 0) : ∃ e q', q = e :: q' ∧ e.id = id := by
  obtain ⟨q₁, e, q₂, rfl, hl, he, -⟩ := position_some h
  rw [length_eq_zero_iff] at hl
  subst hl
  exact ⟨e, q₂, rfl, he⟩

theorem position_succ (h : position q id = some (p + 1)) : ∃ e q', q = e :: q' ∧ e.id ≠ id := by
  obtain ⟨q₁, e, q₂, rfl, hl, -, hq⟩ := position_some h
  obtain ⟨e', q₁, rfl⟩ := exists_cons_of_length_eq_add_one hl
  refine ⟨e', q₁ ++ e :: q₂, rfl, fun he => hq ?_⟩
  simp [he]

/-- A client that remembers `w` has no place in the queue. -/
def Unqueued (q : List (Waiter κ ω)) (w : Option ℕ) : Prop :=
  ∀ id, w = some id → position q id = none

/-- **Where a poll finds its client**, which is ready or not: with no place in the queue it barges
in or joins, with one it is served at the front or stays. -/
inductive Place (q : List (Waiter κ ω)) (ready : Bool) : Option ℕ → Prop
  | barge {w : Option ℕ} (hu : Unqueued q w) (hq : q = []) (hr : ready = true) : Place q ready w
  | join {w : Option ℕ} (hu : Unqueued q w) (hr : q = [] → ready = false) : Place q ready w
  | serve {e : Waiter κ ω} {q' : List (Waiter κ ω)} (hq : q = e :: q')
      (hp : position q e.id = some 0) (hr : ready = true) : Place q ready (some e.id)
  | stay {id p : ℕ} (hp : position q id = some p) (hr : p = 0 → ready = false) :
      Place q ready (some id)

theorem place (q : List (Waiter κ ω)) (ready : Bool) (w : Option ℕ) : Place q ready w := by
  by_cases hu : Unqueued q w
  · by_cases hb : q = [] ∧ ready = true
    · exact .barge hu hb.1 hb.2
    · exact .join hu fun hq => by simpa [hq] using hb
  · obtain ⟨id, rfl, hp⟩ : ∃ id, w = some id ∧ position q id ≠ none := by
      simpa [Unqueued] using hu
    obtain ⟨p, hp⟩ := ne_none_iff_exists'.mp hp
    by_cases hb : p = 0 ∧ ready = true
    · obtain ⟨rfl, hr⟩ := hb
      obtain ⟨e, q', hq, rfl⟩ := position_zero hp
      exact .serve hq hp hr
    · exact .stay hp fun h0 => by simpa [h0] using hb

section setWaker
variable [DecidableEq ω] {w : ω}

theorem map_setWaker {β : Type*} (f : Waiter κ ω → β)
    (hf : ∀ e : Waiter κ ω, f { e with waker := w } = f e) :
    (setWaker q p w).map f = q.map f := by
  refine List.ext_getElem? fun i => ?_
  unfold setWaker
  rw [List.getElem?_map, List.getElem?_map, List.getElem?_modify]
  rcases q[i]? with _ | e
  · rfl
  · simp only [Option.map_eq_map, Option.map_some]
    split_ifs
    · rfl
    · rw [hf e]
    · rfl

theorem map_id_setWaker : (setWaker q p w).map Waiter.id = q.map Waiter.id :=
  map_setWaker _ fun _ => rfl

end setWaker

theorem map_eraseIdx_position (h : position q id = some p) :
    (q.eraseIdx p).map Waiter.id = (q.map Waiter.id).erase id := by
  obtain ⟨q₁, e, q₂, rfl, rfl, he, hq⟩ := position_some h
  rw [List.eraseIdx_append_of_length_le (Nat.le_refl _), Nat.sub_self, List.eraseIdx_cons_zero,
    map_append, map_append, map_cons, erase_append_right _ hq, he,
    erase_cons_head]

/-! ## Who waits where -/

/-- **The queue and the clients agree.** -/
structure Linked (q : List (Waiter κ ω)) (held : ι → Option (ℕ × κ)) : Prop where
  nodup : (q.map Waiter.id).Nodup
  entry : ∀ i id k, held i = some (id, k) → ∃ e ∈ q, e.id = id ∧ e.req = k
  inj : ∀ i j id k k', held i = some (id, k) → held j = some (id, k') → i = j

variable {held : ι → Option (ℕ × κ)} {i : ι} {k : κ}

theorem Linked.nil : Linked ([] : List (Waiter κ ω)) (fun _ : ι => none) :=
  ⟨by simp, by simp, by simp⟩

theorem Linked.position (h : Linked q held) (hi : held i = some (id, k)) :
    ∃ p, position q id = some p := by
  obtain ⟨e, he, rfl, -⟩ := h.entry i id k hi
  rcases hp : WaitQueue.position q e.id with _ | p
  · exact absurd (mem_map_of_mem he) (position_none.mp hp)
  · exact ⟨p, rfl⟩

theorem Linked.count (h : Linked q held) (hi : held i = some (id, k)) :
    (q.map Waiter.id).count id = 1 := by
  obtain ⟨e, he, rfl, -⟩ := h.entry i id k hi
  exact count_eq_one_of_mem h.nodup (mem_map_of_mem he)

theorem Linked.unqueued {w : Option ℕ} (h : Linked q held) (hi : held i = w.map (·, k))
    (hu : Unqueued q w) : held i = none := by
  rcases w with _ | id
  · exact hi
  · obtain ⟨p, hp⟩ := h.position hi
    rw [hu id rfl] at hp
    cases hp

/-- A client at the front finds its own request there. -/
theorem Linked.head (h : Linked q held) (hi : held i = some (id, k))
    (hp : WaitQueue.position q id = some 0) : ∃ e q', q = e :: q' ∧ e.id = id ∧ e.req = k := by
  obtain ⟨e, q', rfl, he⟩ := position_zero hp
  obtain ⟨e', he', hid, hk⟩ := h.entry i id k hi
  have hnd := h.nodup
  rw [map_cons, nodup_cons] at hnd
  rcases mem_cons.mp he' with rfl | he'
  · exact ⟨e', q', rfl, hid, hk⟩
  · have := mem_map_of_mem (f := Waiter.id) he'
    rw [hid, ← he] at this
    exact absurd this hnd.1

section update
variable [DecidableEq ι]

theorem Linked.register (h : Linked q held) (hid : id ∉ q.map Waiter.id) (w : ω) :
    Linked (q ++ [⟨id, k, w⟩]) (Function.update held i (some (id, k))) := by
  have hold : ∀ j k', held j = some (id, k') → False := by
    intro j k' hj
    obtain ⟨e, he, heq, -⟩ := h.entry j id k' hj
    exact hid (by rw [← heq]; exact mem_map_of_mem he)
  refine ⟨?_, ?_, ?_⟩
  · rw [map_append, nodup_append]
    refine ⟨h.nodup, by simp, ?_⟩
    intro a ha b hb hab
    simp only [map_cons, map_nil, mem_singleton] at hb
    subst hab hb
    exact hid ha
  · intro j id' k' hj
    by_cases hji : j = i
    · subst hji
      simp only [Function.update_self, some.injEq, Prod.mk.injEq] at hj
      obtain ⟨rfl, rfl⟩ := hj
      exact ⟨⟨id, k, w⟩, by simp, rfl, rfl⟩
    · rw [Function.update_of_ne hji] at hj
      obtain ⟨e, he, h1, h2⟩ := h.entry j id' k' hj
      exact ⟨e, by simp [he], h1, h2⟩
  · intro j j' id' k1 k2 hj hj'
    by_cases hji : j = i <;> by_cases hji' : j' = i
    · rw [hji, hji']
    · subst hji
      rw [Function.update_self] at hj
      rw [Function.update_of_ne hji'] at hj'
      cases hj
      exact (hold _ _ hj').elim
    · subst hji'
      rw [Function.update_self] at hj'
      rw [Function.update_of_ne hji] at hj
      cases hj'
      exact (hold _ _ hj).elim
    · rw [Function.update_of_ne hji] at hj
      rw [Function.update_of_ne hji'] at hj'
      exact h.inj _ _ _ _ _ hj hj'

theorem Linked.leave (h : Linked q held) (hi : held i = some (id, k)) {q' : List (Waiter κ ω)}
    (hsub : q'.Sublist q) (hkeep : ∀ e ∈ q, e.id ≠ id → e ∈ q') :
    Linked q' (Function.update held i none) := by
  refine ⟨h.nodup.sublist (hsub.map _), ?_, ?_⟩
  · intro j id' k' hj
    have hji : j ≠ i := by rintro rfl; simp at hj
    rw [Function.update_of_ne hji] at hj
    obtain ⟨e, he, h1, h2⟩ := h.entry j id' k' hj
    refine ⟨e, hkeep e he ?_, h1, h2⟩
    rintro heq
    rw [← h1, heq] at hj
    exact hji (h.inj _ _ _ _ _ hj hi)
  · intro j j' id' k1 k2 hj hj'
    have hji : j ≠ i := by rintro rfl; simp at hj
    have hji' : j' ≠ i := by rintro rfl; simp at hj'
    rw [Function.update_of_ne hji] at hj
    rw [Function.update_of_ne hji'] at hj'
    exact h.inj _ _ _ _ _ hj hj'

theorem Linked.grant (h : Linked (e :: q) held) (hi : held i = some (e.id, k)) :
    Linked q (Function.update held i none) := by
  refine h.leave hi (sublist_cons_self e q) fun e' he' hne => ?_
  rcases mem_cons.mp he' with rfl | he'
  · exact absurd rfl hne
  · exact he'

theorem Linked.cancel (h : Linked q held) (hi : held i = some (id, k))
    (hp : WaitQueue.position q id = some p) :
    Linked (q.eraseIdx p) (Function.update held i none) := by
  refine h.leave hi (eraseIdx_sublist q p) fun e' he' hne => ?_
  obtain ⟨q₁, e, q₂, rfl, rfl, he, -⟩ := position_some hp
  rw [eraseIdx_append_of_length_le (Nat.le_refl _), Nat.sub_self, eraseIdx_cons_zero]
  simp only [mem_append, mem_cons] at he' ⊢
  rcases he' with h1 | rfl | h1
  · exact .inl h1
  · exact absurd he hne
  · exact .inr h1

end update

theorem Linked.setWaker [DecidableEq ω] (h : Linked q held) (p : ℕ) (w : ω) :
    Linked (setWaker q p w) held := by
  refine ⟨by rw [map_id_setWaker]; exact h.nodup, ?_, h.inj⟩
  intro j id' k' hj
  obtain ⟨e, he, h1, h2⟩ := h.entry j id' k' hj
  have hmap : (WaitQueue.setWaker q p w).map (fun e => (e.id, e.req)) =
      q.map fun e => (e.id, e.req) :=
    map_setWaker _ fun _ => rfl
  have hmem : (id', k') ∈ (WaitQueue.setWaker q p w).map fun e => (e.id, e.req) := by
    rw [hmap, ← h1, ← h2]
    exact mem_map_of_mem he
  obtain ⟨e', he', heq⟩ := mem_map.mp hmem
  cases heq
  exact ⟨e', he', rfl, rfl⟩

/-! ## First in, first out -/

/-- The ids registered. -/
def registered (tr : List (Event ω ε)) : List ℕ :=
  tr.filterMap fun | .registered id => some id | _ => none

/-- The ids granted. -/
def granted (tr : List (Event ω ε)) : List ℕ :=
  tr.filterMap fun | .granted id => some id | _ => none

/-- The ids that left the queue without being granted. -/
def cancelled (tr : List (Event ω ε)) : List ℕ :=
  tr.filterMap fun | .cancelled id => some id | _ => none

/-- **First in, first out.**  Ids are not registered twice, only registered ids are cancelled, and
the registered ids that were not cancelled are the granted ones followed by the queued ones. -/
structure Fifo (tr : List (Event ω ε)) (q : List (Waiter κ ω)) : Prop where
  nodup : (registered tr).Nodup
  sub : ∀ id ∈ cancelled tr, id ∈ registered tr
  order : (registered tr).filter (fun id => id ∉ cancelled tr) = granted tr ++ q.map Waiter.id

section traces
variable (tr es : List (Event ω ε)) (o : Option ω)

@[simp] theorem registered_append : registered (tr ++ es) = registered tr ++ registered es := by
  simp [registered]

@[simp] theorem granted_append : granted (tr ++ es) = granted tr ++ granted es := by
  simp [granted]

@[simp] theorem cancelled_append : cancelled (tr ++ es) = cancelled tr ++ cancelled es := by
  simp [cancelled]

@[simp] theorem registered_wake : registered (wake o : List (Event ω ε)) = [] := by
  cases o <;> rfl

@[simp] theorem granted_wake : granted (wake o : List (Event ω ε)) = [] := by
  cases o <;> rfl

@[simp] theorem cancelled_wake : cancelled (wake o : List (Event ω ε)) = [] := by
  cases o <;> rfl

end traces

variable {tr es : List (Event ω ε)}

theorem registered_cancel {ready : κ → Bool} {w : Option ℕ} :
    registered (cancel ready q w : _ × List (Event ω ε)).2 = [] := by
  rcases w with _ | id
  · rfl
  · rcases hp : position q id with _ | p <;> simp only [cancel, hp] <;> exact registered_wake _

theorem Fifo.nil : Fifo ([] : List (Event ω ε)) ([] : List (Waiter κ ω)) :=
  ⟨by simp [registered], by simp [cancelled], by simp [registered, granted]⟩

theorem Fifo.quiet {q' : List (Waiter κ ω)} (h : Fifo tr q)
    (hq : q'.map Waiter.id = q.map Waiter.id)
    (hr : registered es = []) (hg : granted es = []) (hc : cancelled es = []) :
    Fifo (tr ++ es) q' := by
  have h1 : registered (tr ++ es) = registered tr := by simp [hr]
  have h2 : granted (tr ++ es) = granted tr := by simp [hg]
  have h3 : cancelled (tr ++ es) = cancelled tr := by simp [hc]
  exact ⟨by rw [h1]; exact h.nodup, by rw [h1, h3]; exact h.sub,
    by rw [h1, h2, h3, hq]; exact h.order⟩

theorem Fifo.register (h : Fifo tr q) (he : e.id ∉ registered tr) :
    Fifo (tr ++ [.registered e.id]) (q ++ [e]) := by
  have h1 : registered (tr ++ [.registered e.id]) = registered tr ++ [e.id] := by
    simp [registered]
  have h2 : granted (tr ++ [.registered e.id]) = granted tr := by simp [granted]
  have h3 : cancelled (tr ++ [.registered e.id]) = cancelled tr := by simp [cancelled]
  have hnc : e.id ∉ cancelled tr := fun hc => he (h.sub _ hc)
  refine ⟨?_, ?_, ?_⟩
  · rw [h1, nodup_append]
    refine ⟨h.nodup, by simp, ?_⟩
    intro a ha b hb hab
    rw [mem_singleton] at hb
    subst hab hb
    exact he ha
  · intro id hid
    rw [h3] at hid
    rw [h1]
    simp [h.sub id hid]
  · rw [h1, h2, h3, filter_append, h.order, map_append, append_assoc]
    simp [hnc]

theorem Fifo.grant (h : Fifo tr (e :: q)) (o : Option ω) :
    Fifo (tr ++ .granted e.id :: wake o) q := by
  have h1 : registered (tr ++ .granted e.id :: wake o) = registered tr := by
    rw [registered_append]; change registered tr ++ registered (wake o) = _; simp
  have h2 : granted (tr ++ .granted e.id :: wake o) = granted tr ++ [e.id] := by
    rw [granted_append]; change granted tr ++ e.id :: granted (wake o) = _; simp
  have h3 : cancelled (tr ++ .granted e.id :: wake o) = cancelled tr := by
    rw [cancelled_append]; change cancelled tr ++ cancelled (wake o) = _; simp
  refine ⟨by rw [h1]; exact h.nodup, by rw [h1, h3]; exact h.sub, ?_⟩
  rw [h1, h2, h3, h.order]
  simp

theorem Fifo.mem_registered (h : Fifo tr q) (hid : id ∈ q.map Waiter.id) : id ∈ registered tr := by
  have : id ∈ (registered tr).filter fun id => id ∉ cancelled tr := by
    rw [h.order]; exact mem_append_right _ hid
  exact (mem_filter.mp this).1

theorem Fifo.not_granted (h : Fifo tr q) (hid : id ∈ q.map Waiter.id) : id ∉ granted tr := by
  have hnd : (granted tr ++ q.map Waiter.id).Nodup := by rw [← h.order]; exact h.nodup.filter _
  exact fun hg => (nodup_append.mp hnd).2.2 id hg id hid rfl

theorem Fifo.cancel (h : Fifo tr q) (hp : WaitQueue.position q id = some p) (o : Option ω) :
    Fifo (tr ++ .cancelled id :: wake o) (q.eraseIdx p) := by
  have h1 : registered (tr ++ .cancelled id :: wake o) = registered tr := by
    rw [registered_append]; change registered tr ++ registered (wake o) = _; simp
  have h2 : granted (tr ++ .cancelled id :: wake o) = granted tr := by
    rw [granted_append]; change granted tr ++ granted (wake o) = _; simp
  have h3 : cancelled (tr ++ .cancelled id :: wake o) = cancelled tr ++ [id] := by
    rw [cancelled_append]; change cancelled tr ++ id :: cancelled (wake o) = _; simp
  have hid : id ∈ q.map Waiter.id := by
    by_contra hc
    rw [position_none.mpr hc] at hp
    simp at hp
  refine ⟨by rw [h1]; exact h.nodup, ?_, ?_⟩
  · intro id' hid'
    rw [h3, mem_append, mem_singleton] at hid'
    rw [h1]
    rcases hid' with hid' | rfl
    · exact h.sub id' hid'
    · exact h.mem_registered hid
  · rw [h1, h2, h3, map_eraseIdx_position hp, ← erase_append_right _ (h.not_granted hid),
      ← h.order, (h.nodup.filter _).erase_eq_filter, List.filter_filter]
    refine filter_congr fun x _ => ?_
    simp only [mem_append, mem_singleton]
    by_cases hx : x = id <;> simp [hx]

theorem Fifo.drain (h : Fifo tr q) :
    Fifo (tr ++ (q.map (fun e => .cancelled e.id) ++ q.map fun e => .woke e.waker))
      ([] : List (Waiter κ ω)) := by
  have h1 : registered (q.map (fun e => (.cancelled e.id : Event ω ε)) ++
      q.map fun e => .woke e.waker) = [] := by simp [registered]
  have h2 : granted (q.map (fun e => (.cancelled e.id : Event ω ε)) ++
      q.map fun e => .woke e.waker) = [] := by simp [granted]
  have h3 : cancelled (q.map (fun e => (.cancelled e.id : Event ω ε)) ++
      q.map fun e => .woke e.waker) = q.map Waiter.id := by
    simp only [cancelled, filterMap_append, filterMap_map]
    simp
  have hg : ∀ id ∈ granted tr, id ∉ q.map Waiter.id :=
    fun id hid hq => h.not_granted hq hid
  refine ⟨by rw [registered_append, h1, append_nil]; exact h.nodup, ?_, ?_⟩
  · intro id hid
    rw [cancelled_append, h3, mem_append] at hid
    rw [registered_append, h1, append_nil]
    rcases hid with hid | hid
    · exact h.sub id hid
    · exact h.mem_registered hid
  · rw [registered_append, granted_append, cancelled_append, h1, h2, h3]
    simp only [append_nil, map_nil]
    have hsplit : (registered tr).filter (fun id => id ∉ cancelled tr ++ q.map Waiter.id) =
        ((registered tr).filter fun id => id ∉ cancelled tr).filter
          fun id => id ∉ q.map Waiter.id := by
      rw [List.filter_filter]
      refine filter_congr fun x _ => ?_
      simp only [mem_append, not_or, Bool.decide_and, Bool.and_comm]
    rw [hsplit, h.order, filter_append,
      filter_eq_self.mpr fun id hid => decide_eq_true (hg id hid),
      filter_eq_nil_iff.mpr fun id hid => by simpa using hid, append_nil]

/-! ## Wake-ups -/

/-- An event is a poll of the waiter `id`. -/
def Event.Polls (id : ℕ) (x : Event ω ε) : Prop := x = .registered id ∨ x = .polled id

/-- **Woken since its last poll**: `w` was woken, and `id` was not polled after that. -/
def WokenSince (id : ℕ) (w : ω) (tr : List (Event ω ε)) : Prop :=
  ∃ tr₁ tr₂, tr = tr₁ ++ .woke w :: tr₂ ∧ ∀ x ∈ tr₂, ¬ x.Polls id

theorem WokenSince.append {w : ω} (h : WokenSince id w tr) (hes : ∀ x ∈ es, ¬ x.Polls id) :
    WokenSince id w (tr ++ es) := by
  obtain ⟨tr₁, tr₂, rfl, h2⟩ := h
  refine ⟨tr₁, tr₂ ++ es, by simp, fun x hx => ?_⟩
  rcases mem_append.mp hx with hx | hx
  · exact h2 x hx
  · exact hes x hx

/-- **The baton**: if the front waiter is ready, it was woken since its last poll. -/
def Handed (ready : κ → Bool) (tr : List (Event ω ε)) (q : List (Waiter κ ω)) : Prop :=
  ∀ e ∈ q.head?, ready e.req = true → WokenSince e.id e.waker tr

variable {ready ready' : κ → Bool}

theorem handed_of_not_ready (h : ∀ e ∈ q.head?, ready e.req = false) : Handed ready tr q := by
  intro e he hr
  rw [h e he] at hr
  simp at hr

/-- **An operation that ends by waking the next waiter passes the baton.** -/
theorem handed_wake (ready : κ → Bool) (tr : List (Event ω ε)) (q : List (Waiter κ ω)) :
    Handed ready (tr ++ wake (nextWaker ready q)) q := by
  intro e he hr
  have hn : nextWaker ready q = some e.waker := by
    rw [nextWaker, mem_def.mp he]
    simp [Option.filter, hr]
  rw [hn]
  exact ⟨tr, [], rfl, by simp⟩

theorem handed_cancel {w : Option ℕ} (h : Handed ready tr q) :
    Handed ready (tr ++ (cancel ready q w).2) (cancel ready q w : _ × List (Event ω ε)).1 := by
  rcases w with _ | id
  · rw [cancel, append_nil]
    exact h
  · rcases hp : position q id with _ | p <;> simp only [cancel, hp]
    · exact handed_wake _ _ _
    · rw [append_cons]
      exact handed_wake _ _ _

theorem Handed.keep {q' : List (Waiter κ ω)} (h : Handed ready tr q) (hq : q'.head? = q.head?)
    (hr : ∀ e ∈ q.head?, ready' e.req = true → ready e.req = true)
    (hes : ∀ e ∈ q.head?, ∀ x ∈ es, ¬ x.Polls e.id) : Handed ready' (tr ++ es) q' := by
  intro e he hre
  rw [hq] at he
  exact (h e he (hr e he hre)).append (hes e he)

theorem Handed.register {w : ω} {k : κ} (h : Handed ready tr q) (hid : id ∉ q.map Waiter.id)
    (hr : q = [] → ready k = false) :
    Handed ready (tr ++ [.registered id]) (q ++ [⟨id, k, w⟩]) := by
  rcases q with _ | ⟨e, q⟩
  · refine handed_of_not_ready fun e he => ?_
    simp only [nil_append, head?_cons, mem_def, some.injEq] at he
    subst he
    exact hr rfl
  · refine h.keep rfl (fun _ _ h => h) fun e' he' x hx => ?_
    simp only [head?_cons, mem_def, some.injEq] at he'
    rw [mem_singleton] at hx
    subst he' hx
    rintro (hc | hc)
    · cases hc
      simp at hid
    · cases hc

theorem Handed.repoll [DecidableEq ω] {w : ω} (h : Handed ready tr q)
    (hp : WaitQueue.position q id = some p) (hr : p = 0 → ∀ e ∈ q.head?, ready e.req = false) :
    Handed ready (tr ++ [.polled id]) (setWaker q p w) := by
  rcases p with _ | p
  · refine handed_of_not_ready fun e he => ?_
    have hmem : e.req ∈ ((setWaker q 0 w).map Waiter.req).head? := by
      rw [head?_map, mem_def.mp he]
      rfl
    rw [map_setWaker _ (fun _ => rfl), head?_map] at hmem
    obtain ⟨e', he', heq⟩ := map_eq_some_iff.mp hmem
    rw [← heq]
    exact hr rfl e' he'
  · obtain ⟨e, q', rfl, hne⟩ := position_succ hp
    refine h.keep rfl (fun _ _ h => h) fun e' he' x hx => ?_
    simp only [head?_cons, mem_def, some.injEq] at he'
    rw [mem_singleton] at hx
    subst he' hx
    rintro (hc | hc)
    · cases hc
    · cases hc
      exact hne rfl

end OhosFfrt.Lib.WaitQueue
