import OhosFfrt.Lib.WaitQueue

/-!
# A wait queue and the clients that wait in it

`Clients` is the abstract machine behind a first-in-first-out primitive: the counter of the ids, the
queue, and what each client remembers.  A primitive whose steps are moves of it (`Moves`) inherits
that queue and clients agree (`Moves.linked`), and, as long as fewer than `2 ^ 64` ids were given
out, that the queue is first in, first out (`Moves.orderly`).
-/

namespace OhosFfrt.Lib.Waiting

open Lib.WaitQueue List

variable {ι κ ω ε : Type*} {tr es : List (Event ω ε)}

/-- A wait queue with its clients. -/
structure Clients (ι κ ω : Type*) where
  next : ℕ
  queue : List (Waiter κ ω)
  held : ι → Option (ℕ × κ)

/-- The event does not change who is in the queue. -/
def Quiet : Event ω ε → Prop
  | .registered _ | .granted _ | .cancelled _ => False
  | _ => True

theorem quiet_traces (h : ∀ x ∈ es, Quiet x) :
    registered es = [] ∧ granted es = [] ∧ cancelled es = [] := by
  refine ⟨?_, ?_, ?_⟩
  all_goals
    refine filterMap_eq_nil_iff.mpr fun x hx => ?_
    have := h x hx
    cases x <;> first | rfl | exact this.elim

theorem quiet_wake (o : Option ω) : ∀ x ∈ (wake o : List (Event ω ε)), Quiet x := by
  intro x hx
  obtain ⟨w, -, rfl⟩ := mem_map.mp hx
  trivial

/-! ## Before the ids repeat -/

/-- **The ids given out** are `1, 2, 3, …`, and the next one follows unless the counter wraps. -/
structure Ids (tr : List (Event ω ε)) (next : ℕ) : Prop where
  given : registered tr = List.range' 1 (registered tr).length
  next : (registered tr).length + 1 < 2 ^ 64 → next = (registered tr).length + 1

theorem Ids.fresh {n : ℕ} (h : Ids tr n) (hn : (registered tr).length + 1 < 2 ^ 64) :
    n ∉ registered tr := by
  rw [h.given, mem_range'_1, h.next hn]
  omega

/-- **In order**: ids, queue and clients. -/
structure Orderly (tr : List (Event ω ε)) (c : Clients ι κ ω) : Prop where
  ids : Ids tr c.next
  linked : Linked c.queue c.held
  fifo : Fifo tr c.queue

theorem Orderly.init : Orderly ([] : List (Event ω ε)) (⟨1, [], fun _ => none⟩ : Clients ι κ ω) :=
  ⟨⟨rfl, fun _ => rfl⟩, Linked.nil, Fifo.nil⟩

theorem Orderly.fresh {c : Clients ι κ ω} (h : Orderly tr c)
    (hn : (registered tr).length + 1 < 2 ^ 64) : c.next ∉ c.queue.map Waiter.id :=
  fun hc => h.ids.fresh hn (h.fifo.mem_registered hc)

/-! ## The moves -/

variable [DecidableEq ι] [DecidableEq ω]

/-- **The moves.**  A client that does not wait registers; one that waits is polled and stays, is
granted at the front, or leaves from wherever it is. -/
inductive Moves (c : Clients ι κ ω) : List (Event ω ε) → Clients ι κ ω → Prop
  | quiet {es : List (Event ω ε)} (h : ∀ x ∈ es, Quiet x) : Moves c es c
  | register {i : ι} {k : κ} {w : ω} (hi : c.held i = none) : Moves c [.registered c.next]
      { next := nextId c.next
        queue := c.queue ++ [⟨c.next, k, w⟩]
        held := Function.update c.held i (some (c.next, k)) }
  | repoll {id p : ℕ} {w : ω} : Moves c [.polled id] { c with queue := setWaker c.queue p w }
  | grant {e : Waiter κ ω} {q : List (Waiter κ ω)} {i : ι} {k : κ} {o : Option ω}
      (hq : c.queue = e :: q) (hi : c.held i = some (e.id, k)) :
      Moves c (.granted e.id :: wake o) { c with queue := q, held := Function.update c.held i none }
  | cancel {id p : ℕ} {i : ι} {k : κ} {o : Option ω} (hi : c.held i = some (id, k))
      (hp : position c.queue id = some p) :
      Moves c (.cancelled id :: wake o)
        { c with queue := c.queue.eraseIdx p, held := Function.update c.held i none }

variable {c c' : Clients ι κ ω}

theorem Moves.linked (hm : Moves c es c') (h : Linked c.queue c.held)
    (hid : registered es ≠ [] → c.next ∉ c.queue.map Waiter.id) : Linked c'.queue c'.held := by
  cases hm with
  | quiet => exact h
  | register => exact h.register (hid (by simp [registered])) _
  | repoll => exact h.setWaker _ _
  | grant hq hi => exact (hq ▸ h).grant hi
  | cancel hi hp => exact h.cancel hi hp

theorem Moves.fifo (hm : Moves c es c') (h : Fifo tr c.queue)
    (hid : registered es ≠ [] → c.next ∉ registered tr) : Fifo (tr ++ es) c'.queue := by
  cases hm with
  | quiet hq =>
    obtain ⟨h1, h2, h3⟩ := quiet_traces hq
    exact h.quiet rfl h1 h2 h3
  | @register i k w => exact h.register (e := ⟨c.next, k, w⟩) (hid (by simp [registered]))
  | repoll => exact h.quiet map_id_setWaker rfl rfl rfl
  | grant hq => exact (hq ▸ h).grant _
  | cancel hi hp => exact h.cancel hp _

theorem Moves.ids (hm : Moves c es c') (h : Ids tr c.next)
    (hn : (registered (tr ++ es)).length < 2 ^ 64) : Ids (tr ++ es) c'.next := by
  have hsame : registered es = [] → c'.next = c.next → Ids (tr ++ es) c'.next := by
    intro h1 h2
    have h3 : registered (tr ++ es) = registered tr := by simp [h1]
    exact ⟨by rw [h3]; exact h.given, by rw [h3, h2]; exact h.next⟩
  cases hm with
  | quiet hq => exact hsame (quiet_traces hq).1 rfl
  | register =>
    have h1 : registered (tr ++ [.registered c.next]) = registered tr ++ [c.next] := by
      simp [registered]
    rw [h1, length_append, length_singleton] at hn
    have h2 := h.next hn
    refine ⟨?_, ?_⟩
    · rw [h1, length_append, length_singleton, range'_concat, ← h.given, h2]
      simp [Nat.add_comm]
    · rw [h1, length_append, length_singleton]
      intro h3
      change nextId c.next = _
      rw [h2, nextId_of_lt h3]
  | repoll => exact hsame rfl rfl
  | @grant e q i k o hq hi | @cancel id p i k o hi hp => exact hsame (registered_wake o) rfl

/-- A move keeps the order. -/
theorem Moves.orderly (hm : Moves c es c') (h : Orderly tr c)
    (hn : (registered (tr ++ es)).length < 2 ^ 64) : Orderly (tr ++ es) c' := by
  have hroom : registered es ≠ [] → (registered tr).length + 1 < 2 ^ 64 := by
    intro hes
    have := length_pos_iff.mpr hes
    rw [registered_append, length_append] at hn
    omega
  exact ⟨hm.ids h.ids hn, hm.linked h.linked fun hes => h.fresh (hroom hes),
    hm.fifo h.fifo fun hes => h.ids.fresh (hroom hes)⟩

/-! ## Polls and cancellations -/

/-- **What a poll does** for a client that remembers `w` and waits with `k`: to those who are ready,
to the counter, to the queue and to what the client remembers, with its events. -/
inductive Polls (ready : κ → Bool) (n : ℕ) (q : List (Waiter κ ω)) (k : κ) (cx : ω) :
    Option ℕ → (κ → Bool) → ℕ → List (Waiter κ ω) → Option ℕ → List (Event ω ε) → Prop
  | barge {w : Option ℕ} {ready' : κ → Bool} (hu : Unqueued q w) (hq : q = []) :
      Polls ready n q k cx w ready' n q none [.barged]
  | join {w : Option ℕ} (hu : Unqueued q w) (hr : q = [] → ready k = false) :
      Polls ready n q k cx w ready (nextId n) (q ++ [⟨n, k, cx⟩]) (some n) [.registered n]
  /-- Whoever can acquire after it is woken. -/
  | serve {e : Waiter κ ω} {q' : List (Waiter κ ω)} {ready' : κ → Bool} {o : Option ω}
      (hq : q = e :: q') (ho : o = nextWaker ready' q.tail ∨ ∀ k, ready' k = false) :
      Polls ready n q k cx (some e.id) ready' n q.tail none (.granted e.id :: wake o)
  | stay {id p : ℕ} (hp : position q id = some p) (hr : p = 0 → ready k = false) :
      Polls ready n q k cx (some id) ready n (setWaker q p cx) (some id) [.polled id]

variable {ready ready' : κ → Bool} {n' : ℕ} {q : List (Waiter κ ω)} {k : κ} {cx : ω}
  {w w' : Option ℕ} {i : ι}

/-- A poll is a move. -/
theorem Polls.moves (hp : Polls ready c.next c.queue k cx w ready' n' q w' es)
    (hl : Linked c.queue c.held) (hi : c.held i = w.map (·, k)) :
    Moves c es ⟨n', q, Function.update c.held i (w'.map (·, k))⟩ := by
  cases hp with
  | barge hu =>
    rw [Option.map_none, ← hl.unqueued hi hu, Function.update_eq_self]
    exact .quiet (by simp [Quiet])
  | join hu => exact .register (hl.unqueued hi hu)
  | serve hq =>
    rw [show c.queue.tail = _ from congrArg tail hq]
    exact .grant hq hi
  | stay =>
    rw [← hi, Function.update_eq_self]
    exact .repoll

omit [DecidableEq ι] in
/-- **A poll passes the baton on.** -/
theorem Polls.handed (hp : Polls ready c.next c.queue k cx w ready' n' q w' es)
    (hl : Linked c.queue c.held) (hi : c.held i = w.map (·, k))
    (hn : registered es ≠ [] → c.next ∉ c.queue.map Waiter.id) (h : Handed ready tr c.queue) :
    Handed ready' (tr ++ es) q := by
  cases hp with
  | barge hu hq => exact handed_of_not_ready (by simp [hq])
  | join hu hr => exact h.register (hn (by simp [registered])) hr
  | serve hq ho =>
    rcases ho with rfl | hr
    · rw [append_cons]
      exact handed_wake _ _ _
    · exact handed_of_not_ready fun _ _ => hr _
  | stay hp hr =>
    refine h.repoll hp fun h0 e he => ?_
    subst h0
    obtain ⟨e', q', hq, -, hreq⟩ := hl.head hi hp
    rw [hq, head?_cons, Option.mem_some_iff] at he
    rw [← he, hreq]
    exact hr rfl

/-- So is the drop of a future. -/
theorem cancel_moves (hl : Linked c.queue c.held) (hi : c.held i = w.map (·, k)) :
    Moves c (cancel ready c.queue w : _ × List (Event ω ε)).2
      { c with
        queue := (cancel ready c.queue w : _ × List (Event ω ε)).1
        held := Function.update c.held i none } := by
  rcases w with _ | id
  · rw [← show c.held i = none from hi, Function.update_eq_self]
    exact .quiet (by simp [cancel])
  · obtain ⟨p, hp⟩ := hl.position hi
    simp only [cancel, hp]
    exact .cancel hi hp

end OhosFfrt.Lib.Waiting
