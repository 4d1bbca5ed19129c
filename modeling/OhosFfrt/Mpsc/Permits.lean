import OhosFfrt.Mpsc.Steps

/-!
# `signal::mpsc`: the accounts of permits and senders

A slot changes hands from an iterator to a permit, from a permit into the queue, from an owned
permit back to its sender.  Since a permit keeps its sender alive, no counter ever underflows
(`mpsc_permits`).
-/

namespace OhosFfrt.Mpsc.Permits

open Basic Lib.Arena Lib.Runs List Option
open Mpsc.Shared Mpsc.System Mpsc.Moves Mpsc.Steps

variable {T : Type*} {s s₀ s' : Sys T} {op : Op T} {es tr : List (Ev T)} {c : Option ℕ}
  {i : Inner T} {a b : Obj T} {n : ℕ}

/-- **The accounts** of a channel with capacity `c`. -/
structure Accounts (c : Option ℕ) (s : Sys T) : Prop where
  capacity : s.inner.capacity = c
  reserved : s.inner.reserved = s.slots
  senderCount : s.inner.senderCount = s.senders
  borrow : Borrowed s.objs
  bound : ∀ n, c = some n → s.inner.queue.length + s.inner.reserved ≤ n

theorem accounts_new (c : Option ℕ) : Accounts c (Sys.new c : Sys T) := by
  refine ⟨rfl, rfl, rfl, fun o ho tx htx => ?_, fun n _ => Nat.zero_le n⟩
  rw [mem_singleton.mp ho] at htx
  cases htx

theorem Accounts.trade (h : Accounts c s) (ht : Trade s.objs s'.objs a b)
    (hc : s'.inner.capacity = s.inner.capacity)
    (hr : s'.inner.reserved + a.slots = s.inner.reserved + b.slots)
    (hs : s'.inner.senderCount + a.isSender.toNat = s.inner.senderCount + b.isSender.toNat)
    (hb : ∀ n, c = some n → s'.inner.queue.length + s'.inner.reserved ≤ n) : Accounts c s' := by
  have h1 := ht.slots
  have h2 := ht.senders
  have h3 := h.reserved
  have h4 := h.senderCount
  unfold Sys.slots at h3
  unfold Sys.senders at h4
  refine ⟨hc.trans h.capacity, ?_, ?_, ht.borrow h.borrow, hb⟩
  · unfold Sys.slots
    omega
  · unfold Sys.senders
    omega

theorem Accounts.same (h : Accounts c s) (ht : Trade s.objs s'.objs a b)
    (hab : Alike a b) (hc : s'.inner.capacity = s.inner.capacity)
    (hr : s'.inner.reserved = s.inner.reserved) (hs : s'.inner.senderCount = s.inner.senderCount)
    (hq : s'.inner.queue.length ≤ s.inner.queue.length) : Accounts c s' := by
  refine h.trade ht hc (by rw [hr, hab.2]) (by rw [hs, hab.1]) fun n hn => ?_
  have := h.bound n hn
  omega

theorem Accounts.keep (h : Accounts c s) (ht : Trade s.objs s'.objs a b)
    (hab : Alike a b) (hi : s'.inner = s.inner) : Accounts c s' :=
  h.same ht hab (by rw [hi]) (by rw [hi]) (by rw [hi]) (by rw [hi])

theorem room_lt (h : Room i) (hc : i.capacity = some n) :
    i.queue.length + i.reserved < n := by
  have hf := h.2
  unfold Inner.full at hf
  rw [hc] at hf
  simpa using hf

theorem free_eq (hc : i.capacity = some n) :
    i.free = n - (i.queue.length + i.reserved) := by
  unfold Inner.free
  rw [hc, getD_some]

theorem trade_eq (h : s'.objs = s.objs) : Trade s.objs s'.objs a a := by
  rw [h]
  exact trade_self _ a

theorem accounts_step (h : Accounts c s) (hs : step s op = some (s', es)) : Accounts c s' := by
  have hlike : Alike (.gone : Obj T) .gone := ⟨rfl, rfl⟩
  -- with room for it, one more value is within the bound
  have hroom : Room s.inner → ∀ n, c = some n →
      s.inner.queue.length + 1 + s.inner.reserved ≤ n := by
    intro hr n hn
    have := room_lt hr (h.capacity.trans hn)
    omega
  cases step_moved hs with
  | keep hi _ ht hab | settle hi _ ht hab => exact h.keep ht hab hi
  | begin hi _ ht hb => exact h.keep ht hb hi
  | parkSend hi _ ht => exact h.keep ht ⟨rfl, rfl⟩ hi
  | refuse hi _ ho | ended hi _ ho | parkRecv hi _ ho => exact h.keep (trade_eq ho) hlike hi
  | waitClose hi _ ho =>
    exact h.same (trade_eq ho) hlike (by rw [hi]) (by rw [hi]) (by rw [hi]) (by rw [hi])
  | waitRecv hi _ ho =>
    exact h.same (trade_eq ho) hlike (by rw [hi]; rfl) (by rw [hi]; rfl) (by rw [hi]; rfl)
      (by rw [hi]; exact Nat.le_refl _)
  | waitSend hi _ ht hab =>
    exact h.same ht hab (by rw [hi]; rfl) (by rw [hi]; rfl) (by rw [hi]; rfl)
      (by rw [hi]; exact Nat.le_refl _)
  | pushNew hi _ ho hr =>
    refine h.trade (trade_eq (a := .gone) ho) (by rw [hi]; rfl) (by rw [hi]; rfl) (by rw [hi]; rfl)
      fun n hn => ?_
    rw [hi]
    simpa [push] using hroom hr n hn
  | pushPending hi _ ht hab _ _ hr =>
    refine h.trade ht (by rw [hi]; rfl) (by rw [hi, hab.2]; rfl) (by rw [hi, hab.1]; rfl)
      fun n hn => ?_
    rw [hi]
    simpa [push] using hroom hr n hn
  | pushReserved hres hi _ ht hab hsl =>
    refine h.trade ht (by rw [hi]; rfl) ?_ (by rw [hi, hab]; rfl) fun n hn => ?_
    · rw [hi, hres, hsl]
      simp only [push]
      omega
    · have := h.bound n hn
      rw [hi]
      simp only [push, length_append, length_singleton]
      omega
  | reserve hi _ ht hab hsl =>
    refine h.trade ht (by rw [hi]) ?_ (by rw [hi, hab]) fun m hm => ?_
    · rw [hi, hsl]
      simp only
      omega
    · have hfree := free_eq (h.capacity.trans hm)
      have := h.bound m hm
      rw [hi]
      simp only
      omega
  | release hn hi _ ht hab hsl =>
    obtain ⟨r, w, hres, hi, -⟩ := releaseReserved_some hn hi
    refine h.trade ht (by rw [hi]) ?_ (by rw [hi, hab]) fun m hm => ?_
    · rw [hi, hsl, hres]
      simp only
      omega
    · have := h.bound m hm
      rw [hi]
      simp only
      omega
  | addSender hi _ ht =>
    refine h.trade ht (by rw [hi]; rfl) (by rw [hi]; rfl) ?_ fun m hm => ?_
    · rw [hi]
      rfl
    · rw [hi]
      exact h.bound m hm
  | dropSender hi _ ht ha hb hsl =>
    obtain ⟨n, w, hcount, hi, -⟩ := dropSender_some hi
    refine h.trade ht (by rw [hi]) (by rw [hi, hsl]) ?_ fun m hm => ?_
    · rw [hi, ha, hb, hcount]
      rfl
    · rw [hi]
      exact h.bound m hm
  | pop vs hq _ hi _ _ _ ho =>
    refine h.same (trade_eq ho) hlike (by rw [hi]) (by rw [hi]) (by rw [hi]) ?_
    rw [hi, hq, length_append]
    exact Nat.le_add_left _ _
  | shut _ hi _ ho =>
    obtain ⟨ws, hsh, -⟩ := shut_eq s.inner
    rw [hsh] at hi
    exact h.same (trade_eq ho) hlike (by rw [hi]) (by rw [hi]) (by rw [hi]) (by rw [hi])

/-- The counters are right in every run. -/
theorem accounts_run {C : List (Ev T) → Sys T → Op T → Prop} (h0 : s₀ = Sys.new c)
    (h : Run step C s₀ tr s) : Accounts c s := by
  subst h0
  exact h.inv (accounts_new c) fun _ _ _ _ _ h _ hs =>
    accounts_step h hs

/-! ## Slots and senders -/

theorem Accounts.senders_pos (h : Accounts c s) (hb : Backed s.objs) : 0 < s.senders := by
  unfold Sys.senders
  rw [countP_pos_iff]
  obtain ⟨o, ho, hsend | hbor⟩ := hb
  · exact ⟨o, ho, hsend⟩
  · obtain ⟨tx, htx⟩ := ne_none_iff_exists'.mp hbor
    exact ⟨.sender, mem_of_getElem? (h.borrow o ho tx htx), rfl⟩

theorem backed_of_slots {o : Obj T} (h : 0 < o.slots) : o.isSender = true ∨ o.borrows ≠ none := by
  cases o with
  | permit | permitIterator => exact .inr (by simp [Obj.borrows])
  | ownedPermit => exact .inl rfl
  | _ => cases h

theorem Accounts.senderCount_pos (h : Accounts c s) (hr : 0 < s.inner.reserved) :
    0 < s.inner.senderCount := by
  rw [h.senderCount]
  have hslots : s.slots ≠ 0 := by
    rw [← h.reserved]
    omega
  have hex : ∃ o ∈ s.objs, 0 < o.slots := by
    by_contra hno
    refine hslots (total_eq_zero fun o ho => ?_)
    by_contra ho'
    exact hno ⟨o, ho, Nat.pos_of_ne_zero ho'⟩
  obtain ⟨o, ho, hpos⟩ := hex
  exact h.senders_pos ⟨o, ho, backed_of_slots hpos⟩

theorem Accounts.slots_le (h : Accounts c s) {o : Obj T} (ho : o ∈ s.objs) :
    o.slots ≤ s.inner.reserved := by
  obtain ⟨j, hj⟩ := mem_iff_getElem?.mp ho
  rw [h.reserved]
  exact Lib.Arena.le_total hj

theorem releaseReserved_ne_none (h : n ≤ i.reserved) :
    releaseReserved i n ≠ none := by
  unfold releaseReserved checkedSub
  split_ifs <;> simp

theorem sendReserved_ne_none (h : 0 < i.reserved) (v : T) :
    sendReserved i v ≠ none := by
  unfold sendReserved checkedSub
  rw [if_pos (by omega)]
  simp

theorem dropSender_ne_none (h : 0 < i.senderCount) : dropSender i ≠ none := by
  unfold dropSender checkedSub
  rw [if_pos (by omega)]
  simp

/-- **Permits and senders of a bounded channel are accounted for.**  The reserved slots are those of
the live permits, the sender count is the number of live senders, queue and reserved slots are
within the capacity, and a slot that is held means a sender that is left.  So no counter underflows,
whatever live object gives up what it has: its slots, one of them for a value, or its sender. -/
theorem mpsc_permits {n : ℕ} (h0 : channel n = some s₀) (h : Run step Any s₀ tr s) :
    s.inner.reserved = s.slots ∧ s.inner.senderCount = s.senders ∧
    s.inner.capacity = some n ∧ s.inner.queue.length + s.inner.reserved ≤ n ∧
    (0 < s.inner.reserved → 0 < s.inner.senderCount) ∧
    ∀ o ∈ s.objs, releaseReserved s.inner o.slots ≠ none ∧
      (0 < o.slots → ∀ v, sendReserved s.inner v ≠ none) ∧
      (o.isSender = true → dropSender s.inner ≠ none) := by
  have hnew := channel_some h0
  have ha := accounts_run hnew h
  refine ⟨ha.reserved, ha.senderCount, ha.capacity, ha.bound n rfl, ha.senderCount_pos,
    fun o ho => ⟨releaseReserved_ne_none (ha.slots_le ho), fun hpos v => ?_, fun hsend => ?_⟩⟩
  · have hle := ha.slots_le ho
    exact sendReserved_ne_none (by omega) v
  · refine dropSender_ne_none ?_
    rw [ha.senderCount]
    exact ha.senders_pos ⟨o, ho, .inl hsend⟩

/-- Three slots are reserved, one is split off and used, one is with an owned permit. -/
theorem mpsc_permits_three : ∃ (s₀ s : Sys ℕ) (tr : List (Ev ℕ)), channel 4 = some s₀ ∧
    exec step s₀ [.clone 0, .tryReserveMany 0 2, .permitNext 2, .tryReserveOwned 1,
      .permitSend 3 7] = some (s, tr) ∧
    s.inner.reserved = 2 ∧ s.inner.senderCount = 2 ∧ s.inner.queue = [7] ∧
    s.inner.reserved = s.slots := by
  refine ⟨_, _, _, rfl, rfl, rfl, rfl, rfl, ?_⟩
  exact (mpsc_permits (n := 4) rfl (run_exec [.clone 0, .tryReserveMany 0 2, .permitNext 2,
    .tryReserveOwned 1, .permitSend 3 7] rfl)).1

end OhosFfrt.Mpsc.Permits
