import OhosFfrt.Lib.Arena
import OhosFfrt.Lib.Traces
import OhosFfrt.Barrier.System

/-!
# `sync::Barrier`: rounds

The first polls, in order, are cut into rounds of `threshold` futures each.  The generation counts
the rounds that are complete, and a future has the number of its own round (`InRounds`); the waiters
are those of the round that is still open (`Waiting`).  So a barrier works in rounds
(`barrier_rounds`).
-/

namespace OhosFfrt.Barrier.Rounds

open Basic Lib.Runs Barrier.System List Option Lib.Arena

variable {s s' : Sys} {op : Op} {es tr : List Ev} {f n k : ℕ} {fut fut' : BarrierFuture} {w : Waker}
  {st : BarrierState}

/-! ## What a step can do -/

/-- **What a step can do.** -/
inductive Moved (s : Sys) : Sys → List Ev → Prop
  | create : Moved s { s with futures := s.futures ++ [wait] } []
  | arrive {f : ℕ} {fut : BarrierFuture} {cx : Waker} (hf : s.futures[f]? = some fut)
      (hr : fut.registered = false) (hn : s.state.arrived + 1 ≠ s.threshold) :
      Moved s
        { s with
          state := ⟨s.state.generation, s.state.arrived + 1, s.state.waiters ++ [cx]⟩
          futures :=
            s.futures.set f { fut with registered := true, generation := s.state.generation } }
        [.arrived f, .pending f cx]
  | complete {f : ℕ} {fut : BarrierFuture} (hf : s.futures[f]? = some fut)
      (hr : fut.registered = false) (hn : s.state.arrived + 1 = s.threshold) :
      Moved s
        { s with
          state := ⟨(s.state.generation + 1) % 2 ^ 64, 0, []⟩
          futures :=
            s.futures.set f
              { fut with registered := true, generation := s.state.generation, leader := true } }
        (.arrived f :: s.state.waiters.map .woke ++ [.ready f true])
  | pass {f : ℕ} {fut : BarrierFuture} (hf : s.futures[f]? = some fut)
      (hr : fut.registered = true) (hg : s.state.generation ≠ fut.generation) :
      Moved s { s with futures := s.futures.set f fut } [.ready f fut.leader]
  | stay {f : ℕ} {fut : BarrierFuture} {cx : Waker} (hf : s.futures[f]? = some fut)
      (hr : fut.registered = true) (hg : s.state.generation = fut.generation) :
      Moved s
        { s with
          state := { s.state with waiters := s.state.waiters ++ [cx] }
          futures := s.futures.set f fut }
        [.pending f cx]
  | drop {f : ℕ} {fut : BarrierFuture} (hf : s.futures[f]? = some fut) :
      Moved s { s with futures := s.futures.set f { fut with live := false } } []

theorem step_moved (h : step s op = some (s', es)) : Moved s s' es := by
  have hget : ∀ {f fut}, s.future? f = some fut → s.futures[f]? = some fut := by
    intro f fut hf
    exact (filter_eq_some_iff.mp hf).1
  cases op with
  | wait =>
    cases h
    exact .create
  | poll f cx =>
    obtain ⟨fut, hf, ⟨⟩⟩ := map_eq_some_iff.mp h
    rcases hr : fut.registered with _ | _
    · by_cases hn : s.state.arrived + 1 = s.threshold
      · simp only [poll, hr, hn, Bool.not_false, if_true, Bool.false_eq_true, if_false]
        exact .complete (hget hf) hr hn
      · simp only [poll, hr, hn, Bool.not_false, if_true, Bool.false_eq_true, if_false]
        exact .arrive (hget hf) hr hn
    · by_cases hg : s.state.generation = fut.generation
      · have he : poll s.threshold s.state fut cx =
            ⟨none, fut, { s.state with waiters := s.state.waiters ++ [cx] }, []⟩ := by
          simp [poll, hr, hg]
        rw [he]
        exact .stay (hget hf) hr hg
      · simp only [poll, hr, hg, Bool.not_true, if_true, Bool.false_eq_true, if_false, ne_eq,
          not_false_eq_true]
        exact .pass (hget hf) hr hg
  | dropFuture =>
    obtain ⟨fut, hf, ⟨⟩⟩ := map_eq_some_iff.mp h
    exact .drop (hget hf)

/-! ## Arrivals -/

theorem arrivals_append (tr es : List Ev) : arrivals (tr ++ es) = arrivals tr ++ arrivals es :=
  filterMap_append

theorem arrivals_snoc (tr : List Ev) (f : ℕ) (es : List Ev) (h : arrivals es = []) :
    arrivals (tr ++ .arrived f :: es) = arrivals tr ++ [f] := by
  rw [arrivals_append]
  exact congrArg (arrivals tr ++ f :: ·) h

theorem arrivals_wakes (ws : List Waker) (x : Ev) (hx : ∀ f, x ≠ .arrived f) :
    arrivals (ws.map .woke ++ [x]) = [] := by
  refine filterMap_eq_nil_iff.mpr fun y hy => ?_
  rcases mem_append.mp hy with hy | hy
  · obtain ⟨w, -, rfl⟩ := mem_map.mp hy
    rfl
  · rw [mem_singleton] at hy
    subst hy
    rcases y with f | _ | _ | _
    · exact absurd rfl (hx f)
    all_goals rfl

theorem next_round (hn : 0 < n) (len : ℕ) :
    (len % n + 1 = n → (len + 1) / n = len / n + 1 ∧ (len + 1) % n = 0) ∧
    (len % n + 1 ≠ n → (len + 1) / n = len / n ∧ (len + 1) % n = len % n + 1) := by
  have hdiv := Nat.div_add_mod len n
  have hlt := Nat.mod_lt len hn
  refine ⟨fun h => ?_, fun h => ?_⟩
  · refine (Nat.div_mod_unique hn).mpr ⟨?_, hn⟩
    rw [Nat.mul_add]
    omega
  · refine (Nat.div_mod_unique hn).mpr ⟨?_, ?_⟩
    · omega
    · omega

theorem dvd_succ_iff (hn : 0 < n) (k : ℕ) : n ∣ k + 1 ↔ k % n + 1 = n := by
  rw [Nat.dvd_iff_mod_eq_zero]
  obtain ⟨h1, h2⟩ := next_round hn k
  constructor
  · intro h
    by_contra hne
    have := (h2 hne).2
    omega
  · intro h
    exact (h1 h).2

theorem last_iff (hn : 0 < n) (k : ℕ) : k + 1 = (k / n + 1) * n ↔ n ∣ k + 1 := by
  have hdiv := Nat.div_add_mod k n
  rw [dvd_succ_iff hn, Nat.add_mul, Nat.one_mul, Nat.mul_comm]
  omega

/-- **The rounds** of a run with the trace `tr`, each of `n` futures. -/
structure InRounds (n : ℕ) (tr : List Ev) (s : Sys) : Prop where
  threshold : s.threshold = n
  nodup : (arrivals tr).Nodup
  arrived : s.state.arrived = (arrivals tr).length % n
  generation : s.state.generation = (arrivals tr).length / n % 2 ^ 64
  /-- A future that arrived has the number of its round and knows whether it was the last. -/
  place : ∀ k f, (arrivals tr)[k]? = some f → ∃ fut, s.futures[f]? = some fut ∧
    fut.registered = true ∧ fut.generation = k / n % 2 ^ 64 ∧ (fut.leader = true ↔ n ∣ k + 1)
  registered : ∀ (f : ℕ) (fut : BarrierFuture), s.futures[f]? = some fut → fut.registered = true →
    f ∈ arrivals tr
  leader : ∀ (f : ℕ) (fut : BarrierFuture), s.futures[f]? = some fut → fut.registered = false →
    fut.leader = false

theorem rounds_new (n : ℕ) : InRounds (new n).threshold [] (new n) where
  threshold := rfl
  nodup := nodup_nil
  arrived := (Nat.zero_mod _).symm
  generation := by simp [arrivals, new]
  place k f h := by simp [arrivals] at h
  registered f fut h := by simp [new] at h
  leader f fut h := by simp [new] at h

theorem InRounds.same (h : InRounds n tr s) (ha : arrivals es = [])
    (ht : s'.threshold = s.threshold)
    (hst : s'.state.arrived = s.state.arrived ∧ s'.state.generation = s.state.generation)
    (hold : ∀ (f : ℕ) (fut : BarrierFuture), s.futures[f]? = some fut → ∃ fut',
      s'.futures[f]? = some fut' ∧ fut'.registered = fut.registered ∧
      fut'.generation = fut.generation ∧ fut'.leader = fut.leader)
    (hnew : ∀ (f : ℕ) (fut' : BarrierFuture), s'.futures[f]? = some fut' → fut' = wait ∨ ∃ fut,
      s.futures[f]? = some fut ∧ fut'.registered = fut.registered ∧ fut'.leader = fut.leader) :
    InRounds n (tr ++ es) s' := by
  have harr : arrivals (tr ++ es) = arrivals tr := by
    rw [arrivals_append, ha, append_nil]
  refine ⟨ht.trans h.threshold, ?_, ?_, ?_, ?_, ?_, ?_⟩
  · rw [harr]
    exact h.nodup
  · rw [harr, hst.1]
    exact h.arrived
  · rw [harr, hst.2]
    exact h.generation
  · intro k f hk
    rw [harr] at hk
    obtain ⟨fut, hf, hr, hg, hl⟩ := h.place k f hk
    obtain ⟨fut', hf', hr', hg', hl'⟩ := hold f fut hf
    exact ⟨fut', hf', hr'.trans hr, hg'.trans hg, by rw [hl']; exact hl⟩
  · intro f fut' hf' hr'
    rw [harr]
    rcases hnew f fut' hf' with rfl | ⟨fut, hf, hr, -⟩
    · cases hr'
    · exact h.registered f fut hf (hr.symm.trans hr')
  · intro f fut' hf' hr'
    rcases hnew f fut' hf' with rfl | ⟨fut, hf, hr, hl⟩
    · rfl
    · exact hl.trans (h.leader f fut hf (hr.symm.trans hr'))

theorem InRounds.fresh (h : InRounds n tr s) (hf : s.futures[f]? = some fut)
    (hr : fut.registered = false) : f ∉ arrivals tr := by
  intro hmem
  obtain ⟨k, hk⟩ := mem_iff_getElem?.mp hmem
  obtain ⟨fut', hf', hr', -⟩ := h.place k f hk
  rw [hf, some.injEq] at hf'
  rw [← hf', hr] at hr'
  cases hr'

theorem InRounds.arrives (hn : 0 < n)
    (h : InRounds n tr s) (hf : s.futures[f]? = some fut) (hr : fut.registered = false)
    (ha : arrivals es = []) (hr' : fut'.registered = true)
    (hg' : fut'.generation = s.state.generation)
    (hl' : fut'.leader = true ↔ s.state.arrived + 1 = n)
    (hst : st.arrived = if s.state.arrived + 1 = n then 0 else s.state.arrived + 1)
    (hgen : st.generation =
      if s.state.arrived + 1 = n then (s.state.generation + 1) % 2 ^ 64 else s.state.generation) :
    InRounds n (tr ++ .arrived f :: es)
      { s with state := st, futures := s.futures.set f fut' } := by
  have harr := arrivals_snoc tr f es ha
  have hlt : f < s.futures.length := lt_length hf
  have hfresh : f ∉ arrivals tr := h.fresh hf hr
  obtain ⟨hlast, hopen⟩ := next_round hn (arrivals tr).length
  rw [h.arrived] at hl' hst hgen
  refine ⟨h.threshold, ?_, ?_, ?_, ?_, ?_, ?_⟩
  · rw [harr]
    refine nodup_append.mpr ⟨h.nodup, pairwise_singleton _ f, fun a ha b hb => ?_⟩
    rw [mem_singleton] at hb
    rintro rfl
    exact hfresh (hb ▸ ha)
  · rw [harr, length_append, length_singleton]
    change st.arrived = _
    rw [hst]
    split_ifs with hlen
    · exact (hlast hlen).2.symm
    · exact (hopen hlen).2.symm
  · rw [harr, length_append, length_singleton]
    change st.generation = _
    rw [hgen, h.generation]
    split_ifs with hlen
    · rw [(hlast hlen).1]
      exact Nat.mod_add_mod _ _ _
    · rw [(hopen hlen).1]
  · intro k g hk
    rw [harr, getElem?_append] at hk
    split_ifs at hk with hlen
    · have hgf : f ≠ g := by
        rintro rfl
        exact hfresh (mem_of_getElem? hk)
      obtain ⟨fut1, hf1, hrest⟩ := h.place k g hk
      refine ⟨fut1, ?_, hrest⟩
      rw [← hf1]
      exact getElem?_set_ne hgf
    · obtain ⟨hk0, hg⟩ := List.getElem?_eq_some_iff.mp hk
      rw [length_singleton] at hk0
      have hkeq : k = (arrivals tr).length := by omega
      have hgeq : g = f := by
        rw [← hg]
        exact getElem_singleton ..
      subst hkeq hgeq
      refine ⟨fut', getElem?_set_self hlt, hr', hg'.trans h.generation, ?_⟩
      rw [hl', dvd_succ_iff hn]
  · intro g fut1 hg hr1
    rw [harr, mem_append]
    rcases of_set hf hg with ⟨rfl, -⟩ | ⟨-, hold⟩
    · exact .inr (mem_singleton_self _)
    · exact .inl (h.registered g fut1 hold hr1)
  · intro g fut1 hg hr1
    rcases of_set hf hg with ⟨-, rfl⟩ | ⟨-, hold⟩
    · rw [hr'] at hr1
      cases hr1
    · exact h.leader g fut1 hold hr1

theorem InRounds.touched (h : InRounds n tr s)
    (hf : s.futures[f]? = some fut) (ha : arrivals es = [])
    (hst : st.arrived = s.state.arrived ∧ st.generation = s.state.generation)
    (hfut : fut'.registered = fut.registered ∧ fut'.generation = fut.generation ∧
      fut'.leader = fut.leader) :
    InRounds n (tr ++ es) { s with state := st, futures := s.futures.set f fut' } := by
  have hlt : f < s.futures.length := lt_length hf
  refine h.same ha rfl hst (fun g fut1 hg => ?_) fun g fut1 hg => ?_
  · by_cases hgf : g = f
    · subst hgf
      rw [hf] at hg
      cases hg
      exact ⟨fut', getElem?_set_self hlt, hfut⟩
    · exact ⟨fut1, (getElem?_set_ne (Ne.symm hgf)).trans hg, rfl, rfl, rfl⟩
  · right
    rcases of_set hf hg with ⟨rfl, rfl⟩ | ⟨-, hold⟩
    · exact ⟨fut, hf, hfut.1, hfut.2.2⟩
    · exact ⟨fut1, hold, rfl, rfl⟩

theorem inRounds_step (hn : 0 < n) (h : InRounds n tr s) (hs : step s op = some (s', es)) :
    InRounds n (tr ++ es) s' := by
  cases step_moved hs with
  | create =>
    refine h.same rfl rfl ⟨rfl, rfl⟩ (fun g fut1 hg => ?_) fun g fut1 hg => ?_
    · exact ⟨fut1, get_append hg _, rfl, rfl, rfl⟩
    · change (s.futures ++ [wait])[g]? = _ at hg
      rw [getElem?_append] at hg
      split_ifs at hg with hlt
      · exact .inr ⟨fut1, hg, rfl, rfl⟩
      · exact .inl (mem_singleton.mp (mem_of_getElem? hg))
  | @arrive f fut cx hf hr hopen =>
    rw [h.threshold] at hopen
    refine h.arrives hn hf hr rfl rfl rfl ?_ ?_ ?_
    · have hl := h.leader f fut hf hr
      simp [hl, hopen]
    · rw [if_neg hopen]
    · rw [if_neg hopen]
  | complete hf hr hlast =>
    rw [h.threshold] at hlast
    refine h.arrives hn hf hr (arrivals_wakes _ _ (by simp)) rfl rfl ?_ ?_ ?_
    · simp [hlast]
    · rw [if_pos hlast]
    · rw [if_pos hlast]
  | pass hf | stay hf | drop hf => exact h.touched hf rfl ⟨rfl, rfl⟩ ⟨rfl, rfl, rfl⟩

theorem threshold_new (n : ℕ) : (new n).threshold = max n 1 := by
  simp only [new]
  split_ifs with h
  · rw [h]
    rfl
  · omega

/-- Every run is cut into rounds. -/
theorem inRounds_run {C : List Ev → Sys → Op → Prop} (h : Run step C (new n) tr s) :
    InRounds (max n 1) tr s := by
  have h0 := rounds_new n
  rw [threshold_new] at h0
  have hpos : 0 < max n 1 := by omega
  exact h.inv h0 fun _ _ _ _ _ hI _ hs => inRounds_step hpos hI hs

/-! ## Who is ready, and who leads -/

/-- The round of the place `k` is complete after `len` arrivals. -/
def Complete (n k len : ℕ) : Prop := (k / n + 1) * n ≤ len

instance : Decidable (Complete n k f) := inferInstanceAs (Decidable (_ ≤ _))

theorem complete_iff (hn : 0 < n) (len : ℕ) : Complete n k len ↔ k / n < len / n := by
  unfold Complete
  rw [← Nat.le_div_iff_mul_le hn]
  exact Nat.succ_le_iff

/-- **An event of a poll is right**: only a future whose round is complete is ready, and it is the
leader iff it was the last one of its round. -/
def Right (n : ℕ) (tr : List Ev) (x : Ev) : Prop :=
  ∀ f b, x = .ready f b → ∃ k, (arrivals tr)[k]? = some f ∧ Complete n k (arrivals tr).length ∧
    (b = true ↔ n ∣ k + 1)

theorem right_complete (hn : 0 < n) (h : InRounds n tr s) (hlast : s.state.arrived + 1 = n)
    (ha : arrivals es = []) : Right n (tr ++ .arrived f :: es) (.ready f true) := by
  rintro g b hx
  cases hx
  rw [h.arrived] at hlast
  rw [arrivals_snoc _ _ _ ha, length_append, length_singleton]
  refine ⟨(arrivals tr).length, getElem?_concat_length, ?_, ?_⟩
  · rw [complete_iff hn, ((next_round hn _).1 hlast).1]
    exact Nat.lt_succ_self _
  · rw [dvd_succ_iff hn]
    exact ⟨fun _ => hlast, fun _ => rfl⟩

theorem right_pass (hn : 0 < n) (h : InRounds n tr s) (hf : s.futures[f]? = some fut)
    (hr : fut.registered = true) (hg : s.state.generation ≠ fut.generation) :
    Right n tr (.ready f fut.leader) := by
  rintro g b hx
  cases hx
  obtain ⟨k, hk⟩ := mem_iff_getElem?.mp (h.registered f fut hf hr)
  obtain ⟨fut1, hf1, -, hgen, hl⟩ := h.place k f hk
  rw [hf] at hf1
  cases hf1
  refine ⟨k, hk, ?_, hl⟩
  have hne : (arrivals tr).length / n ≠ k / n := by
    intro heq
    rw [h.generation, hgen, heq] at hg
    exact hg rfl
  have hle : k / n ≤ (arrivals tr).length / n :=
    Nat.div_le_div_right (Nat.le_of_lt (lt_length hk))
  rw [complete_iff hn]
  omega

theorem right_step (hn : 0 < n) (h : InRounds n tr s) (he : Each (Right n) tr)
    (hs : step s op = some (s', es)) : Each (Right n) (tr ++ es) := by
  refine he.append fun l x r heq => ?_
  have hother : ∀ g cx, Right n (tr ++ l) (.pending g cx) := by
    rintro g cx f b hx
    cases hx
  have hmem : x ∈ es := by
    rw [heq]
    exact mem_append_right _ (mem_cons_self ..)
  cases step_moved hs with
  | create | drop => cases hmem
  | @arrive f fut cx =>
    rcases mem_cons.mp hmem with rfl | hmem
    · rintro g b hx
      cases hx
    · rw [mem_singleton] at hmem
      subst hmem
      exact hother f cx
  | stay =>
    rw [mem_singleton] at hmem
    subst hmem
    exact hother _ _
  | pass hf hr hg =>
    obtain ⟨rfl, rfl⟩ := split_singleton heq
    rw [append_nil]
    exact right_pass hn h hf hr hg
  | @complete f fut hf hr hlast =>
    rw [h.threshold] at hlast
    have hnone := arrivals_wakes s.state.waiters (.ready f true) (by simp)
    rintro g b rfl
    rcases l with _ | ⟨y, l⟩
    · cases heq
    · rw [cons_append, cons_append, List.cons.injEq] at heq
      obtain ⟨rfl, heq⟩ := heq
      rw [heq, arrivals_append, append_eq_nil_iff] at hnone
      have hlast' : Ev.ready g b = .ready f true := by
        have hin : Ev.ready g b ∈ s.state.waiters.map Ev.woke ++ [.ready f true] := by
          rw [heq]
          exact mem_append_right _ (mem_cons_self ..)
        rcases mem_append.mp hin with hin | hin
        · obtain ⟨w, -, hw⟩ := mem_map.mp hin
          cases hw
        · exact mem_singleton.mp hin
      exact right_complete hn h hlast hnone.1 g b hlast'.symm

/-- **Every complete round has its leader.** -/
def Led (n : ℕ) (tr : List Ev) : Prop :=
  ∀ k f, (arrivals tr)[k]? = some f → n ∣ k + 1 → .ready f true ∈ tr

theorem led_step (hn : 0 < n) (h : InRounds n tr s) (hl : Led n tr)
    (hs : step s op = some (s', es)) : Led n (tr ++ es) := by
  have hsame : arrivals es = [] → Led n (tr ++ es) := by
    intro ha k f hk hd
    rw [arrivals_append, ha, append_nil] at hk
    exact mem_append_left _ (hl k f hk hd)
  -- the new place is the last of a round iff the round is complete now
  have hnew : ∀ {g es}, arrivals es = [] → (n ∣ (arrivals tr).length + 1 → .ready g true ∈ es) →
      Led n (tr ++ .arrived g :: es) := by
    intro g es ha hg k f hk hd
    rw [arrivals_snoc _ _ _ ha, getElem?_append] at hk
    split_ifs at hk with hlt
    · exact mem_append_left _ (hl k f hk hd)
    · have hlen := lt_length hk
      rw [length_singleton] at hlen
      have hkeq : k = (arrivals tr).length := by omega
      have hfeq : f = g := mem_singleton.mp (mem_of_getElem? hk)
      subst hkeq hfeq
      exact mem_append_right _ (mem_cons_of_mem _ (hg hd))
  cases step_moved hs with
  | create | pass | stay | drop => exact hsame rfl
  | arrive _ _ hopen =>
    refine hnew rfl fun hd => ?_
    rw [dvd_succ_iff hn, ← h.arrived] at hd
    rw [h.threshold] at hopen
    exact absurd hd hopen
  | complete =>
    exact hnew (arrivals_wakes _ _ (by simp)) fun _ =>
      mem_append_right _ (mem_singleton_self _)

/-! ## Who waits -/

/-- The future `f` left the waker `w`, and its round is open. -/
def Waiting (f : ℕ) (w : Waker) (s : Sys) : Prop :=
  w ∈ s.state.waiters ∧ ∃ fut, s.futures[f]? = some fut ∧ fut.registered = true ∧
    fut.generation = s.state.generation

theorem waiting_of_pending (hs : step s op = some (s', es)) (hp : .pending f w ∈ es) :
    Waiting f w s' := by
  cases step_moved hs with
  | create | drop => cases hp
  | pass => simp at hp
  | arrive hf =>
    simp only [mem_cons, reduceCtorEq, Ev.pending.injEq, not_mem_nil, or_false,
      false_or] at hp
    obtain ⟨rfl, rfl⟩ := hp
    have hlt : f < s.futures.length := lt_length hf
    exact ⟨mem_append_right _ (mem_singleton_self _), _, getElem?_set_self hlt, rfl,
      rfl⟩
  | @stay g fut cx hf hr hg =>
    simp only [mem_singleton, Ev.pending.injEq] at hp
    obtain ⟨rfl, rfl⟩ := hp
    have hlt : f < s.futures.length := lt_length hf
    exact ⟨mem_append_right _ (mem_singleton_self _), fut, getElem?_set_self hlt, hr,
      hg.symm⟩
  | complete =>
    rcases mem_append.mp hp with hp | hp
    · rcases mem_cons.mp hp with hp | hp
      · cases hp
      · obtain ⟨w', -, hw'⟩ := mem_map.mp hp
        cases hw'
    · simp at hp

theorem waiting_step (hs : step s op = some (s', es)) (h : Waiting f w s)
    (hes : ∀ y ∈ es, y ≠ .woke w) : Waiting f w s' := by
  obtain ⟨hw, fut, hf, hr, hg⟩ := h
  have hlt : f < s.futures.length := lt_length hf
  -- replacing a future by one that keeps its round, or one that was not registered
  have hset : ∀ {g fut1 fut2}, s.futures[g]? = some fut1 →
      (fut1.registered = true → fut2.registered = true ∧ fut2.generation = fut1.generation) →
      ∃ fut, (s.futures.set g fut2)[f]? = some fut ∧ fut.registered = true ∧
        fut.generation = s.state.generation := by
    intro g fut1 fut2 hg1 hkeep
    by_cases hgf : g = f
    · subst hgf
      rw [hf] at hg1
      cases hg1
      obtain ⟨h1, h2⟩ := hkeep hr
      exact ⟨fut2, getElem?_set_self hlt, h1, h2.trans hg⟩
    · exact ⟨fut, (getElem?_set_ne hgf).trans hf, hr, hg⟩
  cases step_moved hs with
  | create => exact ⟨hw, fut, (getElem?_append_left hlt).trans hf, hr, hg⟩
  | arrive hg1 hr1 =>
    refine ⟨mem_append_left _ hw, hset hg1 fun h1 => ?_⟩
    rw [hr1] at h1
    cases h1
  | complete =>
    refine absurd rfl (hes (.woke w) ?_)
    exact mem_append_left _ (mem_cons_of_mem _ (mem_map_of_mem hw))
  | pass hg1 | drop hg1 => exact ⟨hw, hset hg1 fun h1 => ⟨h1, rfl⟩⟩
  | stay hg1 => exact ⟨mem_append_left _ hw, hset hg1 fun h1 => ⟨h1, rfl⟩⟩

/-- Before the generations repeat, a future has the current one iff its round is open. -/
theorem InRounds.generation_iff (hn : 0 < n) (h : InRounds n tr s)
    (hlt : (arrivals tr).length / n < 2 ^ 64) (hk : (arrivals tr)[k]? = some f)
    (hf : s.futures[f]? = some fut) :
    s.state.generation = fut.generation ↔ ¬ Complete n k (arrivals tr).length := by
  obtain ⟨fut1, hf1, -, hgen, -⟩ := h.place k f hk
  rw [hf] at hf1
  cases hf1
  have hle : k / n ≤ (arrivals tr).length / n :=
    Nat.div_le_div_right (Nat.le_of_lt (lt_length hk))
  rw [complete_iff hn, h.generation, hgen, Nat.mod_eq_of_lt hlt, Nat.mod_eq_of_lt (by omega)]
  omega

/-- **A barrier works in rounds.**  The futures that arrive, in the order of their first polls, each
of them once, form rounds of `n` (of one, if `n` is zero).  A future is ready only when its round is
complete, and of a complete round exactly the future that arrived last reports to be the leader.
With fewer than `2 ^ 64` rounds, once a round is complete all its futures are ready at their next
poll, and every waker that one of them had left was woken. -/
theorem barrier_rounds (n : ℕ) (h : Run step Any (new n) tr s) :
    (arrivals tr).Nodup ∧
    (∀ l f b r, tr = l ++ .ready f b :: r →
      ∃ k, (arrivals l)[k]? = some f ∧ Complete (max n 1) k (arrivals l).length) ∧
    (∀ k f, (arrivals tr)[k]? = some f → Complete (max n 1) k (arrivals tr).length →
      (.ready f true ∈ tr ↔ k + 1 = (k / max n 1 + 1) * max n 1)) ∧
    ((arrivals tr).length / max n 1 < 2 ^ 64 → ∀ k f, (arrivals tr)[k]? = some f →
      Complete (max n 1) k (arrivals tr).length →
      (∀ fut cx, s.future? f = some fut →
        ∃ leader, (poll s.threshold s.state fut cx).result = some leader) ∧
      ∀ w, ¬ Since (· = .pending f w) (· = .woke w) tr) := by
  have hpos : 0 < max n 1 := by omega
  have hin := inRounds_run h
  have ha := h.along fun _ _ => inRounds_run
  have hright : Each (Right (max n 1)) tr :=
    ha.inv each_nil
      fun _ _ _ _ _ hI hC hs => right_step hpos hC.2 hI hs
  have hled : Led (max n 1) tr := by
    refine ha.inv ?_
      fun _ _ _ _ _ hI hC hs => led_step hpos hC.2 hI hs
    intro k f hk
    cases hk
  refine ⟨hin.nodup, ?_, ?_, ?_⟩
  · intro l f b r heq
    obtain ⟨k, hk, hc, -⟩ := hright l _ r heq f b rfl
    exact ⟨k, hk, hc⟩
  · intro k f hk hc
    rw [last_iff hpos]
    refine ⟨fun hmem => ?_, hled k f hk⟩
    obtain ⟨l, r, rfl⟩ := append_of_mem hmem
    obtain ⟨k', hk', -, hb⟩ := hright l _ r rfl f true rfl
    have hsame : (arrivals (l ++ .ready f true :: r))[k']? = some f := by
      rw [arrivals_append]
      exact get_append hk' _
    have heq : k = k' := (List.getElem?_inj (lt_length hk) hin.nodup).mp
      (hk.trans hsame.symm)
    rw [heq]
    exact hb.mp rfl
  · intro hlt k f hk hc
    refine ⟨fun fut cx hf => ?_, fun w hsince => ?_⟩
    · have hget := (filter_eq_some_iff.mp hf).1
      obtain ⟨fut1, hf1, hr, -⟩ := hin.place k f hk
      rw [hget] at hf1
      cases hf1
      have hne : s.state.generation ≠ fut.generation :=
        fun hg => (hin.generation_iff hpos hlt hk hget).mp hg hc
      exact ⟨fut.leader, by simp [poll, hr, hne]⟩
    · have hwait : Waiting f w s := by
        refine h.since (K := Waiting f w) ?_ ?_ hsince
        · rintro tr s i s' es x - hs hx rfl
          exact waiting_of_pending hs hx
        · intro tr s i s' es _ hs hK hes
          exact waiting_step hs hK hes
      obtain ⟨-, fut, hf, -, hg⟩ := hwait
      exact (hin.generation_iff hpos hlt hk hf).mp hg.symm hc

/-- Of two futures the second one leads; both are gone when the next round begins. -/
theorem barrier_rounds_two : ∃ s tr,
    exec step (new 2) [.wait, .wait, .wait, .poll 1 7, .poll 1 8, .poll 0 9, .dropFuture 0,
      .poll 2 9] = some (s, tr) ∧
    tr = [.arrived 1, .pending 1 7, .pending 1 8, .arrived 0, .woke 7, .woke 8, .ready 0 true,
      .arrived 2, .pending 2 9] ∧
    ¬ Since (· = .pending 1 8) (· = .woke 8) tr := by
  refine ⟨_, _, rfl, rfl, ?_⟩
  have h := run_exec [.wait, .wait, .wait, .poll 1 7, .poll 1 8, .poll 0 9, .dropFuture 0,
    .poll 2 9] (show exec step (new 2) _ = some _ from rfl)
  exact ((barrier_rounds 2 h).2.2.2 (by decide) 0 1 rfl (by decide)).2 8

end OhosFfrt.Barrier.Rounds
