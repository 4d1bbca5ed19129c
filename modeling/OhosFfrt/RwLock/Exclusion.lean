import OhosFfrt.RwLock.Moves

/-!
# `sync::RwLock`: the counters count the guards

`writer` and `readers` of the state are the numbers of live write and read guards, the two do not
meet, and every guard carries the release function of its sort (`Excl`).
-/

namespace OhosFfrt.RwLock.Exclusion

open Basic Lib.Runs Lib.WaitQueue List Option
open RwLock.State RwLock.System RwLock.Moves
open Lib.Arena (countP_set get_set)

/-- The guard carries the release function of its sort. -/
def sound : Guard → Bool
  | .readGuard .write | .mappedWriteGuard .read => false
  | _ => true

/-- **The counters count the guards.** -/
structure Excl (s : Sys) : Prop where
  writers : s.writeGuards = s.state.writer.toNat
  readers : s.readGuards = s.state.readers
  apart : s.state.writer = true → s.state.readers = 0
  tags : ∀ gd ∈ s.guards, sound gd = true

variable {s₀ s s' : Sys} {op : Op} {es tr : List Ev} {g m : ℕ} {gd gd' : Guard} {cx : Waker}
  {kind : RwLockWaiterKind} {st : RwLockState}

theorem isRead_of_release (hs : sound gd = true) (h : gd.release? = some .read) :
    gd.isRead = true ∧ gd.isWrite = false := by
  cases gd with
  | mappedWriteGuard r => cases r <;> simp_all [sound, Guard.release?]
  | _ => simp_all [Guard.release?, Guard.isRead, Guard.isWrite]

theorem isWrite_of_release (hs : sound gd = true) (h : gd.release? = some .write) :
    gd.isRead = false ∧ gd.isWrite = true := by
  cases gd with
  | readGuard r => cases r <;> simp_all [sound, Guard.release?]
  | _ => simp_all [Guard.release?, Guard.isRead, Guard.isWrite]

theorem mapped_sort (hs : sound gd = true) (h : gd.mapped = some gd') :
    gd'.isRead = gd.isRead ∧ gd'.isWrite = gd.isWrite ∧ sound gd' = true := by
  cases gd <;> simp only [Guard.mapped, some.injEq, reduceCtorEq] at h <;> subst h <;>
    first | exact ⟨rfl, rfl, rfl⟩ | exact ⟨rfl, rfl, hs⟩

theorem downgraded_sort (h : gd.downgraded = some gd') :
    gd.isRead = false ∧ gd.isWrite = true ∧ gd'.isRead = true ∧ gd'.isWrite = false ∧
      sound gd' = true := by
  cases gd <;> simp only [Guard.downgraded, some.injEq, reduceCtorEq] at h <;> subst h <;>
    exact ⟨rfl, rfl, rfl, rfl, rfl⟩

theorem Excl.same (h : Excl s) (hg : s'.guards = s.guards) (hr : s'.state.readers = s.state.readers)
    (hw : s'.state.writer = s.state.writer) : Excl s' := by
  refine ⟨?_, ?_, by rw [hr, hw]; exact h.apart, by rw [hg]; exact h.tags⟩
  · unfold Sys.writeGuards; rw [hg, hw]; exact h.writers
  · unfold Sys.readGuards; rw [hg, hr]; exact h.readers

theorem Excl.acquire {kind : RwLockWaiterKind} {owned : Bool} (h : Excl s)
    (hw : s.state.writer = false) (hk : kind = .write → s.state.readers = 0)
    (hg : s'.guards = s.guards ++ [newGuard kind owned])
    (hr' : s'.state.readers = (acquire s.state kind).readers)
    (hw' : s'.state.writer = (acquire s.state kind).writer) : Excl s' := by
  have h1 := h.writers
  have h2 := h.readers
  rw [hw, Bool.toNat_false] at h1
  unfold Sys.writeGuards at h1
  unfold Sys.readGuards at h2
  have htags : ∀ gd ∈ s'.guards, sound gd = true := by
    intro gd hgd
    rw [hg, mem_append, mem_singleton] at hgd
    rcases hgd with hgd | rfl
    · exact h.tags gd hgd
    · cases kind <;> cases owned <;> rfl
  refine ⟨?_, ?_, fun hc => ?_, htags⟩
  · rw [hw', Sys.writeGuards, hg, countP_append, h1]
    cases kind <;> cases owned <;> simp [State.acquire, hw, newGuard, Guard.isWrite]
  · rw [hr', Sys.readGuards, hg, countP_append, h2]
    cases kind <;> cases owned <;> rfl
  · rw [hw'] at hc
    rw [hr']
    cases kind with
    | read => exact absurd (hw.symm.trans hc) (by decide)
    | write => exact hk rfl

theorem Excl.set {g : ℕ} {gd gd' : Guard} (h : Excl s) (hg : s.guards[g]? = some gd)
    (hs : sound gd' = true) (hg' : s'.guards = s.guards.set g gd')
    (hw : s'.state.writer.toNat + gd.isWrite.toNat = s.state.writer.toNat + gd'.isWrite.toNat)
    (hr : s'.state.readers + gd.isRead.toNat = s.state.readers + gd'.isRead.toNat)
    (ha : s'.state.writer = true → s'.state.readers = 0) : Excl s' := by
  have h1 := countP_set (p := Guard.isWrite) (b := gd') hg
  have h2 := countP_set (p := Guard.isRead) (b := gd') hg
  have h3 := h.writers
  have h4 := h.readers
  unfold Sys.writeGuards at h3
  unfold Sys.readGuards at h4
  refine ⟨?_, ?_, ha, ?_⟩
  · unfold Sys.writeGuards; rw [hg']; omega
  · unfold Sys.readGuards; rw [hg']; omega
  · intro gd1 h5
    rw [hg'] at h5
    rcases mem_or_eq_of_mem_set h5 with h5 | rfl
    · exact h.tags gd1 h5
    · exact hs

theorem Excl.writer {g : ℕ} {gd : Guard} (h : Excl s) (hg : s.guards[g]? = some gd)
    (hw : gd.isWrite = true) : s.state.writer = true := by
  have hpos : 1 ≤ s.writeGuards := countP_pos_iff.mpr ⟨gd, mem_of_getElem? hg, hw⟩
  have := h.writers
  by_contra hc
  rw [Bool.not_eq_true] at hc
  rw [hc, Bool.toNat_false] at this
  omega

theorem canAcquire_iff (h : canAcquire st kind = true) :
    st.writer = false ∧ (kind = .write → st.readers = 0) ∧
      (kind = .read → st.readers < st.maxReaders) := by
  cases kind <;> simp_all [canAcquire]

theorem excl_poll {f : ℕ} {fut : LockFuture} (h : Excl s) :
    Excl (polledSys s f fut (pollLock s.state fut.waiter fut.kind cx)) := by
  rcases pollLock_cases s.state fut.waiter fut.kind cx with
    ⟨-, -, hc, he⟩ | ⟨-, -, he⟩ | ⟨e, q, -, -, hc, he⟩ | ⟨id, p, -, -, -, he⟩ <;> rw [he]
  · obtain ⟨h1, h2, -⟩ := canAcquire_iff hc
    exact h.acquire h1 h2 rfl rfl rfl
  · exact h.same rfl rfl rfl
  · obtain ⟨h1, h2, -⟩ := canAcquire_iff hc
    refine h.acquire h1 h2 rfl ?_ ?_ <;> unfold polledSys popAcquire <;>
      cases fut.kind <;> rfl
  · exact h.same rfl rfl rfl

theorem cancelWaiter_counters (st : RwLockState) (w : Option ℕ) :
    (cancelWaiter st w).1.readers = st.readers ∧ (cancelWaiter st w).1.writer = st.writer ∧
      (cancelWaiter st w).1.maxReaders = st.maxReaders := by
  rw [cancelWaiter_eq]
  exact ⟨rfl, rfl, rfl⟩

theorem excl_step (h : Excl s)
    (hs : step s op = some (s', es)) : Excl s' := by
  cases step_moved hs with
  | create => exact h.same rfl rfl rfl
  | poll => exact excl_poll h
  | cancel =>
    obtain ⟨h1, h2, -⟩ := cancelWaiter_counters s.state _
    exact h.same rfl h1 h2
  | refuse => exact h
  | barge hq hw hr => exact h.acquire hw hr rfl rfl rfl
  | dropRead hg hr =>
    obtain ⟨h1, h2⟩ := isRead_of_release (h.tags _ (mem_of_getElem? hg)) hr
    refine h.set hg rfl rfl (by rw [h2]; rfl) (by rw [h1]; simp [Guard.isRead]; omega) fun hw => ?_
    have := h.apart hw
    omega
  | dropWrite hg hr =>
    obtain ⟨h1, h2⟩ := isWrite_of_release (h.tags _ (mem_of_getElem? hg)) hr
    have hw := h.writer hg h2
    refine h.set hg rfl rfl (by rw [h2, hw]; rfl) (by rw [h1]; rfl) fun hc => ?_
    simp [releaseWrite] at hc
  | map hg hm =>
    obtain ⟨h1, h2, h3⟩ := mapped_sort (h.tags _ (mem_of_getElem? hg)) hm
    exact h.set hg h3 rfl (by rw [h2]) (by rw [h1]) h.apart
  | downgrade hg hm =>
    obtain ⟨h1, h2, h3, h4, h5⟩ := downgraded_sort hm
    have hw := h.writer hg h2
    refine h.set hg h5 rfl (by rw [h2, h4, hw]; rfl) (by rw [h1, h3]; rfl) fun hc => ?_
    simp [downgradeWrite] at hc

theorem excl_init (h0 : withMaxReaders m = some s₀) :
    Excl s₀ ∧ s₀.state.maxReaders = m ∧ 0 < m ∧ s₀.state.readers = 0 := by
  unfold withMaxReaders constWithMaxReaders at h0
  split_ifs at h0 with hm
  · simp only [map_some, some.injEq] at h0
    subst h0
    exact ⟨⟨rfl, rfl, fun _ => rfl, by simp⟩, rfl, hm.1, rfl⟩
  · simp at h0

/-- The counters are those of the guards. -/
theorem excl_run {C : List Ev → Sys → Op → Prop}
    (h0 : withMaxReaders m = some s₀) (h : Run step C s₀ tr s) : Excl s :=
  h.inv (excl_init h0).1 fun _ _ _ _ _ hi _ hs => excl_step hi hs

theorem Excl.no_writer (h : Excl s) (hg : s.guards[g]? = some gd)
    (hr : gd.isRead = true) : s.writeGuards = 0 ∧ canAcquire s.state .write = false ∧
      tryWrite s.state = none := by
  have hpos : 1 ≤ s.readGuards := countP_pos_iff.mpr ⟨gd, mem_of_getElem? hg, hr⟩
  have h2 := h.readers
  have hw : s.state.writer = false := by
    by_contra hc
    rw [Bool.not_eq_false] at hc
    have := h.apart hc
    omega
  refine ⟨by rw [h.writers, hw]; rfl, ?_, ?_⟩
  · simp [canAcquire]; omega
  · have : s.state.readers ≠ 0 := by omega
    simp [tryWrite, this]

/-- **Exclusion.**  In every state of every run `writer` says whether there is a write guard, of
which there is at most one, and `readers` is the number of read guards; the two exclude each other.
So no release underflows `readers`, a read guard keeps writers out, and a downgrade turns the only
write guard into the only read guard in one step. -/
theorem rwlock_exclusion {m : ℕ} {s₀ s : Sys} {tr : List Ev} (h0 : withMaxReaders m = some s₀)
    (h : Run step Any s₀ tr s) :
    (s.state.writer = true ↔ s.writeGuards = 1) ∧ s.writeGuards ≤ 1 ∧
    s.state.readers = s.readGuards ∧ (s.state.writer = true → s.state.readers = 0) ∧
    (∀ (g : ℕ) (gd : Guard), s.guards[g]? = some gd → gd.release? = some .read →
      (releaseRead s.state).isSome) ∧
    (∀ (g : ℕ) (gd : Guard), s.guards[g]? = some gd → gd.isRead = true →
      s.writeGuards = 0 ∧ canAcquire s.state .write = false ∧ tryWrite s.state = none) ∧
    ∀ g s' es, s.downgradeTo g = some (s', es) →
      s.writeGuards = 1 ∧ s'.writeGuards = 0 ∧ s'.readGuards = 1 ∧
        ∃ gd, s'.guards[g]? = some gd ∧ gd.isRead = true := by
  have hE := excl_run h0 h
  have hw := hE.writers
  have hr := hE.readers
  refine ⟨?_, ?_, hr.symm, hE.apart, ?_, fun g gd => hE.no_writer, ?_⟩
  · rw [hw]; cases s.state.writer <;> simp
  · rw [hw]; cases s.state.writer <;> simp
  · intro g gd hg hrel
    obtain ⟨h1, -⟩ := isRead_of_release (hE.tags gd (mem_of_getElem? hg)) hrel
    have hpos : 1 ≤ s.readGuards := countP_pos_iff.mpr ⟨gd, mem_of_getElem? hg, h1⟩
    rw [hr] at hpos
    simp [releaseRead, checkedSub, hpos]
  · intro g s' es hd
    have hE' : Excl s' := excl_step hE (show step s (.downgrade g) = some (s', es) from hd)
    simp only [Sys.downgradeTo, map_eq_some_iff, bind_eq_some_iff,
      Prod.mk.injEq] at hd
    obtain ⟨gd', ⟨gd, hg, hm⟩, rfl, -⟩ := hd
    obtain ⟨-, h2, h3, -, -⟩ := downgraded_sort hm
    have hwr := hE.writer hg h2
    have hrd := hE.apart hwr
    have hg' : (s.guards.set g gd')[g]? = some gd' := get_set hg
    refine ⟨by rw [hw, hwr]; rfl, (hE'.no_writer hg' h3).1, ?_, gd', hg', h3⟩
    rw [hE'.readers]
    simp [downgradeWrite, hrd]

theorem rwlock_exclusion_downgraded :
    ∃ s₀ s tr, withMaxReaders 2 = some s₀ ∧ exec step s₀ [.tryWrite, .downgrade 0] = some (s, tr) ∧
      s.state.readers = s.readGuards ∧ s.readGuards = 1 := by
  refine ⟨_, _, _, rfl, rfl, ?_, rfl⟩
  exact (rwlock_exclusion (m := 2) rfl (run_exec [.tryWrite, .downgrade 0] rfl)).2.2.1

/-! ## The reader limit -/

/-- A read acquisition that does not wait is made below the limit. -/
def Below (m : ℕ) (s : Sys) (op : Op) : Prop :=
  triesRead op = true → tryRead s.state ≠ none → s.readGuards < m

theorem pollLock_readers {w : Option ℕ} (h : st.readers ≤ st.maxReaders) :
    (pollLock st w kind cx).state.readers ≤ st.maxReaders ∧
      (pollLock st w kind cx).state.maxReaders = st.maxReaders := by
  rcases pollLock_cases st w kind cx with
    ⟨-, -, hc, he⟩ | ⟨-, -, he⟩ | ⟨e, q, -, -, hc, he⟩ | ⟨id, p, -, -, -, he⟩ <;> rw [he]
  · obtain ⟨-, -, h3⟩ := canAcquire_iff hc
    cases kind with
    | read => exact ⟨h3 rfl, rfl⟩
    | write => exact ⟨h, rfl⟩
  · exact ⟨h, rfl⟩
  · obtain ⟨-, -, h3⟩ := canAcquire_iff hc
    cases kind with
    | read => exact ⟨h3 rfl, rfl⟩
    | write => exact ⟨h, rfl⟩
  · exact ⟨h, rfl⟩

/-- **One step keeps the limit**, if it is not a read acquisition made at the limit. -/
theorem limit_step (hm : 0 < m) (hE : Excl s)
    (hmax : s.state.maxReaders = m) (h : s.state.readers ≤ m) (hb : Below m s op)
    (hs : step s op = some (s', es)) : s'.state.maxReaders = m ∧ s'.state.readers ≤ m := by
  cases step_moved hs with
  | create | refuse | dropWrite | map => exact ⟨hmax, h⟩
  | poll =>
    obtain ⟨h1, h2⟩ := pollLock_readers (hmax ▸ h)
    exact ⟨h2.trans hmax, hmax ▸ h1⟩
  | cancel =>
    obtain ⟨h1, -, h3⟩ := cancelWaiter_counters s.state _
    exact ⟨h3.trans hmax, h1.trans_le h⟩
  | @barge _ kind _ hq hw hr hop ht =>
    cases kind with
    | read =>
      have h1 := hb (hop rfl) (ht rfl)
      rw [hE.readers] at h1
      exact ⟨hmax, h1⟩
    | write => exact ⟨hmax, h⟩
  | dropRead => exact ⟨hmax, by simp only; omega⟩
  | downgrade hg hd =>
    obtain ⟨-, h2, -⟩ := downgraded_sort hd
    have := hE.apart (hE.writer hg h2)
    refine ⟨hmax, ?_⟩
    simp only [downgradeWrite]
    omega

/-- The readers stay within the limit. -/
theorem limit_run (h0 : withMaxReaders m = some s₀)
    (h : Run step (fun _ => Below m) s₀ tr s) : s.readGuards ≤ m := by
  obtain ⟨hE0, hmax, hm, hr⟩ := excl_init h0
  have hI : Excl s ∧ s.state.maxReaders = m ∧ s.state.readers ≤ m :=
    h.inv (I := fun _ s => Excl s ∧ s.state.maxReaders = m ∧ s.state.readers ≤ m)
      ⟨hE0, hmax, by omega⟩ fun tr s op s' es hI hb hs =>
        ⟨excl_step hI.1 hs, limit_step hm hI.1 hI.2.1 hI.2.2 hb hs⟩
  rw [hI.1.readers]
  exact hI.2.2

theorem readGuards_tryRead (hop : triesRead op = true)
    (ht : tryRead s.state ≠ none) (hs : step s op = some (s', es)) :
    s'.readGuards = s.readGuards + 1 := by
  obtain ⟨st, ht⟩ := ne_none_iff_exists'.mp ht
  cases op <;> simp only [triesRead, Bool.false_eq_true] at hop <;>
    simp only [step, Sys.tried, ht, some.injEq, Prod.mk.injEq] at hs <;>
    obtain ⟨rfl, -⟩ := hs <;> simp [Sys.readGuards, Guard.isRead]

/-- **When the reader limit holds.**  A run has at most `m` live read guards in all its states iff
every `try_read`, `try_read_owned` and round of `blocking_read` in it that is not refused is made
with fewer than `m` of them. -/
theorem readGuards_le_iff {m : ℕ} {s₀ : Sys} (h0 : withMaxReaders m = some s₀) {ops : List Op}
    (hx : (exec step s₀ ops).isSome) :
    (∀ pre s tr, pre <+: ops → exec step s₀ pre = some (s, tr) → s.readGuards ≤ m) ↔
    ∀ pre op s tr, pre ++ [op] <+: ops → exec step s₀ pre = some (s, tr) → Below m s op := by
  constructor
  · intro h pre op s tr hp he hop ht
    obtain ⟨s', tr', he'⟩ := exec_of_prefix hp hx
    have hle := h _ s' tr' hp he'
    obtain ⟨s1, tr1, es, h1, h2, -⟩ := exec_snoc he'
    rw [he] at h1
    cases h1
    rw [readGuards_tryRead hop ht h2] at hle
    exact hle
  · intro h pre s tr hp he
    refine limit_run h0 (run_exec_of he fun pre' op s' tr' hp' he' => ?_)
    exact h pre' op s' tr' (hp'.trans hp) he'

theorem readGuards_le_iff_two :
    ∃ s₀, withMaxReaders 2 = some s₀ ∧ (exec step s₀ [.tryRead, .tryReadOwned]).isSome ∧
      ∀ pre op s tr, pre ++ [op] <+: [.tryRead, .tryReadOwned] → exec step s₀ pre = some (s, tr) →
        Below 2 s op := by
  refine ⟨_, rfl, rfl, (readGuards_le_iff (m := 2) rfl rfl).mp fun pre s tr hp he => ?_⟩
  simp only [prefix_cons_iff, prefix_nil] at hp
  rcases hp with rfl | ⟨t, rfl, rfl | ⟨t, rfl, rfl⟩⟩ <;> cases he <;> decide

/-- The second `try_read` of a lock with a limit of one reader succeeds. -/
theorem readGuards_exceed : ¬ ∀ m s₀ s tr, withMaxReaders m = some s₀ → Run step Any s₀ tr s →
    s.readGuards ≤ m := by
  intro h
  have := h 1 _ _ _ rfl (run_exec [.tryRead, .tryRead] rfl)
  revert this
  decide

end OhosFfrt.RwLock.Exclusion
