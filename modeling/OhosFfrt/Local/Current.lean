import OhosFfrt.Lib.Runs

/-!
# `task::LocalSet`: the current set of a thread

`LocalSet::enter` stores a pointer to the set in `CURRENT_LOCAL`, and the guard it returns keeps the
pointer that it found there; `Drop for LocalEnterGuard` puts that one back.  `LocalSet::poll` and
`RunUntil::poll` hold such a guard while they run.  Neither a set nor a guard leaves its thread.

A guard only borrows its set: nothing makes guards go in the reverse of the order in which they
came.  Where they do, the current set is null or entered (`current_entered`); where they do not,
`spawn_local` can go to a set that is dropped (`current_left`).
-/

namespace OhosFfrt.Local.Current

open Lib.Runs List Option

/-- `LocalEnterGuard`, with the set that it borrows. -/
structure LocalEnterGuard where
  set : ℕ
  previous : Option ℕ
  deriving DecidableEq, Repr

structure Thread where
  /-- `CURRENT_LOCAL`; `none` is the null pointer. -/
  current : Option ℕ
  /-- The guards that are alive, the latest first. -/
  guards : List LocalEnterGuard
  /-- The sets of the thread that are dropped. -/
  dropped : List ℕ
  deriving DecidableEq, Repr

inductive Op
  /-- `LocalSet::enter`. -/
  | enter (set : ℕ)
  /-- `Drop` for one of the guards that are alive. -/
  | leave (n : ℕ)
  | dropSet (set : ℕ)
  /-- `task::spawn_local`. -/
  | spawnLocal
  deriving DecidableEq, Repr

inductive Ev
  | entered (set : ℕ)
  | left (set : ℕ)
  | dropped (set : ℕ)
  | spawned (set : ℕ)
  | panicked (message : String)
  deriving DecidableEq, Repr

/-- A guard of the set `k` is alive. -/
def Thread.isEntered (t : Thread) (k : ℕ) : Bool := t.guards.any fun g => g.set == k

/-- `LocalEnterGuard::enter`. -/
def Thread.enter (t : Thread) (k : ℕ) : Thread :=
  { t with current := some k, guards := ⟨k, t.current⟩ :: t.guards }

/-- `Drop for LocalEnterGuard`. -/
def Thread.leave (t : Thread) (n : ℕ) (g : LocalEnterGuard) : Thread :=
  { t with current := g.previous, guards := t.guards.eraseIdx n }

/-- `spawn_local_named`. -/
def Thread.spawnLocal (t : Thread) : Ev :=
  match t.current with
  | none => .panicked "spawn_local called outside a LocalSet"
  | some k => .spawned k

def Thread.step (t : Thread) : Op → Option (Thread × List Ev)
  | .enter k => if k ∈ t.dropped then none else some (t.enter k, [.entered k])
  | .leave n => t.guards[n]?.map fun g => (t.leave n g, [.left g.set])
  | .dropSet k =>
    -- the guards borrow the set
    if k ∈ t.dropped ∨ t.isEntered k then none
    else some ({ t with dropped := t.dropped ++ [k] }, [.dropped k])
  | .spawnLocal => some (t, [t.spawnLocal])

/-- No set is entered. -/
def new : ℕ → Thread := fun _ => ⟨none, [], []⟩

/-- **One step** of one of the threads. -/
def step (s : ℕ → Thread) (op : ℕ × Op) : Option ((ℕ → Thread) × List (ℕ × Ev)) :=
  ((s op.1).step op.2).map fun r => (Function.update s op.1 r.1, r.2.map fun e => (op.1, e))

/-- **A guard that goes is the latest of its thread, or an earlier guard of its set stays.** -/
def Ordered (_ : List (ℕ × Ev)) (s : ℕ → Thread) (op : ℕ × Op) : Prop :=
  match op.2 with
  | .leave n =>
    n = 0 ∨ ∀ g ∈ (s op.1).guards[n]?, ∃ h ∈ (s op.1).guards.drop (n + 1), h.set = g.set
  | _ => True

instance (tr : List (ℕ × Ev)) (s : ℕ → Thread) (op : ℕ × Op) : Decidable (Ordered tr s op) := by
  unfold Ordered
  split <;> infer_instance

theorem each_thread {C : List (ℕ × Ev) → (ℕ → Thread) → ℕ × Op → Prop} {P : Thread → Prop}
    {tr : List (ℕ × Ev)} {s : ℕ → Thread} (h : Run step C new tr s) (h0 : ∀ i, P (new i))
    (hs : ∀ {tr s i op t es}, P (s i) → C tr s (i, op) → (s i).step op = some (t, es) → P t) :
    ∀ i, P (s i) := by
  refine h.inv (I := fun _ s => ∀ i, P (s i)) h0 ?_
  rintro tr s ⟨i, op⟩ s' es hI hC hst j
  obtain ⟨⟨t, es'⟩, ht, he⟩ := map_eq_some_iff.mp hst
  obtain ⟨rfl, -⟩ := Prod.mk.inj he
  by_cases hj : j = i
  · subst hj
    rw [Function.update_self]
    exact hs (hI j) hC ht
  · rw [Function.update_of_ne hj]
    exact hI j

/-! ### The guards of a thread -/

/-- What each guard puts back is null or the set of an older guard. -/
def Backed : List LocalEnterGuard → Prop
  | [] => True
  | g :: gs => (∀ k ∈ g.previous, ∃ h ∈ gs, h.set = k) ∧ Backed gs

variable {t : Thread} {gs : List LocalEnterGuard} {g : LocalEnterGuard} {n j k : ℕ}

/-- A guard with an older one of its set can go: the sets that are entered stay. -/
theorem entered_eraseIdx (hg : gs[n]? = some g) (ho : ∃ h ∈ gs.drop (n + 1), h.set = g.set)
    (hk : ∃ h ∈ gs, h.set = k) : ∃ h ∈ gs.eraseIdx n, h.set = k := by
  obtain ⟨h, hh, rfl⟩ := hk
  rw [eraseIdx_eq_take_drop_succ]
  obtain ⟨m, hm⟩ := mem_iff_getElem?.mp hh
  rcases Nat.lt_trichotomy m n with hlt | rfl | hgt
  · refine ⟨h, mem_append_left _ (mem_iff_getElem?.mpr ⟨m, ?_⟩), rfl⟩
    rw [getElem?_take_of_lt hlt, hm]
  · obtain rfl : g = h := by simpa [hg] using hm
    obtain ⟨h', hh', he⟩ := ho
    exact ⟨h', mem_append_right _ hh', he⟩
  · refine ⟨h, mem_append_right _ (mem_iff_getElem?.mpr ⟨m - (n + 1), ?_⟩), rfl⟩
    rw [getElem?_drop, ← hm]
    congr 1
    omega

theorem backed_eraseIdx (h : Backed gs) (hg : gs[n]? = some g)
    (ho : n = 0 ∨ ∃ h ∈ gs.drop (n + 1), h.set = g.set) :
    Backed (gs.eraseIdx n) ∧ ∀ k ∈ g.previous, ∃ h ∈ gs.eraseIdx n, h.set = k := by
  induction gs generalizing n with
  | nil => simp at hg
  | cons g₀ gs ih =>
    cases n with
    | zero =>
      obtain rfl : g₀ = g := by simpa using hg
      exact ⟨h.2, h.1⟩
    | succ n =>
      have ho' : ∃ h ∈ gs.drop (n + 1), h.set = g.set := by simpa using ho
      rw [getElem?_cons_succ] at hg
      obtain ⟨hb, hp⟩ := ih h.2 hg (.inr ho')
      refine ⟨⟨fun k hk => entered_eraseIdx hg ho' (h.1 k hk), hb⟩, fun k hk => ?_⟩
      obtain ⟨h', hh', he⟩ := hp k hk
      exact ⟨h', mem_cons_of_mem _ hh', he⟩

/-! ### The pointer -/

/-- **The pointer is null or an entered set**, and no entered set is dropped. -/
structure Thread.Sound (t : Thread) : Prop where
  current : ∀ k ∈ t.current, t.isEntered k = true
  alive : ∀ k ∈ t.dropped, t.isEntered k = false
  backed : Backed t.guards

theorem isEntered_iff :
    t.isEntered k = true ↔ ∃ g ∈ t.guards, g.set = k := by
  simp [Thread.isEntered]

theorem sound_new (i : ℕ) : (new i).Sound := by
  constructor <;> simp [new, Backed]

theorem isEntered_enter :
    (t.enter j).isEntered k = (j == k || t.isEntered k) := rfl

theorem isEntered_of_leave (h : (t.leave n g).isEntered k = true) : t.isEntered k = true := by
  obtain ⟨g', hg', hk⟩ := isEntered_iff.mp h
  exact isEntered_iff.mpr ⟨g', List.mem_of_mem_eraseIdx hg', hk⟩

theorem Thread.Sound.enter {t : Thread} {k : ℕ} (h : t.Sound) (hk : k ∉ t.dropped) :
    (t.enter k).Sound where
  current := by
    intro j hj
    obtain rfl : k = j := by simpa [Thread.enter] using hj
    simp [isEntered_enter]
  alive := by
    intro j hj
    have hne : k ≠ j := by
      rintro rfl
      exact hk hj
    simp [isEntered_enter, hne, h.alive j hj]
  backed := ⟨fun j hj => isEntered_iff.mp (h.current j hj), h.backed⟩

theorem Thread.Sound.leave {t : Thread} {n : ℕ} {g : LocalEnterGuard} (h : t.Sound)
    (hg : t.guards[n]? = some g)
    (ho : n = 0 ∨ ∃ h ∈ t.guards.drop (n + 1), h.set = g.set) : (t.leave n g).Sound where
  current := fun k hk => isEntered_iff.mpr ((backed_eraseIdx h.backed hg ho).2 k hk)
  alive := by
    intro k hk
    have hn := h.alive k hk
    by_contra hne
    rw [isEntered_of_leave (Bool.not_eq_false _ ▸ hne)] at hn
    cases hn
  backed := (backed_eraseIdx h.backed hg ho).1

theorem Thread.Sound.dropSet (h : t.Sound) (hk : t.isEntered k = false) :
    ({ t with dropped := t.dropped ++ [k] } : Thread).Sound where
  current := h.current
  alive := by
    intro j hj
    rcases mem_append.mp hj with hj | hj
    · exact h.alive j hj
    · obtain rfl := mem_singleton.mp hj
      exact hk
  backed := h.backed

variable {tr : List (ℕ × Ev)} {s : ℕ → Thread} {i : ℕ} {op : Op} {es : List Ev}

theorem sound_thread (h : (s i).Sound) (ho : Ordered tr s (i, op))
    (hs : (s i).step op = some (t, es)) : t.Sound := by
  cases op with
  | enter =>
    simp only [Thread.step] at hs
    split_ifs at hs with hk
    obtain ⟨rfl, -⟩ := Prod.mk.inj (some.inj hs)
    exact h.enter hk
  | leave =>
    obtain ⟨g, hg, he⟩ := map_eq_some_iff.mp hs
    obtain ⟨rfl, -⟩ := Prod.mk.inj he
    exact h.leave hg (ho.imp_right fun ho => ho g hg)
  | dropSet =>
    simp only [Thread.step] at hs
    split_ifs at hs with hk
    obtain ⟨rfl, -⟩ := Prod.mk.inj (some.inj hs)
    exact h.dropSet (by simpa using (not_or.mp hk).2)
  | spawnLocal =>
    obtain ⟨rfl, -⟩ := Prod.mk.inj (some.inj hs)
    exact h

/-- Every thread stays sound. -/
theorem sound_run (h : Run step Ordered new tr s) (i : ℕ) : (s i).Sound :=
  each_thread h (fun i => sound_new i) (fun hI ho hs => sound_thread hI ho hs) i

/-! ### The current set -/

theorem Thread.Sound.spawned {k : ℕ} (h : t.Sound) (hs : t.spawnLocal = .spawned k) :
    t.isEntered k = true ∧ k ∉ t.dropped := by
  unfold Thread.spawnLocal at hs
  split at hs
  · cases hs
  · next j hj =>
    obtain rfl : j = k := by simpa using hs
    have he := h.current j hj
    refine ⟨he, fun hd => ?_⟩
    rw [h.alive j hd] at he
    cases he

/-- **The current set of a thread is null or entered.**  In every run in which a guard that goes is
the latest of its thread or leaves an earlier guard of its set, the pointer of every thread is null
or a set with a guard that is alive, and `spawn_local` goes to such a set, which is not dropped. -/
theorem current_entered (tr : List (ℕ × Ev)) (s : ℕ → Thread) (h : Run step Ordered new tr s)
    (i : ℕ) :
    (∀ k ∈ (s i).current, ∃ g ∈ (s i).guards, g.set = k) ∧
    ∀ k, (s i).spawnLocal = .spawned k →
      (∃ g ∈ (s i).guards, g.set = k) ∧ k ∉ (s i).dropped := by
  have hS := sound_run h i
  refine ⟨fun k hk => isEntered_iff.mp (hS.current k hk), fun k hk => ?_⟩
  obtain ⟨he, hd⟩ := hS.spawned hk
  exact ⟨isEntered_iff.mp he, hd⟩

/-- A thread enters set `0` twice, then set `1`; the second guard goes, then the third; another
thread enters its own set. -/
def nest : List (ℕ × Op) :=
  [(0, .enter 0), (0, .enter 0), (0, .enter 1), (1, .enter 2), (0, .leave 1), (0, .leave 0),
    (0, .spawnLocal)]

theorem current_entered_nest : ∃ tr s, Run step Ordered new tr s ∧ (s 0).current = some 0 ∧
    (∃ g ∈ (s 0).guards, g.set = 0) ∧ (s 0).spawnLocal = .spawned 0 ∧ 0 ∉ (s 0).dropped := by
  refine ⟨_, _, run_execIf nest .nil rfl, rfl, ?_, rfl, ?_⟩
  · exact (current_entered _ _ (run_execIf nest .nil rfl) 0).1 0 rfl
  · exact ((current_entered _ _ (run_execIf nest .nil rfl) 0).2 0 rfl).2

/-- **Guards that go in the order in which they came**: the second one puts back the set that the
first one has left, the set is dropped, and `spawn_local` goes to it. -/
theorem current_left : ∃ tr s, Run step Any new tr s ∧ (s 0).current = some 0 ∧
    (s 0).guards = [] ∧ 0 ∈ (s 0).dropped ∧ (s 0).spawnLocal = .spawned 0 :=
  ⟨_, _, run_exec [(0, .enter 0), (0, .enter 1), (0, .leave 1), (0, .leave 0), (0, .dropSet 0)] rfl,
    rfl, rfl, by decide, rfl⟩

end OhosFfrt.Local.Current
