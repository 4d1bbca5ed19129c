import OhosFfrt.Local.System
import OhosFfrt.Lib.Arena

/-!
# `task::LocalSet`: what a step does

`Turn` is what the innermost poll of a thread does to its set; `Moved` is what a step is as a whole;
`Seen` says what a step does to one set and the polls of it (`step_seen`).
-/

namespace OhosFfrt.Local.Moves

open Lib.Runs Lib.Arena Local.System List

variable {home : ℕ → ℕ} {s s' : Sys} {op : Op} {es tr : List Ev} {k i c : ℕ} {rest : List Frame}
  {p : Option Phase} {f : Frame}

/-- **What a poll does to its set**: the set after it, where the poll is then (`none` if it has
returned), and the events. -/
inductive Turn (l : LocalSet) (f : Frame) : LocalSet → Option Phase → List Ev → Prop
  | enter (hp : f.phase = .enter) (hl : l.lock = none) :
      Turn l f { l with runWaker := some f.waker } (some f.kind.entered) []
  | mainReady (hp : f.phase = .main) : Turn l f l (some .clear) []
  | mainPending (hp : f.phase = .main) : Turn l f l (some .take) []
  | mainPanics (hp : f.phase = .main) : Turn l f l none [.panicked f.call f.set]
  | take (hp : f.phase = .take) :
      Turn l f { l with tasks := [] } (some (.tasks l.tasks l.tasks.length))
        [.took f.call f.set l.tasks]
  | pick {t rounds : ℕ} {queue : List ℕ} (hp : f.phase = .tasks (t :: queue) (rounds + 1)) :
      Turn l f l (some (.task t queue rounds)) [.polled f.call f.set t]
  | loop {rounds : ℕ} {queue : List ℕ} (hp : f.phase = .tasks queue rounds)
      (hq : queue = [] ∨ rounds = 0) :
      Turn l f { l with tasks := l.tasks ++ queue } (some .swap) []
  | swap (hp : f.phase = .swap) :
      Turn l f { l with notified := false } (some (if l.notified then .selfWake else .test)) []
  | selfWake (hp : f.phase = .selfWake) : Turn l f l (some .test) [.woke f.waker]
  | empty (hp : f.phase = .test) (hk : f.kind = .localSet) (hl : l.tasks = []) :
      Turn l f l (some .clear) []
  | pending (hp : f.phase = .test) (hl : f.kind = .localSet → l.tasks ≠ []) :
      Turn l f l none [.returned f.call f.set f.kind false]
  | clear (hp : f.phase = .clear) (hl : l.lock = none) :
      Turn l f { l with runWaker := none } none [.returned f.call f.set f.kind true]
  | finish {t rounds : ℕ} {queue : List ℕ} (hp : f.phase = .task t queue rounds) :
      Turn l f l (some (.tasks queue rounds)) [.finished f.call f.set t]
  | pend {t rounds : ℕ} {queue : List ℕ} (hp : f.phase = .task t queue rounds) :
      Turn l f l (some (.tasks (queue ++ [t]) rounds)) [.pended f.call f.set t]

/-- The polls of a stack after a turn of the innermost one. -/
def turned (f : Frame) (rest : List Frame) : Option Phase → List Frame
  | none => rest
  | some p => { f with phase := p } :: rest

/-- **What a step does.** -/
inductive Moved (home : ℕ → ℕ) (s : Sys) (op : Op) : Sys → List Ev → Prop
  | poll (k : ℕ) (kind : Kind) (w : Waker) (hop : op = .poll k kind w)
      (ho : s.isOpen (home k) = true) :
      Moved home s op { s.put (home k) (⟨s.polls, k, w, kind, .enter⟩ :: s.threads (home k)) with
        polls := s.polls + 1 } [.began s.polls k w]
  | turn {i : ℕ} {f : Frame} {rest : List Frame} {l : LocalSet} {p : Option Phase}
      {es : List Ev}
      (hop : f.phase.isOpen = false → op = .advance i) (hst : s.threads i = f :: rest)
      (ht : Turn (s.sets f.set) f l p es) :
      Moved home s op ((s.modify f.set fun _ => l).put i (turned f rest p)) es
  | selfWake {i : ℕ} {f : Frame} {rest : List Frame} (hst : s.threads i = f :: rest)
      (hp : f.phase = .selfWake) :
      Moved home s op
        ((s.put i ({ f with phase := .test } :: rest)).start i f.waker.entry) [.woke f.waker]
  | spawn (k : ℕ) (ho : s.isOpen (home k) = true) :
      Moved home s op { (s.modify k fun l =>
          { l with tasks := l.tasks ++ [s.next], notified := true }).start (home k) (.lock k) with
        next := s.next + 1 } [.spawned k s.next, .notified k s.next]
  | wake (k t : ℕ) (ht : t < s.next) :
      Moved home s op { s with calls := s.calls ++ [⟨[], .store k t⟩] } []
  | store {c k t : ℕ} {held : List ℕ} (hc : s.calls[c]? = some ⟨held, .store k t⟩) :
      Moved home s op ((s.modify k fun l => { l with notified := true }).setCall c
        ⟨held, .lock k⟩) [.notified k t]
  | lock {c k : ℕ} {held : List ℕ} (hc : s.calls[c]? = some ⟨held, .lock k⟩)
      (hl : (s.sets k).lock = none) :
      Moved home s op ((s.modify k fun l => { l with runWaker := none, lock := some c }).setCall c
        ⟨k :: held, (s.sets k).runWaker.elim .ret .wake⟩) []
  | woke {c : ℕ} {w : Waker} {held : List ℕ} (hc : s.calls[c]? = some ⟨held, .wake w⟩) :
      Moved home s op (s.setCall c ⟨held, w.entry⟩) [.woke w]
  | unlock {c k : ℕ} {held : List ℕ} (hc : s.calls[c]? = some ⟨k :: held, .ret⟩) :
      Moved home s op ((s.modify k fun l => { l with lock := none }).setCall c ⟨held, .ret⟩) []

theorem modify_self : (s.modify k fun _ => s.sets k) = s := by
  simp [Sys.modify]

theorem Moved.same (hst : s.threads i = f :: rest) (hop : f.phase.isOpen = false → op = .advance i)
    (ht : Turn (s.sets f.set) f (s.sets f.set) p es) :
    Moved home s op (s.put i (turned f rest p)) es := by
  have h : Moved home s op _ es := .turn hop hst ht
  rwa [modify_self] at h

theorem advance_moved (hst : s.threads i = f :: rest)
    (h : s.advance i f rest = some (s', es)) : Moved home s (.advance i) s' es := by
  have hop : f.phase.isOpen = false → Op.advance i = .advance i := fun _ => rfl
  unfold Sys.advance at h
  split at h
  case h_1 hp =>
    split_ifs at h with hl
    cases h
    exact .turn hop hst (.enter hp hl)
  case h_2 hp =>
    cases h
    exact .turn hop hst (.take hp)
  case h_3 t queue rounds hp =>
    cases h
    exact .same hst hop (.pick hp)
  case h_4 queue rounds hno hp =>
    cases h
    refine .turn hop hst (.loop hp ?_)
    rcases queue with _ | ⟨t, queue⟩
    · exact .inl rfl
    · rcases rounds with _ | rounds
      · exact .inr rfl
      · exact (hno t queue rounds rfl rfl).elim
  case h_5 hp =>
    cases h
    exact .turn hop hst (.swap hp)
  case h_6 hp =>
    cases h
    exact .selfWake hst hp
  case h_7 hp =>
    split_ifs at h with hl
    · cases h
      exact .same hst hop (.empty hp hl.1 hl.2)
    · cases h
      exact .same hst hop (.pending hp fun hk ht => hl ⟨hk, ht⟩)
  case h_8 hp =>
    split_ifs at h with hl
    cases h
    exact .turn hop hst (.clear hp hl)
  all_goals cases h

theorem stepCall_moved {call : Call} (hc : s.calls[c]? = some call)
    (h : s.stepCall c call = some (s', es)) : Moved home s op s' es := by
  obtain ⟨held, pc⟩ := call
  unfold Sys.stepCall at h
  split at h
  case h_1 k t hpc =>
    cases h
    cases hpc
    exact .store hc
  case h_2 k hpc =>
    cases hpc
    split_ifs at h with hl
    cases h
    exact .lock hc hl
  case h_3 w hpc =>
    cases h
    cases hpc
    exact .woke hc
  case h_4 hpc =>
    cases hpc
    rcases held with _ | ⟨k, held⟩
    · cases h
    · cases h
      exact .unlock hc

theorem top_of {g : Frame → List Frame → Option (Sys × List Ev)} (h : (match s.threads i with
      | [] => none
      | f :: rest => g f rest) = some (s', es)) :
    ∃ f rest, s.threads i = f :: rest ∧ g f rest = some (s', es) := by
  split at h
  · cases h
  · next f rest hst => exact ⟨f, rest, hst, h⟩

theorem Moved.answer (hst : s.threads i = f :: rest) (ho : f.phase.isOpen = true)
    (ht : Turn (s.sets f.set) f (s.sets f.set) p es) :
    Moved home s op (s.put i (turned f rest p)) es := by
  refine .same hst (fun hno => ?_) ht
  rw [ho] at hno
  cases hno

theorem step_moved (h : step home s op = some (s', es)) : Moved home s op s' es := by
  cases op with
  | poll k kind w =>
    simp only [step] at h
    split_ifs at h with ho
    cases h
    exact .poll k kind w rfl ho
  | advance =>
    obtain ⟨f, rest, hst, h⟩ := top_of h
    split_ifs at h
    exact advance_moved hst h
  | mainReady =>
    obtain ⟨f, rest, hst, h⟩ := top_of h
    split_ifs at h with hp
    cases h
    exact .answer hst (by rw [hp.2]; rfl) (.mainReady hp.2)
  | mainPending =>
    obtain ⟨f, rest, hst, h⟩ := top_of h
    split_ifs at h with hp
    cases h
    exact .answer hst (by rw [hp.2]; rfl) (.mainPending hp.2)
  | mainPanics =>
    obtain ⟨f, rest, hst, h⟩ := top_of h
    split_ifs at h with hp
    cases h
    exact .answer hst (by rw [hp.2]; rfl) (.mainPanics hp.2)
  | finish =>
    obtain ⟨f, rest, hst, h⟩ := top_of h
    split at h
    · next t queue rounds hp =>
      split_ifs at h
      cases h
      exact .answer hst (by rw [hp]; rfl) (.finish hp)
    · cases h
  | pend =>
    obtain ⟨f, rest, hst, h⟩ := top_of h
    split at h
    · next t queue rounds hp =>
      split_ifs at h
      cases h
      exact .answer hst (by rw [hp]; rfl) (.pend hp)
    · cases h
  | spawn k =>
    simp only [step] at h
    split_ifs at h with ho
    cases h
    exact .spawn k ho
  | wake k t =>
    simp only [step] at h
    split_ifs at h with ht
    cases h
    exact .wake k t ht
  | call =>
    simp only [step] at h
    split at h
    · cases h
    · next call hc => exact stepCall_moved hc h

/-! ### The polls of a stack -/

/-- **Polls are nested**: they are on the stack of the home of their set, and only the innermost one
of a stack is not in the code of a future. -/
structure Nested (home : ℕ → ℕ) (s : Sys) : Prop where
  home_eq : ∀ i, ∀ f ∈ s.threads i, home f.set = i
  below : ∀ i, ∀ f ∈ (s.threads i).tail, f.phase.isOpen = true

theorem nested_new : Nested home new := ⟨nofun, nofun⟩

theorem Nested.open (h : Nested home s) (ho : s.isOpen i = true) :
    ∀ f ∈ s.threads i, f.phase.isOpen = true := by
  intro f hf
  have hbelow := h.below i
  simp only [Sys.isOpen, Bool.and_eq_true] at ho
  rcases hst : s.threads i with _ | ⟨g, rest⟩ <;> rw [hst] at hf ho hbelow
  · cases hf
  · rcases mem_cons.mp hf with rfl | hf
    · exact ho.2
    · exact hbelow f hf

theorem Nested.put (h : Nested home s) {fs : List Frame} (hfs : ∀ f ∈ fs, home f.set = i)
    (hbelow : ∀ f ∈ fs.tail, f.phase.isOpen = true)
    (hst : s'.threads = Function.update s.threads i fs) : Nested home s' := by
  refine ⟨fun j f hf => ?_, fun j f hf => ?_⟩ <;> rw [hst] at hf <;> by_cases hj : j = i
  · subst hj
    rw [Function.update_self] at hf
    exact hfs f hf
  · rw [Function.update_of_ne hj] at hf
    exact h.home_eq j f hf
  · subst hj
    rw [Function.update_self] at hf
    exact hbelow f hf
  · rw [Function.update_of_ne hj] at hf
    exact h.below j f hf

theorem Nested.turned (h : Nested home s) (hst : s.threads i = f :: rest)
    (hst' : s'.threads = Function.update s.threads i (turned f rest p)) : Nested home s' := by
  have hhome := h.home_eq i
  have hbelow := h.below i
  rw [hst] at hhome hbelow
  refine h.put (fun g hg => ?_) (fun g hg => hbelow g ?_) hst' <;> rcases p with _ | p
  · exact hhome g (mem_cons_of_mem _ hg)
  · rcases mem_cons.mp hg with rfl | hg
    · exact hhome f mem_cons_self
    · exact hhome g (mem_cons_of_mem _ hg)
  · exact mem_of_mem_tail hg
  · exact hg

theorem nested_step (h : Nested home s) (hs : step home s op = some (s', es)) : Nested home s' := by
  cases step_moved hs with
  | poll k kind w _ ho =>
    refine h.put (i := home k) ?_ ?_ rfl
    · intro f hf
      rcases mem_cons.mp hf with rfl | hf
      · rfl
      · exact h.home_eq _ f hf
    · exact h.open ho
  | turn _ hst => exact h.turned hst rfl
  | selfWake hst => exact h.turned (p := some .test) hst rfl
  | spawn | wake | store | lock | woke | unlock => exact ⟨h.home_eq, h.below⟩

theorem nested_run {C : List Ev → Sys → Op → Prop} (h : Run (step home) C new tr s) :
    Nested home s := by
  refine h.inv (I := fun _ s => Nested home s) nested_new ?_
  intro tr s op s' es hI _ hs
  exact nested_step hI hs

/-! ### A step, seen from a set -/

/-- The set the event is about. -/
def about : Ev → Option ℕ
  | .began _ k _ | .took _ k _ | .polled _ k _ | .pended _ k _ | .finished _ k _
  | .returned _ k _ _ | .panicked _ k | .spawned k _ | .notified k _ => some k
  | .woke _ => none

/-- The polls of the set `k`. -/
def frames (home : ℕ → ℕ) (s : Sys) (k : ℕ) : List Frame :=
  (s.threads (home k)).filter fun f => f.set = k

theorem mem_frames (hf : f ∈ frames home s k) : f ∈ s.threads (home k) ∧ f.set = k := by
  simpa [frames] using hf

/-- **What a step does to the set `k`.** -/
inductive Seen (home : ℕ → ℕ) (k : ℕ) (s s' : Sys) : List Ev → Prop
  | idle {es : List Ev} (ht : (s'.sets k).tasks = (s.sets k).tasks)
      (hr : (s'.sets k).runWaker = (s.sets k).runWaker)
      (hn : (s'.sets k).notified = (s.sets k).notified)
      (hf : frames home s' k = frames home s k) (he : ∀ e ∈ es, about e ≠ some k) :
      Seen home k s s' es
  | poll {kind : Kind} {w : Waker} (hs : s'.sets k = s.sets k)
      (hf : frames home s' k = ⟨s.polls, k, w, kind, .enter⟩ :: frames home s k)
      (hp : s'.polls = s.polls + 1) : Seen home k s s' [.began s.polls k w]
  | turn {f : Frame} {r : List Frame} {p : Option Phase} {es : List Ev}
      (hf : frames home s k = f :: r) (hk : f.set = k)
      (ho : ∀ g ∈ r, g.phase.isOpen = true) (ht : Turn (s.sets k) f (s'.sets k) p es)
      (hf' : frames home s' k = turned f r p) : Seen home k s s' es
  | spawn (hs : s'.sets k =
        { s.sets k with tasks := (s.sets k).tasks ++ [s.next], notified := true })
      (hf : frames home s' k = frames home s k)
      (ho : ∀ f ∈ frames home s k, f.phase.isOpen = true) (hn : s'.next = s.next + 1)
      (hc : ∃ c ∈ s'.calls, c.pc = .lock k) :
      Seen home k s s' [.spawned k s.next, .notified k s.next]
  | notify {t : ℕ} (hs : s'.sets k = { s.sets k with notified := true })
      (hf : frames home s' k = frames home s k) (hc : ∃ c ∈ s'.calls, c.pc = .lock k) :
      Seen home k s s' [.notified k t]
  | taken (ht : (s'.sets k).tasks = (s.sets k).tasks) (hr : (s'.sets k).runWaker = none)
      (hn : (s'.sets k).notified = (s.sets k).notified)
      (hf : frames home s' k = frames home s k)
      (hc : ∀ w, (s.sets k).runWaker = some w → ∃ c ∈ s'.calls, c.pc = .wake w) :
      Seen home k s s' []

theorem Seen.still (hs : s'.sets k = s.sets k) (hst : s'.threads = s.threads)
    (he : ∀ e ∈ es, about e ≠ some k) : Seen home k s s' es := by
  refine .idle ?_ ?_ ?_ ?_ he
  · rw [hs]
  · rw [hs]
  · rw [hs]
  · simp only [frames, hst]

theorem about_turn {l l' : LocalSet} (h : Turn l f l' p es)
    (hk : f.set ≠ k) : ∀ e ∈ es, about e ≠ some k := by
  intro e he
  cases h <;> simp only [not_mem_nil, mem_singleton] at he <;> subst he <;>
    simp [about, hk]

theorem frames_self (hk : f.set = k) (hst : s.threads (home k) = f :: rest)
    (hst' : s'.threads = Function.update s.threads (home k) (turned f rest p)) :
    ∃ r, frames home s k = f :: r ∧ (∀ g ∈ r, g ∈ rest) ∧
      frames home s' k = turned f r p := by
  refine ⟨rest.filter fun f => f.set = k, ?_, fun g hg => mem_of_mem_filter hg, ?_⟩
  · simp [frames, hst, hk]
  · rcases p with _ | p <;> simp [frames, hst', turned, hk]

theorem frames_other (hk : f.set ≠ k) (hst : s.threads i = f :: rest)
    (hst' : s'.threads = Function.update s.threads i (turned f rest p)) :
    frames home s' k = frames home s k := by
  simp only [frames, hst']
  by_cases hi : home k = i
  · rw [hi, Function.update_self, hst]
    rcases p with _ | p <;> simp [turned, hk]
  · rw [Function.update_of_ne hi]

theorem Seen.of_turn {l : LocalSet} (h : Nested home s) (k : ℕ) (hst : s.threads i = f :: rest)
    (hst' : s'.threads = Function.update s.threads i (turned f rest p))
    (hsets : s'.sets = Function.update s.sets f.set l) (ht : Turn (s.sets f.set) f l p es) :
    Seen home k s s' es := by
  by_cases hk : f.set = k
  · subst hk
    have hi : home f.set = i := h.home_eq i f (by rw [hst]; exact mem_cons_self)
    subst hi
    obtain ⟨r, hf, hr, hf'⟩ := frames_self rfl hst hst'
    refine .turn hf rfl (fun g hg => h.below (home f.set) g ?_) ?_ hf'
    · rw [hst]
      exact hr g hg
    · rw [hsets, Function.update_self]
      exact ht
  · have hset : s'.sets k = s.sets k := by rw [hsets, Function.update_of_ne (Ne.symm hk)]
    refine .idle ?_ ?_ ?_ (frames_other hk hst hst') (about_turn ht hk)
    · rw [hset]
    · rw [hset]
    · rw [hset]

theorem step_seen (h : Nested home s) (k : ℕ) (hs : step home s op = some (s', es)) :
    Seen home k s s' es := by
  cases step_moved hs with
  | poll j kind w =>
    by_cases hj : j = k
    · subst hj
      have hf : frames home { s.put (home j) (⟨s.polls, j, w, kind, .enter⟩ :: s.threads (home j))
          with polls := s.polls + 1 } j = ⟨s.polls, j, w, kind, .enter⟩ :: frames home s j := by
        simp [frames, Sys.put]
      exact .poll rfl hf rfl
    · refine .idle rfl rfl rfl ?_ (by simpa [about] using hj)
      by_cases hi : home k = home j
      · simp [frames, Sys.put, hi, hj]
      · simp [frames, Sys.put, hi]
  | turn _ hst ht => exact Seen.of_turn h k hst rfl rfl ht
  | selfWake hst hp =>
    exact Seen.of_turn h k hst rfl (Function.update_eq_self _ _).symm (.selfWake hp)
  | spawn j ho =>
    by_cases hj : k = j
    · subst hj
      refine .spawn (by simp [Sys.modify, Sys.start]) rfl ?_ rfl ?_
      · exact fun f hf => h.open ho f (mem_frames hf).1
      · exact ⟨⟨[], .lock k⟩, by simp [Sys.start], rfl⟩
    · refine .still (by simp [Sys.modify, Sys.start, hj]) rfl ?_
      simpa [about] using Ne.symm hj
  | wake => exact .still rfl rfl nofun
  | @store c j t held hc =>
    by_cases hj : k = j
    · subst hj
      refine .notify (by simp [Sys.modify, Sys.setCall]) rfl ?_
      exact ⟨⟨held, .lock k⟩, mem_set_self hc, rfl⟩
    · refine .still (by simp [Sys.modify, Sys.setCall, hj]) rfl ?_
      simpa [about] using Ne.symm hj
  | @lock c j held hc =>
    by_cases hj : k = j
    · subst hj
      refine .taken ?_ ?_ ?_ rfl fun w hw => ?_
      iterate 3
        · simp [Sys.modify, Sys.setCall]
      · exact ⟨_, mem_set_self hc, by simp [hw]⟩
    · exact .still (by simp [Sys.modify, Sys.setCall, hj]) rfl nofun
  | woke => exact .still rfl rfl (by simp [about])
  | @unlock c j =>
    by_cases hj : k = j
    · subst hj
      refine .idle ?_ ?_ ?_ rfl nofun
      iterate 3
        · simp [Sys.modify, Sys.setCall]
    · exact .still (by simp [Sys.modify, Sys.setCall, hj]) rfl nofun

theorem next_le (hs : step home s op = some (s', es)) : s.next ≤ s'.next := by
  cases step_moved hs with
  | spawn => exact Nat.le_succ _
  | _ => exact Nat.le_refl _

theorem polls_le (hs : step home s op = some (s', es)) : s.polls ≤ s'.polls := by
  cases step_moved hs with
  | poll => exact Nat.le_succ _
  | _ => exact Nat.le_refl _

end OhosFfrt.Local.Moves
