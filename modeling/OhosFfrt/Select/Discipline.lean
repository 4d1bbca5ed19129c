import OhosFfrt.Select.System

/-!
# `select!`: which branches are polled, and how it completes

A branch is off if its precondition was false, or if it was ready with an output that its pattern
does not match (`off`).  It is not polled then (`select_disciplined`).
-/

namespace OhosFfrt.Select

open Basic Io.Traits Lib.Runs List

variable {n : ℕ} {σ : Type*} {Out : Fin n → Type*}

/-! ## What is asked -/

/-- The branch `i` is ready, and its pattern does not match. -/
def Branches.rejects (b : Branches n σ Out) (i : Fin n) : Ev Out → Bool
  | .polled ⟨j, .ready out⟩ => decide (j = i) && !b.accepts j out
  | _ => false

/-- **The branch is off**, after the events `tr`. -/
def Branches.off (b : Branches n σ Out) (conditions : Fin n → Bool) (tr : List (Ev Out))
    (i : Fin n) : Bool :=
  !conditions i || tr.any (b.rejects i)

/-- The branches that are not off, in cyclic order from `start`. -/
def Branches.enabled (b : Branches n σ Out) (conditions : Fin n → Bool) (start : Fin n)
    (tr : List (Ev Out)) : List (Fin n) :=
  ((List.finRange n).rotate start).filter fun i => !b.off conditions tr i

/-- **A poll of the select**, after the events `tr`. -/
structure PollOk (b : Branches n σ Out) (conditions : Fin n → Bool) (start : Fin n)
    (tr es : List (Ev Out)) (polls : List (Polled Out)) (r : Poll (Output Out)) : Prop where
  events : es = polls.map .polled ++ [.returned r]
  /-- The branches that are not off are polled, at most once each and in cyclic order. -/
  order : polls.map Sigma.fst <+: b.enabled conditions start tr
  once : (polls.map Sigma.fst).Nodup
  /-- No branch is polled after one whose output matches. -/
  stops : ∀ x ∈ polls.dropLast, b.hit x = false
  /-- If there is no such branch, all are polled. -/
  through : polls.find? b.hit = none → polls.map Sigma.fst = b.enabled conditions start tr
  /-- It completes with the first output that matches; -/
  branch : ∀ i out, r = .ready (.branch i out) ↔ polls.find? b.hit = some ⟨i, .ready out⟩
  /-- with the `else` case if every branch is off; -/
  otherwise : r = .ready .disabled ↔ ∀ i, b.off conditions (tr ++ es) i = true
  /-- and is pending otherwise. -/
  pending : r = .pending ↔
    polls.find? b.hit = none ∧ ∃ i, b.off conditions (tr ++ es) i = false

/-- **A poll of a branch**, after the events `tr`: its precondition was true, and it has not been
ready. -/
def BranchOk (conditions : Fin n → Bool) (tr : List (Ev Out)) : Ev Out → Prop
  | .polled ⟨i, _⟩ => conditions i = true ∧ ∀ out, .polled ⟨i, .ready out⟩ ∉ tr
  | .returned _ => True

/-! ## The invariant -/

theorem rejects_iff {b : Branches n σ Out} {i : Fin n} {e : Ev Out} :
    b.rejects i e = true ↔ ∃ out, e = .polled ⟨i, .ready out⟩ ∧ b.accepts i out = false := by
  constructor
  · intro h
    rcases e with ⟨j, _ | out⟩ | r
    · cases h
    · simp only [Branches.rejects, Bool.and_eq_true, decide_eq_true_eq, Bool.not_eq_true'] at h
      obtain ⟨rfl, h⟩ := h
      exact ⟨out, rfl, h⟩
    · cases h
  · rintro ⟨out, rfl, h⟩
    simp [Branches.rejects, h]

theorem off_iff {b : Branches n σ Out} {conditions : Fin n → Bool} {tr : List (Ev Out)}
    {i : Fin n} : b.off conditions tr i = true ↔ conditions i = false ∨
      ∃ out, .polled ⟨i, .ready out⟩ ∈ tr ∧ b.accepts i out = false := by
  rw [Branches.off, Bool.or_eq_true, Bool.not_eq_true', any_eq_true]
  refine or_congr Iff.rfl ?_
  constructor
  · rintro ⟨e, he, hr⟩
    obtain ⟨out, rfl, hout⟩ := rejects_iff.mp hr
    exact ⟨out, he, hout⟩
  · rintro ⟨out, he, hout⟩
    exact ⟨_, he, rejects_iff.mpr ⟨out, rfl, hout⟩⟩

/-- What holds in every run. -/
structure Inv (b : Branches n σ Out) (conditions : Fin n → Bool) (start : Fin n)
    (tr : List (Ev Out)) (s : Locals n σ) : Prop where
  start : s.start = start
  /-- The branches that are disabled in the code. -/
  disabled : ∀ i, s.disabled i = true ↔
    conditions i = false ∨ ∃ out, .polled ⟨i, .ready out⟩ ∈ tr
  /-- Only the last poll of the select has a hit. -/
  noHit : s.finished = false → ∀ x, .polled x ∈ tr → b.hit x = false
  each : Each (BranchOk conditions) tr

variable {b : Branches n σ Out} {conditions : Fin n → Bool} {start : Fin n} {tr es : List (Ev Out)}
  {s s' : Locals n σ}

theorem off_iff_of_noHit (hhit : ∀ x, .polled x ∈ tr → b.hit x = false) (i : Fin n) :
    b.off conditions tr i = true ↔
      conditions i = false ∨ ∃ out, .polled ⟨i, .ready out⟩ ∈ tr := by
  rw [off_iff]
  refine or_congr Iff.rfl (exists_congr fun out => ?_)
  exact ⟨fun h => h.1, fun h => ⟨h, hhit _ h⟩⟩

theorem polled_mem {x : Polled Out} {polls : List (Polled Out)} {r : Poll (Output Out)} :
    Ev.polled x ∈ tr ++ (polls.map Ev.polled ++ [.returned r]) ↔ .polled x ∈ tr ∨ x ∈ polls := by
  simp

theorem Inv.enabled_eq (hI : Inv b conditions start tr s) (hf : s.finished = false) :
    b.enabled conditions start tr =
      ((List.finRange n).rotate s.start).filter fun i => !s.disabled i := by
  rw [Branches.enabled, hI.start]
  refine filter_congr fun i _ => congrArg Bool.not ?_
  rw [Bool.eq_iff_iff, off_iff_of_noHit (hI.noHit hf), hI.disabled]

section poll
variable {polls : List (Polled Out)} {r : Poll (Output Out)}
  (h : Looped b ((List.finRange n).rotate s.start) s r s' polls)
include h

theorem Looped.once : (polls.map Sigma.fst).Nodup := by
  have hall : ((List.finRange n).rotate s.start).Nodup :=
    nodup_rotate.mpr (nodup_finRange n)
  exact (hall.filter _).sublist h.polled.sublist

theorem Looped.enabled {x : Polled Out} (hx : x ∈ polls) : s.disabled x.1 = false := by
  have hmem := h.polled.subset (mem_map_of_mem hx)
  have hnot := (mem_filter.mp hmem).2
  rwa [Bool.not_eq_true'] at hnot

variable (hI : Inv b conditions start tr s)
include hI

theorem Looped.fresh {x : Polled Out} (hx : x ∈ polls) :
    conditions x.1 = true ∧ ∀ out, Ev.polled ⟨x.1, .ready out⟩ ∉ tr := by
  have hnot := mt (hI.disabled x.1).mpr (by rw [h.enabled hx]; decide)
  rw [not_or, Bool.not_eq_false, not_exists] at hnot
  exact hnot

theorem Looped.hit_not_off {i : Fin n} {out : Out i} (hx : ⟨i, .ready out⟩ ∈ polls)
    (hhit : b.accepts i out = true) :
    b.off conditions (tr ++ (polls.map .polled ++ [.returned r])) i = false := by
  obtain ⟨hcond, hnew⟩ := h.fresh hI hx
  rw [← Bool.not_eq_true, off_iff]
  rintro (hfalse | ⟨out', hmem, hreject⟩)
  · rw [hcond] at hfalse
    cases hfalse
  · rcases polled_mem.mp hmem with hold | hmem
    · exact hnew out' hold
    · -- the branch is polled once
      have hsame := inj_on_of_nodup_map h.once hmem hx rfl
      cases hsame
      rw [hhit] at hreject
      cases hreject

theorem Looped.disabled_iff (i : Fin n) : s'.disabled i = true ↔ conditions i = false ∨
    ∃ out, Ev.polled ⟨i, .ready out⟩ ∈ tr ++ (polls.map .polled ++ [.returned r]) := by
  rw [h.disabled, hI.disabled, or_assoc, ← exists_or]
  exact or_congr Iff.rfl (exists_congr fun out => polled_mem.symm)

theorem Looped.pollOk (hf : s.finished = false) :
    PollOk b conditions start tr (polls.map .polled ++ [.returned r]) polls r := by
  have henabled := hI.enabled_eq hf
  have horder := h.polled
  have hthrough := h.through
  rw [← henabled] at horder hthrough
  rcases hfind : polls.find? b.hit with _ | ⟨i, p⟩
  · -- there is no hit
    have hnone : ∀ x, .polled x ∈ tr ++ (polls.map .polled ++ [.returned r]) →
        b.hit x = false := by
      intro x hx
      rcases polled_mem.mp hx with hx | hx
      · exact hI.noHit hf x hx
      · have hmiss := find?_eq_none.mp hfind x hx
        rwa [Bool.not_eq_true] at hmiss
    have hoff : ∀ i, b.off conditions (tr ++ (polls.map .polled ++ [.returned r])) i = true ↔
        s'.disabled i = true := by
      intro i
      rw [off_iff_of_noHit hnone, h.disabled_iff hI]
    have hr := h.rest hfind
    by_cases hall : ∀ i, s'.disabled i = true
    · rw [if_pos hall] at hr
      subst hr
      refine ⟨rfl, horder, h.once, h.stops, hthrough, ?_, ?_, ?_⟩
      · intro i out
        rw [hfind]
        exact iff_of_false nofun nofun
      · exact ⟨fun _ i => (hoff i).mpr (hall i), fun _ => rfl⟩
      · refine ⟨nofun, ?_⟩
        rintro ⟨-, i, hi⟩
        rw [(hoff i).mpr (hall i)] at hi
        cases hi
    · rw [if_neg hall] at hr
      subst hr
      refine ⟨rfl, horder, h.once, h.stops, hthrough, ?_, ?_, ?_⟩
      · intro i out
        rw [hfind]
        exact iff_of_false nofun nofun
      · exact ⟨nofun, fun hoff' => absurd (fun i => (hoff i).mp (hoff' i)) hall⟩
      · refine ⟨fun _ => ⟨hfind, ?_⟩, fun _ => rfl⟩
        obtain ⟨i, hi⟩ := not_forall.mp hall
        refine ⟨i, ?_⟩
        rw [← Bool.not_eq_true, hoff]
        exact hi
  · -- the branch `i` has a hit
    have hhit := find?_some hfind
    rcases p with _ | out
    · cases hhit
    · have hr := h.branch i out hfind
      subst hr
      have hnot := h.hit_not_off hI (mem_of_find?_eq_some hfind) hhit
      refine ⟨rfl, horder, h.once, h.stops, hthrough, ?_, ?_, ?_⟩
      · intro j out'
        rw [hfind]
        constructor
        · intro h
          cases h
          rfl
        · intro h
          cases h
          rfl
      · refine ⟨nofun, fun hall => ?_⟩
        rw [hall i] at hnot
        cases hnot
      · refine ⟨nofun, ?_⟩
        rintro ⟨hnone, -⟩
        rw [hfind] at hnone
        cases hnone

end poll

/-! ## Runs -/

/-- The branch polled. -/
def Ev.branch? : Ev Out → Option (Fin n)
  | .polled x => some x.1
  | .returned _ => none

theorem branches_of_poll (polls : List (Polled Out)) (r : Poll (Output Out)) :
    (polls.map Ev.polled ++ [Ev.returned r]).filterMap Ev.branch? = polls.map Sigma.fst := by
  rw [filterMap_append, filterMap_map]
  show polls.filterMap (fun x => some x.1) ++ [] = _
  rw [append_nil, filterMap_eq_map']

theorem Looped.each {polls : List (Polled Out)} {r : Poll (Output Out)}
    (h : Looped b ((List.finRange n).rotate s.start) s r s' polls)
    (hI : Inv b conditions start tr s) :
    Each (BranchOk conditions) (tr ++ (polls.map .polled ++ [.returned r])) := by
  refine hI.each.append fun l x m hes => ?_
  rcases x with ⟨i, p⟩ | r'
  · have hx : ⟨i, p⟩ ∈ polls := by
      have hmem : Ev.polled ⟨i, p⟩ ∈ polls.map Ev.polled ++ [.returned r] := by
        rw [hes]
        exact mem_append_right _ mem_cons_self
      simpa using hmem
    obtain ⟨hcond, hnew⟩ := h.fresh hI hx
    refine ⟨hcond, fun out hmem => ?_⟩
    rcases mem_append.mp hmem with hold | hl
    · exact hnew out hold
    · -- otherwise it would be polled twice
      have honce := h.once
      rw [← branches_of_poll polls r, hes, filterMap_append] at honce
      have hbefore : i ∈ l.filterMap Ev.branch? := mem_filterMap.mpr ⟨_, hl, rfl⟩
      have hnow : i ∈ (Ev.polled ⟨i, p⟩ :: m).filterMap Ev.branch? :=
        mem_filterMap.mpr ⟨_, mem_cons_self, rfl⟩
      exact (nodup_append.mp honce).2.2 i hbefore i hnow rfl
  · trivial

theorem step_poll {cx : Waker} (hs : b.step s (.poll cx) = some (s', es)) :
    s.finished = false ∧ ∃ r s₁ polls, Looped b ((List.finRange n).rotate s.start) s r s₁ polls ∧
      es = polls.map .polled ++ [.returned r] ∧ s'.disabled = s₁.disabled ∧
      s'.start = s₁.start ∧ (s'.finished = false → r = .pending) := by
  rw [Branches.step] at hs
  split_ifs at hs with hf
  rw [Bool.not_eq_true] at hf
  have hpoll : b.pollSelect s cx = b.loop cx ((List.finRange n).rotate s.start) s := by
    rw [Branches.pollSelect, index_rotate]
  have hlooped := loop_looped b cx ((List.finRange n).rotate s.start)
    (nodup_rotate.mpr (nodup_finRange n)) s
  simp only [hpoll] at hs
  generalize b.loop cx ((List.finRange n).rotate s.start) s = q at hs hlooped
  obtain ⟨r, s₁, polls⟩ := q
  cases hs
  refine ⟨hf, r, s₁, polls, hlooped, rfl, rfl, rfl, fun hnot => ?_⟩
  cases r with
  | pending => rfl
  | ready => cases hnot

theorem inv_step {op : Op σ} (hI : Inv b conditions start tr s)
    (hs : b.step s op = some (s', es)) : Inv b conditions start (tr ++ es) s' := by
  cases op with
  | acts =>
    cases hs
    rw [append_nil]
    exact ⟨hI.start, hI.disabled, hI.noHit, hI.each⟩
  | poll =>
    obtain ⟨hf, r, s₁, polls, h, rfl, hdisabled, hstart, hpending⟩ := step_poll hs
    refine ⟨hstart.trans (h.start.trans hI.start), ?_, ?_, h.each hI⟩
    · rw [hdisabled]
      exact h.disabled_iff hI
    · intro hf' x hx
      have hnone := ((h.pollOk hI hf).pending.mp (hpending hf')).1
      rcases polled_mem.mp hx with hx | hx
      · exact hI.noHit hf x hx
      · have hmiss := find?_eq_none.mp hnone x hx
        rwa [Bool.not_eq_true] at hmiss

/-- The discipline, in every run. -/
theorem inv_run {world : σ} (h : Run b.step Any (.new conditions start world) tr s) :
    Inv b conditions start tr s := by
  refine h.inv ⟨rfl, fun i => ?_, fun _ x hx => ?_, each_nil⟩
    (fun _ _ _ _ _ hI _ hs => inv_step hI hs)
  · simp [Locals.new]
  · cases hx

/-- **The discipline of `select!`**, for any number of branches, over its whole life.  In every
state it can reach, no branch whose precondition was false was ever polled, and none after it was
ready; and a poll of the select is as it should be. -/
theorem select_disciplined (b : Branches n σ Out) (conditions : Fin n → Bool) (start : Fin n)
    (world : σ) (tr : List (Ev Out)) (s : Locals n σ)
    (h : Run b.step Any (.new conditions start world) tr s) :
    Each (BranchOk conditions) tr ∧
      ∀ cx s' es, b.step s (.poll cx) = some (s', es) →
        ∃ polls r, PollOk b conditions start tr es polls r := by
  have hI := inv_run h
  refine ⟨hI.each, fun cx s' es hs => ?_⟩
  obtain ⟨hf, r, s₁, polls, hlooped, rfl, -⟩ := step_poll hs
  exact ⟨polls, r, hlooped.pollOk hI hf⟩

/-- Two branches: the first is ready with an output that does not match, the second is ready when
the world is. -/
def twoBranches : Branches 2 Bool (fun _ => Bool) where
  poll i world _ :=
    if i = 0 then (.ready false, world)
    else if world then (.ready true, world)
    else (.pending, world)
  accepts _ out := out

/-- From the second branch on, the first poll polls both, and the next only the second. -/
theorem select_disciplined_two :
    ∃ tr s, Run twoBranches.step Any (.new (fun _ => true) 1 false) tr s ∧
      tr = [.polled ⟨1, .pending⟩, .polled ⟨0, .ready false⟩, .returned .pending] ∧
      twoBranches.enabled (fun _ => true) 1 tr = [1] ∧
      ∀ cx s' es, twoBranches.step s (.poll cx) = some (s', es) →
        ∃ polls r, PollOk twoBranches (fun _ => true) 1 tr es polls r := by
  have h : Run twoBranches.step Any (.new (fun _ => true) 1 false)
      [.polled ⟨1, .pending⟩, .polled ⟨0, .ready false⟩, .returned .pending] _ :=
    run_exec [.poll 0] rfl
  exact ⟨_, _, h, rfl, rfl, (select_disciplined _ _ _ _ _ _ h).2⟩

end OhosFfrt.Select
