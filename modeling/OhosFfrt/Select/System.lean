import OhosFfrt.Io.Traits
import OhosFfrt.Lib.Traces
import Mathlib.Data.List.FinRange
import Mathlib.Data.List.Rotate

/-!
# `select!`: the generated code

The preconditions are evaluated, the futures are made, a start is chosen, and then the closure of
`poll_fn` is awaited: a loop over the branches from the start on (`Branches.loop`).

The futures are arbitrary: they act on a world that they share with each other and with the rest of
the program, which may act between the polls.
-/

namespace OhosFfrt.Select

open Basic Io.Traits List

/-- The branches: their futures, and their patterns. -/
structure Branches (n : ℕ) (σ : Type*) (Out : Fin n → Type*) where
  poll : (i : Fin n) → σ → Waker → Poll (Out i) × σ
  accepts : (i : Fin n) → Out i → Bool

variable {n : ℕ} {σ : Type*} {Out : Fin n → Type*}

/-- What `select!` returns. -/
inductive Output (Out : Fin n → Type*)
  | branch (i : Fin n) (out : Out i)
  | disabled

/-- A poll of a branch, with its result. -/
abbrev Polled (Out : Fin n → Type*) := (i : Fin n) × Poll (Out i)

/-- The locals of the generated code, the world, and whether the `await` is over. -/
structure Locals (n : ℕ) (σ : Type*) where
  disabled : Fin n → Bool
  start : Fin n
  world : σ
  finished : Bool

/-- The locals, when the preconditions are evaluated; the start is 0 if `biased`, and otherwise
what `__select_start` returns. -/
def Locals.new (conditions : Fin n → Bool) (start : Fin n) (world : σ) : Locals n σ where
  disabled i := !conditions i
  start := start
  world := world
  finished := false

/-- `(start + offset) % count`. -/
def Locals.index (s : Locals n σ) (offset : ℕ) : Fin n :=
  ⟨(s.start + offset) % n, Nat.mod_lt _ (Fin.pos s.start)⟩

/-- The branch `i` is disabled. -/
def Locals.disable (s : Locals n σ) (i : Fin n) (world : σ) : Locals n σ :=
  { s with disabled := Function.update s.disabled i true, world := world }

/-- The loop over the branches, with the polls that it makes. -/
def Branches.loop (b : Branches n σ Out) (cx : Waker) :
    List (Fin n) → Locals n σ → Poll (Output Out) × Locals n σ × List (Polled Out)
  | [], s => (if ∀ i, s.disabled i = true then .ready .disabled else .pending, s, [])
  | i :: order, s =>
    if s.disabled i then b.loop cx order s
    else
      match b.poll i s.world cx with
      | (.ready out, world) =>
        if b.accepts i out then
          (.ready (.branch i out), s.disable i world, [⟨i, .ready out⟩])
        else
          let r := b.loop cx order (s.disable i world)
          (r.1, r.2.1, ⟨i, .ready out⟩ :: r.2.2)
      | (.pending, world) =>
        let r := b.loop cx order { s with world := world }
        (r.1, r.2.1, ⟨i, .pending⟩ :: r.2.2)

/-- One poll of `select!`. -/
def Branches.pollSelect (b : Branches n σ Out) (s : Locals n σ) (cx : Waker) :
    Poll (Output Out) × Locals n σ × List (Polled Out) :=
  b.loop cx ((List.range n).map s.index) s

/-! ## The machine -/

inductive Op (σ : Type*)
  | poll (cx : Waker)
  /-- The rest of the program acts. -/
  | acts (world : σ)

inductive Ev (Out : Fin n → Type*)
  | polled (p : Polled Out)
  | returned (r : Poll (Output Out))

/-- **The machine.**  A `poll_fn` that is ready is not polled again, since its `await` is over. -/
def Branches.step (b : Branches n σ Out) (s : Locals n σ) :
    Op σ → Option (Locals n σ × List (Ev Out))
  | .poll cx =>
    if s.finished then none
    else
      let r := b.pollSelect s cx
      let finished := match r.1 with
        | .ready _ => true
        | .pending => false
      some ({ r.2.1 with finished := finished }, r.2.2.map .polled ++ [.returned r.1])
  | .acts world => some ({ s with world := world }, [])

/-! ## The loop -/

theorem ready_eq {i : Fin n} {out : Out i} (j : Fin n) :
    (∃ out', (⟨i, .ready out⟩ : Polled Out) = ⟨j, .ready out'⟩) ↔ j = i := by
  constructor
  · rintro ⟨out', h⟩
    exact (congrArg Sigma.fst h).symm
  · rintro rfl
    exact ⟨out, rfl⟩

theorem disable_disabled (s : Locals n σ) (i : Fin n) (world : σ) (j : Fin n) :
    (s.disable i world).disabled j = true ↔ s.disabled j = true ∨ j = i := by
  by_cases hj : j = i
  · subst hj
    simp [Locals.disable]
  · simp [Locals.disable, hj]

/-- The output matches its pattern. -/
def Branches.hit (b : Branches n σ Out) : Polled Out → Bool
  | ⟨i, .ready out⟩ => b.accepts i out
  | ⟨_, .pending⟩ => false

theorem index_rotate (s : Locals n σ) :
    (List.range n).map s.index = (List.finRange n).rotate s.start := by
  apply ext_getElem
  · simp
  · intro k hk hk'
    simp only [getElem_map, getElem_range, getElem_rotate, getElem_finRange,
      length_finRange, Locals.index]
    apply Fin.ext
    simp [Nat.add_comm]

/-- **What the loop does**, if it comes to each branch once. -/
structure Looped (b : Branches n σ Out) (order : List (Fin n)) (s : Locals n σ)
    (r : Poll (Output Out)) (s' : Locals n σ) (polls : List (Polled Out)) : Prop where
  /-- It polls branches that are not disabled, in this order. -/
  polled : polls.map Sigma.fst <+: order.filter fun i => !s.disabled i
  /-- Without a hit, it polls all of them. -/
  through : polls.find? b.hit = none →
    polls.map Sigma.fst = order.filter fun i => !s.disabled i
  /-- It stops at the first hit. -/
  stops : ∀ x ∈ polls.dropLast, b.hit x = false
  /-- It disables the branches that are ready. -/
  disabled : ∀ i, s'.disabled i = true ↔ s.disabled i = true ∨ ∃ out, ⟨i, .ready out⟩ ∈ polls
  start : s'.start = s.start
  branch : ∀ i out, polls.find? b.hit = some ⟨i, .ready out⟩ → r = .ready (.branch i out)
  rest : polls.find? b.hit = none →
    r = if ∀ i, s'.disabled i = true then .ready .disabled else .pending

theorem Looped.cons {b : Branches n σ Out} {order : List (Fin n)} {s s₁ s' : Locals n σ}
    {r : Poll (Output Out)} {polls : List (Polled Out)} (x : Polled Out)
    (h : Looped b order s₁ r s' polls) (hi : s.disabled x.1 = false) (hx : b.hit x = false)
    (hsame : ∀ j ∈ order, s₁.disabled j = s.disabled j)
    (hdisabled : ∀ j, s₁.disabled j = true ↔ s.disabled j = true ∨ ∃ out, x = ⟨j, .ready out⟩)
    (hstart : s₁.start = s.start) : Looped b (x.1 :: order) s r s' (x :: polls) := by
  have hfilter : (x.1 :: order).filter (fun i => !s.disabled i) =
      x.1 :: order.filter fun i => !s₁.disabled i := by
    have hrest : order.filter (fun i => !s.disabled i) = order.filter fun i => !s₁.disabled i :=
      filter_congr fun j hj => by rw [hsame j hj]
    rw [filter_cons, if_pos (by rw [hi]; rfl), hrest]
  have hfind : (x :: polls).find? b.hit = polls.find? b.hit := by
    rw [find?_cons, hx]
  refine ⟨?_, ?_, ?_, ?_, h.start.trans hstart, ?_, ?_⟩
  · rw [hfilter, map_cons]
    exact cons_prefix_cons.mpr ⟨rfl, h.polled⟩
  · intro hnone
    rw [hfind] at hnone
    rw [hfilter, map_cons, h.through hnone]
  · intro y hy
    by_cases hpolls : polls = []
    · rw [hpolls] at hy
      cases hy
    · rw [dropLast_cons_of_ne_nil hpolls] at hy
      rcases mem_cons.mp hy with rfl | hy
      · exact hx
      · exact h.stops y hy
  · intro j
    rw [h.disabled j, hdisabled j, or_assoc]
    refine or_congr Iff.rfl ?_
    simp only [mem_cons, exists_or, eq_comm]
  · intro i out hbranch
    rw [hfind] at hbranch
    exact h.branch i out hbranch
  · intro hnone
    rw [hfind] at hnone
    exact h.rest hnone

theorem loop_looped (b : Branches n σ Out) (cx : Waker) : ∀ (order : List (Fin n)),
    order.Nodup → ∀ s : Locals n σ,
      Looped b order s (b.loop cx order s).1 (b.loop cx order s).2.1 (b.loop cx order s).2.2 := by
  intro order
  induction order with
  | nil =>
    intro _ s
    refine ⟨ nil_prefix, fun _ => rfl, fun x hx => ?_, fun i => ?_, rfl, ?_, fun _ => rfl⟩
    · cases hx
    · simp [Branches.loop]
    · intro i out h
      cases h
  | cons i order ih =>
    intro hnodup s
    obtain ⟨hnot, hnodup⟩ := nodup_cons.mp hnodup
    by_cases hi : s.disabled i = true
    · -- the branch is skipped
      have hloop : b.loop cx (i :: order) s = b.loop cx order s := by
        rw [Branches.loop, if_pos hi]
      have hfilter : (i :: order).filter (fun j => !s.disabled j) =
          order.filter fun j => !s.disabled j := by
        rw [filter_cons, if_neg (by rw [hi]; decide)]
      have h := ih hnodup s
      rw [hloop]
      exact ⟨by rw [hfilter]; exact h.polled, by rw [hfilter]; exact h.through, h.stops,
        h.disabled, h.start, h.branch, h.rest⟩
    · rw [Bool.not_eq_true] at hi
      generalize hpoll : b.poll i s.world cx = q
      rcases q with ⟨_ | out, world⟩
      · -- it is pending
        have hloop : b.loop cx (i :: order) s =
            ((b.loop cx order { s with world := world }).1,
              (b.loop cx order { s with world := world }).2.1,
              ⟨i, .pending⟩ :: (b.loop cx order { s with world := world }).2.2) := by
          rw [Branches.loop, hi, hpoll]
          rfl
        rw [hloop]
        refine (ih hnodup { s with world := world }).cons ⟨i, .pending⟩ hi rfl (fun _ _ => rfl)
          (fun j => ?_) rfl
        refine ⟨.inl, ?_⟩
        rintro (hj | ⟨out, hout⟩)
        · exact hj
        · cases hout
      · by_cases hit : b.accepts i out = true
        · -- it is ready, and the loop stops
          have hloop : b.loop cx (i :: order) s =
              (.ready (.branch i out), s.disable i world, [⟨i, .ready out⟩]) := by
            rw [Branches.loop, hi, hpoll]
            exact if_pos hit
          have hfind : [(⟨i, .ready out⟩ : Polled Out)].find? b.hit = some ⟨i, .ready out⟩ := by
            rw [find?_cons, show b.hit ⟨i, .ready out⟩ = true from hit]
          rw [hloop]
          refine ⟨?_, fun h => ?_, fun x hx => ?_, fun j => ?_, rfl, fun j out' h => ?_,
            fun h => ?_⟩
          · rw [filter_cons, if_pos (by rw [hi]; rfl)]
            exact cons_prefix_cons.mpr ⟨rfl, nil_prefix⟩
          · rw [hfind] at h
            cases h
          · cases hx
          · rw [disable_disabled]
            simp only [mem_singleton, eq_comm, ready_eq]
          · rw [hfind] at h
            cases h
            rfl
          · rw [hfind] at h
            cases h
        · -- it is ready, but its pattern does not match
          have hloop : b.loop cx (i :: order) s =
              ((b.loop cx order (s.disable i world)).1,
                (b.loop cx order (s.disable i world)).2.1,
                ⟨i, .ready out⟩ :: (b.loop cx order (s.disable i world)).2.2) := by
            rw [Branches.loop, hi, hpoll]
            exact if_neg hit
          rw [Bool.not_eq_true] at hit
          rw [hloop]
          refine (ih hnodup (s.disable i world)).cons ⟨i, .ready out⟩ hi hit ?_ (fun j => ?_) rfl
          · intro j hj
            have hne : j ≠ i := fun h => hnot (h ▸ hj)
            exact Function.update_of_ne hne _ _
          · rw [disable_disabled, ready_eq]

end OhosFfrt.Select
