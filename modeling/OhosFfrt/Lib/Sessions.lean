import OhosFfrt.Lib.Pieces
import OhosFfrt.Lib.Runs

/-!
# Calls that may be given up

A session is a sequence of calls on one resource.  A call makes a future, which has the resource
until it is ready; it is polled again and again, and may be dropped while it is pending, which gives
the resource back (`session`).  If drops lose nothing, the calls give the pieces in order
(`session_pieces`).
-/

namespace OhosFfrt.Lib.Sessions

open Lib.Pieces Lib.Runs List Option

variable {α σ φ κ ρ β : Type*}

/-- A resource, or the future of the call under way, which has it. -/
inductive Session (σ φ : Type*)
  | idle (s : σ)
  | waiting (f : φ)
  deriving DecidableEq, Repr

inductive Op (κ : Type*)
  /-- A poll with fuel `n`, of a new future if there is none. -/
  | poll (n : ℕ) (cx : κ)
  | drop
  deriving DecidableEq, Repr

inductive Ev (β : Type*)
  | pending
  | returned (b : β)
  | dropped
  deriving DecidableEq, Repr

/-- A function that is called: it makes a future of the resource, and a future that is gone gives
the resource back. -/
structure Callee (σ φ κ ρ β : Type*) where
  start : σ → φ
  poll : ℕ → φ → κ → Option (ρ × φ)
  ready : ρ → Option β
  stop : φ → σ

/-- The future under way, or a new one. -/
def Session.future (c : Callee σ φ κ ρ β) : Session σ φ → φ
  | .idle s => c.start s
  | .waiting f => f

/-- The resource, as it is given back if the future is dropped now. -/
def Session.resource (c : Callee σ φ κ ρ β) : Session σ φ → σ
  | .idle s => s
  | .waiting f => c.stop f

/-- What the future under way holds. -/
def Session.held (holds : φ → List α) : Session σ φ → List α
  | .idle _ => []
  | .waiting f => holds f

/-- **A session**: polls and drops in any order. -/
def session (c : Callee σ φ κ ρ β) (s : Session σ φ) :
    Op κ → Option (Session σ φ × List (Ev β))
  | .poll n cx =>
    (c.poll n (s.future c) cx).map fun r =>
      match c.ready r.1 with
      | some b => (.idle (c.stop r.2), [.returned b])
      | none => (.waiting r.2, [.pending])
  | .drop =>
    match s with
    | .idle _ => none
    | .waiting f => some (.idle (c.stop f), [.dropped])

/-- What the futures returned. -/
def returnedOf (tr : List (Ev β)) : List β :=
  tr.filterMap fun
    | .returned b => some b
    | _ => none

theorem returnedOf_append (tr tr' : List (Ev β)) :
    returnedOf (tr ++ tr') = returnedOf tr ++ returnedOf tr' :=
  filterMap_append

variable {c : Callee σ φ κ ρ β} {s s' : Session σ φ} {op : Op κ} {es tr : List (Ev β)}

theorem session_step (h : session c s op = some (s', es)) :
    (∃ n cx p f, c.poll n (s.future c) cx = some (p, f) ∧
      ((∃ b, c.ready p = some b ∧ s' = .idle (c.stop f) ∧ es = [.returned b]) ∨
        c.ready p = none ∧ s' = .waiting f ∧ es = [.pending])) ∨
    ∃ f, s = .waiting f ∧ op = .drop ∧ s' = .idle (c.stop f) ∧ es = [.dropped] := by
  cases op with
  | poll n cx =>
    obtain ⟨⟨p, f⟩, hp, hr⟩ := map_eq_some_iff.mp h
    refine .inl ⟨n, cx, p, f, hp, ?_⟩
    rcases hready : c.ready p with _ | b
    · rw [hready] at hr
      cases hr
      exact .inr ⟨rfl, rfl, rfl⟩
    · rw [hready] at hr
      cases hr
      exact .inl ⟨b, rfl, rfl, rfl⟩
  | drop =>
    cases s with
    | idle => cases h
    | waiting f =>
      cases h
      exact .inr ⟨f, rfl, rfl, rfl, rfl⟩

section pieces
variable [DecidableEq α] {d : α} {P : List α → σ → Prop} {I : List α → φ → Prop}
  {C : List (Ev β) → Session σ φ → Op κ → Prop} {l : List α} {r : σ}

/-- `l` is left, with or without a future. -/
def Left (P : List α → σ → Prop) (I : List α → φ → Prop) (l : List α) : Session σ φ → Prop
  | .idle r => P l r
  | .waiting f => I l f

/-- **What the calls return are the pieces**, whichever of them are given up.  `P l` holds of a
resource with `l` left, and `I l` of a future that is to give the first piece of `l`. -/
theorem session_pieces (out : Option (List α) → β) (hstart : ∀ l r, P l r → I l (c.start r))
    (hpoll : ∀ l n f cx p f', I l f → c.poll n f cx = some (p, f') →
      c.ready p = some (out (pieces d l).head?) ∧ P (afterPiece d l) (c.stop f') ∨
        c.ready p = none ∧ I l f')
    (hdrop : ∀ tr l f, C tr (.waiting f) .drop → I l f → P l (c.stop f))
    (h : Run (session c) C (.idle r) tr s) (h0 : P l r) :
    returnedOf tr = (List.range (returnedOf tr).length).map (fun i => out (pieces d l)[i]?) ∧
      Left P I ((pieces d l).drop (returnedOf tr).length).flatten s := by
  refine h.inv (I := fun tr s =>
    returnedOf tr = (List.range (returnedOf tr).length).map (fun i => out (pieces d l)[i]?) ∧
      Left P I ((pieces d l).drop (returnedOf tr).length).flatten s) ?_ ?_
  · refine ⟨rfl, ?_⟩
    show P ((pieces d l).drop 0).flatten r
    rwa [drop_zero, flatten_pieces]
  · rintro tr s op s' es ⟨hret, hleft⟩ hC hs
    rw [returnedOf_append]
    generalize hk : (returnedOf tr).length = k at hret hleft
    have hfuture : I ((pieces d l).drop k).flatten (s.future c) := by
      cases s with
      | idle => exact hstart _ _ hleft
      | waiting => exact hleft
    rcases session_step hs with ⟨n, cx, p, f, hp, hr⟩ | ⟨f, rfl, rfl, rfl, rfl⟩
    · rcases hpoll _ _ _ _ _ _ hfuture hp with ⟨hb, hP⟩ | ⟨hnone, hI⟩
      · obtain ⟨b, hb', rfl, rfl⟩ | ⟨hnone, -, -⟩ := hr
        · -- the next piece is returned
          rw [pieces_drop, head?_drop] at hb
          obtain rfl := some.inj (hb'.symm.trans hb)
          have hlen : (returnedOf tr ++ returnedOf [.returned (out (pieces d l)[k]?)]).length =
              k + 1 := by
            rw [length_append, hk]
            rfl
          rw [hlen]
          refine ⟨?_, ?_⟩
          · rw [range_succ, map_append, ← hret]
            rfl
          · show P ((pieces d l).drop (k + 1)).flatten (c.stop f)
            rwa [afterPiece_drop] at hP
        · rw [hnone] at hb
          cases hb
      · obtain ⟨b, hb, -, -⟩ | ⟨-, rfl, rfl⟩ := hr
        · rw [hnone] at hb
          cases hb
        · have hno : returnedOf tr ++ returnedOf [Ev.pending] = returnedOf tr := append_nil _
          rw [hno, hk]
          exact ⟨hret, hI⟩
    · have hno : returnedOf tr ++ returnedOf [Ev.dropped] = returnedOf tr := append_nil _
      rw [hno, hk]
      exact ⟨hret, hdrop tr _ f hC hleft⟩

end pieces

end OhosFfrt.Lib.Sessions
