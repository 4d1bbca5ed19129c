import OhosFfrt.JoinSet.Once

/-!
# `task::JoinSet`: `detach_all`

`detach_all` drops the abort handles and does nothing else: tasks that are not joined stay counted,
and their outcomes are joined as before.  The set is as a fresh one if and only if no task is
counted (`detached_fresh`).
-/

namespace OhosFfrt.JoinSet.Detached

open Lib.Runs JoinSet.System List Option
open JoinSet.Once
open Task.Runner (Result)

variable {V : Type*} {s s' s₂ : Sys V} {es tr tr' : List (Ev V)}

theorem joined_all (h : Ledger tr s) (h0 : s.len = 0) :
    s.inner.queue = [] ∧ ∀ j ∈ insertedOf tr, j ∈ (joinedOf tr).map Prod.fst := by
  have hcount : (joinedOf tr).length = (insertedOf tr).length := by
    have := h.count
    rw [h.inserted, length_map]
    unfold Sys.len at h0
    omega
  have hsub : (sentOf tr).map Prod.fst ⊆ insertedOf tr := by
    intro j hj
    rw [h.inserted]
    exact h.sent_mem hj
  have hsubperm := subperm_of_subset h.sent_nodup hsub
  have hle := hsubperm.length_le
  have hlen : ((sentOf tr).map Prod.fst).length =
      (joinedOf tr).length + s.inner.queue.length := by
    rw [length_map, h.fifo, length_append]
  have hq : s.inner.queue = [] := eq_nil_of_length_eq_zero (by omega)
  refine ⟨hq, fun j hj => ?_⟩
  have hperm := hsubperm.perm_of_length_le (by omega)
  have hmem := hperm.mem_iff.mpr hj
  rwa [h.fifo, hq, append_nil] at hmem

/-- **The set behaves as a fresh one.** -/
structure Fresh (s : Sys V) : Prop where
  len : s.len = 0
  empty : s.inner.queue = [] ∧ s.abortHandles = []
  /-- `join_next` returns `None` until a task is inserted. -/
  nothing : ∀ tr s', Run step Any s tr s' → insertedOf tr = [] → s'.len = 0 ∧ ∀ b cx, ∃ s₂ es,
    step s' (.poll b cx) = some (s₂, es) ∧ ∃ call, .nothing call ∈ es
  /-- Only tasks that are inserted from now on are joined from now on. -/
  joined : ∀ tr s', Run step Any s tr s' → ∀ call j r out, .joined call j r out ∈ tr →
    .inserted j ∈ tr

theorem joinedOf_detached : joinedOf (tr ++ [.detached] ++ tr') = joinedOf tr ++ joinedOf tr' := by
  rw [joinedOf_append, joinedOf_append, show joinedOf [(.detached : Ev V)] = [] from rfl,
    append_nil]

theorem insertedOf_detached :
    insertedOf (tr ++ [.detached] ++ tr') = insertedOf tr ++ insertedOf tr' := by
  rw [insertedOf_append, insertedOf_append, show insertedOf [(.detached : Ev V)] = [] from rfl,
    append_nil]

theorem len_detached (h : Ledger tr s) (h' : Ledger (tr ++ [.detached] ++ tr') s') (h0 : s.len = 0)
    (hnone : insertedOf tr' = []) : s'.len = 0 := by
  have hc := h.count
  have hc' := h'.count
  have hi := congrArg List.length h.inserted
  have hi' := congrArg List.length h'.inserted
  rw [insertedOf_detached, hnone, append_nil, length_map] at hi'
  rw [length_map] at hi
  rw [joinedOf_detached, length_append] at hc'
  unfold Sys.len at h0 ⊢
  omega

/-- A task that is joined afterwards was not joined before, so it was inserted afterwards. -/
theorem inserted_detached (h : Ledger (tr ++ [.detached] ++ tr') s)
    (hall : ∀ j ∈ insertedOf tr, j ∈ (joinedOf tr).map Prod.fst) {j : ℕ} {r : Result V}
    (hmem : (j, r) ∈ joinedOf tr') : .inserted j ∈ tr' := by
  have hnodup := h.sent_nodup
  rw [h.fifo, map_append] at hnodup
  have hnodup := (nodup_append.mp hnodup).1
  rw [joinedOf_detached, map_append] at hnodup
  have hin : j ∈ insertedOf tr ++ insertedOf tr' := by
    rw [← insertedOf_detached, h.inserted]
    refine h.sent_mem ?_
    rw [h.fifo, joinedOf_detached]
    exact mem_map_of_mem (mem_append_left _ (mem_append_right _ hmem))
  rcases mem_append.mp hin with hin | hin
  · exact absurd rfl ((nodup_append.mp hnodup).2.2 j (hall j hin) j (mem_map_of_mem hmem))
  · exact mem_insertedOf.mp hin

/-- **A set is as a fresh one after `detach_all` if and only if its tasks were all joined.** -/
theorem detached_fresh (h : Run step Any new tr s) (hs : step s .detachAll = some (s', es)) :
    Fresh s' ↔ s.len = 0 := by
  obtain ⟨rfl, rfl⟩ := Prod.mk.inj (some.inj hs)
  -- `detach_all` leaves `pending` alone
  refine ⟨fun hfresh => hfresh.len, fun h0 => ?_⟩
  have hL := ledger_run h
  obtain ⟨hq, hall⟩ := joined_all hL h0
  have hL' : ∀ tr' s₂, Run step Any { s with abortHandles := [] } tr' s₂ →
      Ledger (tr ++ [.detached] ++ tr') s₂ :=
    fun _ _ h' => ledger_run ((h.snoc trivial hs).trans h')
  refine ⟨h0, ⟨hq, rfl⟩, fun tr' s₂ h' hnone => ?_, fun tr' s₂ h' call j r out hj => ?_⟩
  · have hlen := len_detached hL (hL' _ _ h') h0 hnone
    refine ⟨hlen, fun b cx => ?_⟩
    obtain ⟨s₃, es₃, hs₃, hiff⟩ := poll_nothing (hL' _ _ h') b cx
    exact ⟨s₃, es₃, hs₃, hiff.mpr hlen⟩
  · exact inserted_detached (hL' _ _ h') hall (mem_joinedOf.mpr ⟨call, out, hj⟩)

/-- A blocking task that returns 7, and its tracker. -/
def oneTask (j i : ℕ) : List (Op ℕ) :=
  [.spawn true, .pool (.task j (.run .start)), .pool (.task j (.run .advance)),
    .pool (.task j (.run .advance)), .pool (.task j (.run (.ready 7))),
    .pool (.task j (.run .advance)), .pool (.task j (.run .advance)),
    .pool (.task j (.run .advance)), .tracker i 4, .tracker i 4, .tracker i 4]

theorem detached_fresh_joined : ∃ (s s' s₂ : Sys ℕ) (tr es tr' : List (Ev ℕ)),
    Run step Any new tr s ∧ step s .detachAll = some (s', es) ∧ Fresh s' ∧
    Run step Any s' tr' s₂ ∧ .joined .pollJoinNext 1 (.ok 7) (.plain (.ok 7)) ∈ tr' ∧
    .inserted 1 ∈ tr' := by
  refine ⟨_, _, _, _, _, _, run_exec (oneTask 0 0 ++ [.poll false 0]) rfl, rfl, ?_,
    run_exec (oneTask 1 1 ++ [.poll false 0]) rfl, by decide, ?_⟩
  · exact (detached_fresh (run_exec (oneTask 0 0 ++ [.poll false 0]) rfl) rfl).mpr rfl
  · exact ((detached_fresh (run_exec (oneTask 0 0 ++ [.poll false 0]) rfl) rfl).mpr rfl).joined _ _
      (run_exec (oneTask 1 1 ++ [.poll false 0]) rfl) .pollJoinNext 1 (.ok 7) (.plain (.ok 7))
      (by decide)

/-- **`detach_all` of a set with a task that is not joined**: `len` is still 1, and the outcome of
the task is joined afterwards, though nothing was inserted. -/
theorem detached_joined : ∃ (s s' s₂ : Sys ℕ) (tr es tr' : List (Ev ℕ)),
    Run step Any new tr s ∧ step s .detachAll = some (s', es) ∧ s'.len = 1 ∧
    Run step Any s' tr' s₂ ∧ insertedOf tr' = [] ∧
    .joined .pollJoinNext 0 (.ok 7) (.plain (.ok 7)) ∈ tr' :=
  ⟨_, _, _, _, _, _, run_exec (oneTask 0 0) rfl, rfl, rfl, run_exec [.poll false 0] rfl, rfl,
    by decide⟩

end OhosFfrt.JoinSet.Detached
